import Mathlib.Data.List.Basic

/-!
# `Driver.Options` — the command line (`parse_options.cpp`)

`parseOptions` takes the arguments after the program's name. A C string is the list of its characters, none
of them NUL. `parseArguments` is the loop of `parse_options`, one unfolding for each `++i`; the fields of
`options_` are passed along. Whether an input file was seen is not stored: the loop asks whether
`input_file_` is empty.
-/

namespace ParaCL

/-- A C string. -/
abbrev CString := List Char

/-- `llvm::OptimizationLevel`. -/
inductive OptimizationLevel where
  | O0 | O1 | O2 | O3 | Os | Oz
  deriving DecidableEq, Repr

/-- What is thrown while options are parsed. -/
inductive OptionError where
  | missingArgument (option : CString)
  | emptyOutputName
  | unknownLevel (level : CString)
  | unknownOption (option : CString)
  | multipleInputFiles
  | noInputFile
  deriving DecidableEq, Repr

def OptionError.message : OptionError → String
  | .missingArgument option => "Option " ++ String.ofList option ++ " requires an argument"
  | .emptyOutputName => "Output file name cannot be empty"
  | .unknownLevel level => "Unknown optimization level: -O" ++ String.ofList level
  | .unknownOption option => "Unknown option: " ++ String.ofList option
  | .multipleInputFiles => "Multiple input files not supported"
  | .noInputFile => "No input file provided"

/-- `Options`. -/
structure Options where
  inputFile : CString := []
  outputName : Option CString := none
  optimizationLevel : OptimizationLevel := .O2
  deriving DecidableEq, Repr

def isOption (value : CString) : Bool := ['-'].isPrefixOf value && value ≠ ['-']

def parseOptimizationLevel (level : CString) : Except OptionError OptimizationLevel :=
  if level = ['0'] then .ok .O0
  else if level = ['1'] then .ok .O1
  else if level = ['2'] then .ok .O2
  else if level = ['3'] then .ok .O3
  else if level = ['s'] then .ok .Os
  else if level = ['z'] then .ok .Oz
  else .error (.unknownLevel level)

def parseOutputName (name : CString) : Except OptionError CString :=
  if name = [] then .error .emptyOutputName else .ok name

namespace Options

/-- `options_.output_name_ = parse_output_name(value)`. -/
def setOutput (value : CString) (options : Options) : Except OptionError Options :=
  (parseOutputName value).map (fun name => { options with outputName := some name })

/-- `options_.optimization_level_ = parse_optimization_level(value)`. -/
def setLevel (value : CString) (options : Options) : Except OptionError Options :=
  (parseOptimizationLevel value).map (fun level => { options with optimizationLevel := level })

/-- An input file is refused if `input_file_` is not empty. -/
def setInput (arg : CString) (options : Options) : Except OptionError Options :=
  if options.inputFile ≠ [] then .error .multipleInputFiles else .ok { options with inputFile := arg }

end Options

/-! ## The loop -/

def dashDash : CString := ['-', '-']

def outputShort : CString := ['-', 'o']

def outputLong : CString := ['-', '-', 'o', 'u', 't', 'p', 'u', 't']

/-- `--output=` -/
def outputEquals : CString := outputLong ++ ['=']

def levelShort : CString := ['-', 'O']

/-- The loop after `--`. -/
def parseFiles : List CString → Options → Except OptionError Options
  | [], options => .ok options
  | arg :: args, options => (options.setInput arg).bind (parseFiles args)

/-- The loop of `parse_options`. -/
def parseArguments : List CString → Options → Except OptionError Options
  | [], options => .ok options
  | arg :: args, options =>
      -- from here on everything is a file
      if arg = dashDash then parseFiles args options
      else if arg = outputShort ∨ arg = outputLong then
        match args with
        | [] => .error (.missingArgument arg)
        | value :: args => (options.setOutput value).bind (parseArguments args)
      else if outputEquals <+: arg then
        (options.setOutput (arg.drop outputEquals.length)).bind (parseArguments args)
      else if outputShort <+: arg ∧ 2 < arg.length then
        (options.setOutput (arg.drop 2)).bind (parseArguments args)
      else if arg = levelShort then
        match args with
        | [] => .error (.missingArgument arg)
        | value :: args => (options.setLevel value).bind (parseArguments args)
      -- `-O` alone takes the next argument, as `-o` does
      else if levelShort <+: arg ∧ 2 < arg.length then
        (options.setLevel (arg.drop 2)).bind (parseArguments args)
      else if isOption arg then .error (.unknownOption arg)
      else (options.setInput arg).bind (parseArguments args)

/-- `parse_options`. -/
def parseOptions (args : List CString) : Except OptionError Options :=
  (parseArguments args {}).bind (fun options =>
    if options.inputFile = [] then .error .noInputFile else .ok options)

end ParaCL
