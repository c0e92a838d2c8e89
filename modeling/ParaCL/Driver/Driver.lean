import ParaCL.Codegen.Interpreted
import ParaCL.Codegen.LastValue
import ParaCL.Driver.Paths
import ParaCL.GraphDump.Dump
import ParaCL.Parser.Diagnostics
import ParaCL.Parser.RoundTrip

/-!
# `Driver.Driver` — from the command line to the exit status (`driver.cpp`, `main.cpp`)

`driver` puts the parts together: the options, the parser, the dump, and the simulator or the code generator.
What it finds outside of itself is `Surroundings`, what it does there a list of `Output`s; the parser and the
simulator run for a number of steps and of tests, and `main` exits if some number is enough.

Reading a file is taken to give its whole text, both times, or nothing at all. LLVM is taken to be built without
assertions: what it does with calls it does not allow, and whether its passes come to an end, is not defined, and
neither is what a visitor does that reads `last_value_` before it has a value.
-/

namespace ParaCL

open Lib ParaCL.Language

/-- The options of `CMakeLists.txt`. -/
structure Build where
  graphDump : Bool
  interpret : Bool

/-- What there is to read under the name of a file: nothing that opens, something that opens and whose reads go
    bad (a directory), or a text. -/
inductive SourceFile where
  | absent
  | unreadable
  | text (content : List Char)

/-- What the process finds outside of itself. `llvm` says of a program whether LLVM allows the calls that the
    generator makes for it and its passes return; `irFile` what LLVM has to report about a file it writes. For
    the dump there are a directory and a file of its own. `address` is where the nodes are, and `endLeng` what
    the scanner leaves in `yyleng` at the end of a file. -/
structure Surroundings where
  files : CString → SourceFile
  cwd : Except String CString
  createDirectories : CString → Except String Unit
  irFile : CString → Except String Unit
  llvm : OptimizationLevel → Program → Bool
  dumpDirectory : Except String Unit
  dumpFile : Bool
  input : Nat → Number
  address : Position → String
  endLeng : Nat

/-- What is thrown, all of it derived from `std::exception`. -/
inductive Exception where
  | option (e : OptionError)
  | noProgramFile
  | parser (e : Escape)
  | parseFailed
  | unknownError
  | fileSystem (what : String)
  | noDumpFile
  | unknownVariable (name : Name)
  | generator (e : GenError)
  deriving DecidableEq

def Exception.what : Exception → String
  | .option e => e.message
  | .noProgramFile => "Can't open program file\n"
  | .parser .outOfRange => "stoi"
  | .parser (.underflow what) => what
  -- an error of the parser that no run makes
  | .parser .variant => ""
  | .parseFailed => "parse failed\n"
  | .unknownError => "unknown error\n"
  | .fileSystem what => what
  | .noDumpFile => "unable to open gv file\n"
  | .unknownVariable name => "Unknown variable: " ++ name
  | .generator e => e.message

/-- What `main` says of it. -/
def Exception.report (e : Exception) : String := "error: " ++ e.what ++ "\n"

/-- What the scanner says of a file whose reads go bad. -/
def scannerReport : String := "input in flex scanner failed\n"

/-- What LLVM says of a file it could not write. -/
def irReport (message : String) : String := "LLVM ERROR: IO failure on output stream: " ++ message ++ "\n"

/-- `Error_info::print`; a source line that does not exist is empty here. -/
def ErrorInfo.print (programFile : CString) (e : ErrorInfo) : String :=
  String.ofList programFile ++ ":" ++ toString e.loc.beginLine ++ ":" ++ toString e.loc.beginColumn ++
    ": error: " ++ e.error.message ++ "\n\t" ++ String.ofList (e.lineWithError.getD []) ++ "\n\t" ++
    String.ofList (List.replicate (e.loc.beginColumn - 1).toNat ' ') ++
    String.ofList (List.replicate (e.loc.endColumn - e.loc.beginColumn).toNat '^') ++ "\n"

/-- `print_errors`. -/
def printErrors (programFile : CString) (errors : List ErrorInfo) : String :=
  String.join (errors.map (ErrorInfo.print programFile))

/-- What the process does: `FAILED: ` and the diagnostics, the dump, a number that is printed, a module that is
    optimized and printed to a file, a command for the shell. -/
inductive Output where
  | failed (text : String)
  | dumped (picture : String)
  | printed (n : Number)
  | wrote (file : CString) (level : OptimizationLevel) (module : CodeGenerator)
  | ran (command : CString)

/-- Why it stops before its end. The scanner and LLVM do not throw: they call `exit` themselves. -/
inductive Halt where
  | thrown (e : Exception)
  | exited (status : Nat) (err : String)
  | undefined

/-- Do, or stop. -/
abbrev Drive (α : Type) := Prog Halt (List Output) α

namespace Drive

def perform (a : Output) : Drive Unit := Prog.modify (fun s => s ++ [a])

def attempt {ε α : Type} (f : ε → Halt) : Except ε α → Drive α
  | .ok a => pure a
  | .error e => Prog.raise (f e)

def expect {α : Type} (e : Halt) : Option α → Drive α
  | some a => pure a
  | none => Prog.raise e

end Drive

open Drive

/-! ## Definitions -/

section Driver

variable (B : Build) (M : Llvm) (describe : List Terminal → Terminal → String) (S : Surroundings) (fuel : Nat)

/-- The program file. The first read of the scanner is the one that goes bad: `YY_FATAL_ERROR`. -/
def readProgram (inputFile : CString) : Drive (List Char) :=
  match S.files inputFile with
  | .absent => Prog.raise (.thrown .noProgramFile)
  | .unreadable => Prog.raise (.exited 2 scannerReport)
  | .text content => pure content

/-- `parser.parse()`. -/
def parse (text : List Char) : Drive (Parse Lexer × ParseResult Escape) :=
  match runToEnd (parseStep yylex describe) fuel (parseStart text S.endLeng) with
  | some r => pure r
  | none => fun s => .timeout s

/-- What `root_` points to: the value of `program`. -/
def getRoot (c : Parse Lexer) : Option Program :=
  match c.stack.map Prod.snd with
  | [_, .of .program stmts] => (stmts.mapM id).map Program.mk
  | _ => none

/-- From the end of the parser to the tree. -/
def parsed (inputFile : CString) (c : Parse Lexer) (result : ParseResult Escape) : Drive Program :=
  match result with
  | .escape e => Prog.raise (.thrown (.parser e))
  | result =>
      if c.state.hasErrors then do
        let _ ← perform (.failed ("FAILED: " ++ printErrors inputFile c.state.errors))
        Prog.raise (.thrown .parseFailed)
      else
        match result with
        | .accept => expect .undefined (getRoot c)
        | _ => Prog.raise (.thrown .unknownError)

/-- The part under `GRAPH_DUMP`. -/
def dump (root : Program) : Drive Unit :=
  if B.graphDump then do
    let _ ← attempt (fun what => .thrown (.fileSystem what)) S.dumpDirectory
    if S.dumpFile then
      let picture ← attempt (fun _ => .undefined) (graphDump S.address root)
      perform (.dumped picture)
    else Prog.raise (.thrown .noDumpFile)
  else pure ()

/-- The part under `INTERPRET`. -/
def interpret (root : Program) : Drive Unit := fun s =>
  match Simulator.run ⟨.cpp, S.input⟩ fuel root with
  | .done _ t => .done () (s ++ t.printed.map .printed)
  | .fault (.unknownVariable x) t => .fault (.thrown (.unknownVariable x)) (s ++ t.printed.map .printed)
  | .fault _ t => .fault .undefined (s ++ t.printed.map .printed)
  | .timeout t => .timeout (s ++ t.printed.map .printed)

/-- The directory that `make_compile_paths` goes by: the one the output name is in, or the current one. -/
def baseDir (optOutputName : Option CString) : Except String CString :=
  let outDir := (optOutputName.map parentPath).getD []
  if outDir = [] then S.cwd else .ok outDir

/-- `make_compile_paths`, with the directories it makes for an output name. -/
def compilePaths (optOutputName : Option CString) : Except String CompilePaths := do
  let dir ← baseDir S optOutputName
  if optOutputName.isSome then S.createDirectories dir
  return makeCompilePaths dir optOutputName

/-- `root->accept(generator)`. -/
def generate (level : OptimizationLevel) (root : Program) : Drive CodeGenerator :=
  if root.ReadsUnset ∨ S.llvm level root = false then Prog.raise .undefined
  else attempt (fun t => .thrown (.generator t.error)) (CodeGenerator.visitProgram M .source root)

/-- `compile`. The results of opening the file and of the shell are not looked at; a stream with an error left
    in it makes LLVM give up, but only when it is destroyed, after the command. -/
def compile (paths : CompilePaths) (level : OptimizationLevel) (generator : CodeGenerator) : Drive Unit :=
  match S.irFile paths.ll with
  | .ok () => do
      let _ ← perform (.wrote paths.ll level generator)
      perform (.ran (clangCommand paths))
  | .error message => do
      let _ ← perform (.ran (clangCommand paths))
      Prog.raise (.exited 1 (irReport message))

/-- The part without `INTERPRET`. -/
def compileRoot (options : Options) (root : Program) : Drive Unit := do
  let paths ← attempt (fun what => .thrown (.fileSystem what)) (compilePaths S options.outputName)
  let generator ← generate M S options.optimizationLevel root
  compile S paths options.optimizationLevel generator

def driver (args : List CString) : Drive Unit := do
  let options ← attempt (fun e => .thrown (.option e)) (parseOptions args)
  let text ← readProgram S options.inputFile
  let r ← parse describe S fuel text
  let root ← parsed options.inputFile r.1 r.2
  let _ ← dump B S root
  if B.interpret then interpret S fuel root else compileRoot M S options root

/-- What becomes of it in `main`: the exit status and what goes to `std::cerr`. -/
def conclude : Outcome Halt (List Output) Unit → Outcome Unit (List Output) (Nat × String)
  | .done _ s => .done (0, "") s
  | .fault (.thrown e) s => .done (1, e.report) s
  | .fault (.exited status err) s => .done (status, err) s
  | .fault .undefined s => .fault () s
  | .timeout s => .timeout s

def main (args : List CString) : Outcome Unit (List Output) (Nat × String) :=
  conclude (driver B M describe S fuel args [])

end Driver

/-! ## What the parts do -/

variable {B : Build} {M : Llvm} {describe : List Terminal → Terminal → String} {S : Surroundings} {fuel : Nat}
  {text : List Char} {c : Parse Lexer} {result : ParseResult Escape} {root p : Program} {s s' : List Output}
  {options : Options} {args : List CString}

theorem attempt_done {ε α : Type} {f : ε → Halt} {r : Except ε α} {a : α} :
    attempt f r s = .done a s' ↔ r = .ok a ∧ s' = s := by
  cases r with
  | ok b => simp [attempt, Prog.pure_run, eq_comm]
  | error e => simp [attempt, Prog.raise_run]

theorem expect_done {α : Type} {e : Halt} {o : Option α} {a : α} :
    expect e o s = .done a s' ↔ o = some a ∧ s' = s := by
  cases o with
  | some b => simp [expect, Prog.pure_run, eq_comm]
  | none => simp [expect, Prog.raise_run]

theorem perform_done {a : Output} {u : Unit} : perform a s = .done u s' ↔ s' = s ++ [a] := by
  simp [perform, Prog.modify, eq_comm]

theorem parse_done {r : Parse Lexer × ParseResult Escape} :
    parse describe S fuel text s = .done r s' ↔
      runToEnd (parseStep yylex describe) fuel (parseStart text S.endLeng) = some r ∧ s' = s := by
  unfold parse
  cases runToEnd (parseStep yylex describe) fuel (parseStart text S.endLeng) with
  | some r' => simp [Prog.pure_run, eq_comm]
  | none => simp

theorem readProgram_done {file : CString} :
    readProgram S file s = .done text s' ↔ S.files file = .text text ∧ s' = s := by
  unfold readProgram
  cases S.files file with
  | absent | unreadable => simp [Prog.raise_run]
  | text content => simp [Prog.pure_run, eq_comm]

theorem parsed_done {file : CString} : parsed file c result s = .done root s' ↔
    result = .accept ∧ c.state.hasErrors = false ∧ getRoot c = some root ∧ s' = s := by
  cases result with
  | escape e => simp [parsed, Prog.raise_run]
  | abort | accept =>
      unfold parsed
      cases c.state.hasErrors with
      | true => simp [Prog.bind_eq_done, Prog.raise_run]
      | false => simp [Prog.raise_run, expect_done]

/-- The statements of a tree without null pointers. -/
theorem mapM_id_eq_some {α : Type} {l : List (Option α)} {m : List α} :
    l.mapM id = some m ↔ l = m.map some := by
  induction l generalizing m with
  | nil => cases m <;> simp
  | cons o l ih =>
      cases o with
      | none => cases m <;> simp
      | some a => cases m <;> simp [Option.bind_eq_some_iff, ih, and_comm]

/-- What the driver goes on with. -/
theorem getRoot_eq_some :
    getRoot c = some p ↔ ∃ w, c.stack.map Prod.snd = [w, .of .program (p.stmts.map some)] := by
  unfold getRoot
  split
  · next w stmts h =>
      simp only [h, Option.map_eq_some_iff, mapM_id_eq_some]
      constructor
      · rintro ⟨_, rfl, rfl⟩
        exact ⟨w, rfl⟩
      · rintro ⟨w', hw⟩
        simp only [List.cons.injEq, SemanticValue.of.injEq, heq_eq_eq, true_and, and_true] at hw
        exact ⟨_, hw.2, rfl⟩
  · next h => simpa using fun w hw => h w _ hw

theorem builds_iff {n : Nat} : Builds describe text n p ↔
    ∃ c, Ends (parseStep yylex describe) (parseStart text n) c .accept ∧ c.state.hasErrors = false ∧
      getRoot c = some p := by
  simp only [getRoot_eq_some]
  constructor
  · rintro ⟨c, w, hends, herrors, hw⟩
    exact ⟨c, hends, herrors, w, hw⟩
  · rintro ⟨c, hends, herrors, w, hw⟩
    exact ⟨c, w, hends, herrors, hw⟩

/-- The dump, if there is one. -/
def Dumps (B : Build) (S : Surroundings) (p : Program) (out : List Output) : Prop :=
  if B.graphDump then
    S.dumpDirectory = .ok () ∧ S.dumpFile = true ∧ ∃ picture, graphDump S.address p = .ok picture ∧
      out = [.dumped picture]
  else out = []

theorem dump_done {u : Unit} : dump B S p s = .done u s' ↔ ∃ out, Dumps B S p out ∧ s' = s ++ out := by
  unfold Dumps dump
  cases B.graphDump with
  | false => simp [Prog.pure_run, eq_comm]
  | true =>
      cases S.dumpFile with
      | false => simp [Prog.bind_eq_done, attempt_done, Prog.raise_run]
      | true => simp [Prog.bind_eq_done, attempt_done, perform_done, Unique.exists_iff, and_assoc]

/-! ### The paths -/

theorem compilePaths_error {name : Option CString} {what : String} : compilePaths S name = .error what ↔
    baseDir S name = .error what ∨
      ∃ dir, baseDir S name = .ok dir ∧ name.isSome ∧ S.createDirectories dir = .error what := by
  unfold compilePaths
  cases baseDir S name with
  | error w => simp [Bind.bind, Except.bind]
  | ok dir =>
      cases name with
      | none => simp [Bind.bind, Except.bind, Pure.pure, Except.pure]
      | some outExe =>
          cases hdir : S.createDirectories dir <;> simp [Bind.bind, Except.bind, Pure.pure, Except.pure, hdir]

theorem compilePaths_ok {name : Option CString} {paths : CompilePaths} (h : compilePaths S name = .ok paths) :
    ∃ dir, baseDir S name = .ok dir ∧ paths = makeCompilePaths dir name := by
  unfold compilePaths at h
  cases hbase : baseDir S name with
  | error w =>
      rw [hbase] at h
      cases h
  | ok dir =>
      rw [hbase] at h
      refine ⟨dir, rfl, ?_⟩
      cases name with
      | none =>
          cases h
          rfl
      | some outExe =>
          cases hdir : S.createDirectories dir with
          | error w => simp [Bind.bind, Except.bind, hdir] at h
          | ok u =>
              simp only [Bind.bind, Except.bind, Option.isSome_some, if_true, hdir, Pure.pure, Except.pure,
                Except.ok.injEq] at h
              exact h.symm

/-! ### The compiler -/

/-- It is defined what the generator and LLVM do with the program. -/
structure Defined (S : Surroundings) (options : Options) (p : Program) : Prop where
  sets : ¬ p.ReadsUnset
  llvm : S.llvm options.optimizationLevel p = true

/-- What the compiler leaves behind. -/
def compiled (options : Options) (paths : CompilePaths) (gf : CodeGenerator) : List Output :=
  [.wrote paths.ll options.optimizationLevel gf, .ran (clangCommand paths)]

section CompileRoot

variable {paths : CompilePaths} {gf : CodeGenerator}

theorem generate_undefined (h : ¬ Defined S options p) :
    generate M S options.optimizationLevel p s = .fault .undefined s := by
  rw [generate, if_pos]
  · rfl
  · by_contra hno
    rw [not_or, Bool.not_eq_false] at hno
    exact h ⟨hno.1, hno.2⟩

theorem generate_defined (h : Defined S options p) : generate M S options.optimizationLevel p =
    attempt (fun t => .thrown (.generator t.error)) (CodeGenerator.visitProgram M .source p) := by
  rw [generate, if_neg]
  rw [not_or, Bool.not_eq_false]
  exact ⟨h.sets, h.llvm⟩

theorem compileRoot_error {what : String} (h : compilePaths S options.outputName = .error what) :
    compileRoot M S options p s = .fault (.thrown (.fileSystem what)) s := by
  rw [compileRoot, h]
  rfl

theorem compileRoot_paths (h : compilePaths S options.outputName = .ok paths) :
    compileRoot M S options p s =
      (generate M S options.optimizationLevel p >>= compile S paths options.optimizationLevel) s := by
  rw [compileRoot, h]
  rfl

theorem compileRoot_undefined (hpaths : compilePaths S options.outputName = .ok paths)
    (h : ¬ Defined S options p) : compileRoot M S options p s = .fault .undefined s := by
  rw [compileRoot_paths hpaths, Prog.bind_fault (generate_undefined h)]

/-- The generator throws. -/
theorem compileRoot_throws (hpaths : compilePaths S options.outputName = .ok paths) (hd : Defined S options p)
    {t : Thrown} (hv : CodeGenerator.visitProgram M .source p = .error t) :
    compileRoot M S options p s = .fault (.thrown (.generator t.error)) s := by
  rw [compileRoot_paths hpaths, generate_defined hd, hv]
  rfl

/-- The generator comes to its end. -/
theorem compileRoot_compile (hpaths : compilePaths S options.outputName = .ok paths) (hd : Defined S options p)
    (hv : CodeGenerator.visitProgram M .source p = .ok gf) :
    compileRoot M S options p s = compile S paths options.optimizationLevel gf s := by
  rw [compileRoot_paths hpaths, generate_defined hd, hv]
  rfl

theorem compile_written (h : S.irFile paths.ll = .ok ()) :
    compile S paths options.optimizationLevel gf s = .done () (s ++ compiled options paths gf) := by
  rw [compile, h]
  show Outcome.done () ((s ++ [_]) ++ [_]) = _
  rw [List.append_assoc]
  rfl

theorem compile_failed {message : String} (h : S.irFile paths.ll = .error message) :
    compile S paths options.optimizationLevel gf s =
      .fault (.exited 1 (irReport message)) (s ++ [.ran (clangCommand paths)]) := by
  rw [compile, h]
  rfl

end CompileRoot

/-- **The parts together.** -/
theorem driver_done {u : Unit} : driver B M describe S fuel args s = .done u s' ↔
    ∃ options text c p out, parseOptions args = .ok options ∧ S.files options.inputFile = .text text ∧
      runToEnd (parseStep yylex describe) fuel (parseStart text S.endLeng) = some (c, .accept) ∧
      c.state.hasErrors = false ∧ getRoot c = some p ∧ Dumps B S p out ∧
      (if B.interpret then interpret S fuel p else compileRoot M S options p) (s ++ out) = .done u s' := by
  simp only [driver, Prog.bind_eq_done, attempt_done, readProgram_done, parse_done, parsed_done, dump_done]
  constructor
  · rintro ⟨options, _, ⟨hoptions, rfl⟩, text, _, ⟨htext, rfl⟩, ⟨c, result⟩, _, ⟨hparse, rfl⟩, p, _,
      ⟨rfl, herrors, hroot, rfl⟩, _, _, ⟨out, hdumps, rfl⟩, hrest⟩
    exact ⟨options, text, c, p, out, hoptions, htext, hparse, herrors, hroot, hdumps, hrest⟩
  · rintro ⟨options, text, c, p, out, hoptions, htext, hparse, herrors, hroot, hdumps, hrest⟩
    exact ⟨options, _, ⟨hoptions, rfl⟩, text, _, ⟨htext, rfl⟩, ⟨c, .accept⟩, _, ⟨hparse, rfl⟩, p, _,
      ⟨rfl, herrors, hroot, rfl⟩, (), _, ⟨out, hdumps, rfl⟩, hrest⟩

/-- Up to the end of the parser. -/
theorem driver_parsed (hoptions : parseOptions args = .ok options)
    (htext : S.files options.inputFile = .text text)
    (hparse : runToEnd (parseStep yylex describe) fuel (parseStart text S.endLeng) = some (c, result)) :
    driver B M describe S fuel args s = (do
      let root ← parsed options.inputFile c result
      let _ ← dump B S root
      if B.interpret then interpret S fuel root else compileRoot M S options root) s := by
  rw [driver, hoptions]
  show (readProgram S options.inputFile >>= _) s = _
  rw [Prog.bind_done (readProgram_done.mpr ⟨htext, rfl⟩), Prog.bind_done (parse_done.mpr ⟨hparse, rfl⟩)]

theorem parsed_failed {file : CString} (hno : ∀ e, result ≠ .escape e) (herrors : c.state.hasErrors = true) :
    parsed file c result s =
      .fault (.thrown .parseFailed) (s ++ [.failed ("FAILED: " ++ printErrors file c.state.errors)]) := by
  cases result with
  | escape e => exact absurd rfl (hno e)
  | abort | accept =>
      unfold parsed
      rw [herrors]
      rfl

end ParaCL
