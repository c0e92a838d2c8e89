import ParaCL.Driver.Groups
import ParaCL.Lib.Ensures

/-!
# `Driver.InputFiles` — how many input files are accepted

`splitGroups` reads an argument list as groups, without effect; where that fails `parse_options` throws.
What the loops do to `input_file_` then depends on the positional arguments alone (`takeFiles`): a file is
accepted as long as the ones before it are empty, and so one file that is not is accepted (`commandLine_accepted`).
-/

namespace ParaCL

/-! ## Splitting into groups -/

theorem drop_two_ne_nil {arg : CString} (h : 2 < arg.length) : arg.drop 2 ≠ [] := by
  intro hd
  have := List.drop_eq_nil_iff.mp hd
  omega

/-- A group before the others. -/
def consGroup (g : ArgGroup) : List ArgGroup × Option (List CString) → List ArgGroup × Option (List CString)
  | (groups, rest) => (g :: groups, rest)

/-- The groups of an argument list and what follows a `--`, unless an option is unknown or lacks its
    value. -/
def splitGroups : List CString → Option (List ArgGroup × Option (List CString))
  | [] => some ([], none)
  | arg :: args =>
      if arg = dashDash then some ([], some args)
      else if h : arg = outputShort ∨ arg = outputLong then
        match args with
        | [] => none
        | value :: args => (splitGroups args).map (consGroup (.outputNext arg h value))
      else if outputEquals <+: arg then
        (splitGroups args).map (consGroup (.outputEqual (arg.drop outputEquals.length)))
      else if h : outputShort <+: arg ∧ 2 < arg.length then
        (splitGroups args).map (consGroup (.outputJoined (arg.drop 2) (drop_two_ne_nil h.2)))
      else if arg = levelShort then
        match args with
        | [] => none
        | value :: args => (splitGroups args).map (consGroup (.levelNext value))
      else if h : levelShort <+: arg ∧ 2 < arg.length then
        (splitGroups args).map (consGroup (.levelJoined (arg.drop 2) (drop_two_ne_nil h.2)))
      else if h : isOption arg then none
      else (splitGroups args).map (consGroup (.positional arg (by simpa using h)))

/-- The values of the positional groups. -/
def inputs (groups : List ArgGroup) : List CString :=
  (groups.filter (fun g => g.kind = .input)).map ArgGroup.value

/-- The positional arguments that remain once the options have taken their values. -/
def positionals (args : List CString) : Option (List CString) :=
  (splitGroups args).map (fun split => inputs split.1 ++ split.2.getD [])

section Split

variable {args : List CString} {groups : List ArgGroup} {rest : Option (List CString)}
  {split : List ArgGroup × Option (List CString)}

theorem eq_append_drop {w arg : CString} (h : w <+: arg) : w ++ arg.drop w.length = arg := by
  obtain ⟨u, rfl⟩ := h
  rw [List.drop_left]

theorem commandLine_cons {g : ArgGroup} :
    commandLine (consGroup g split).1 (consGroup g split).2 =
      g.args ++ commandLine split.1 split.2 := by
  rw [consGroup, commandLine, List.flatMap_cons, List.append_assoc]
  rfl

/-- **The groups** are those of the argument list. -/
theorem splitGroups_sound (h : splitGroups args = some split) :
    args = commandLine split.1 split.2 := by
  have hcons : ∀ {g : ArgGroup} {args args' : List CString}, args = g.args ++ args' →
      (∀ {split}, splitGroups args' = some split → args' = commandLine split.1 split.2) →
      ∀ {split}, (splitGroups args').map (consGroup g) = some split →
        args = commandLine split.1 split.2 := by
    intro g args args' he ih split hs
    obtain ⟨split', hs', rfl⟩ := Option.map_eq_some_iff.mp hs
    rw [commandLine_cons, ← ih hs', he]
  fun_induction splitGroups args generalizing split with
  | case1 => cases h; rfl
  | case2 args => cases h; rfl
  | case3 | case7 | case10 => cases h
  | case4 arg _ hs v args ih => exact hcons rfl ih h
  | case5 arg args _ _ he ih => exact hcons (by rw [ArgGroup.args, eq_append_drop he]; rfl) ih h
  | case6 arg args _ _ _ hj ih =>
      have he : outputShort ++ arg.drop 2 = arg := eq_append_drop hj.1
      exact hcons (by rw [ArgGroup.args, he]; rfl) ih h
  | case8 v args _ _ _ _ ih => exact hcons rfl ih h
  | case9 arg args _ _ _ _ _ hj ih =>
      have he : levelShort ++ arg.drop 2 = arg := eq_append_drop hj.1
      exact hcons (by rw [ArgGroup.args, he]; rfl) ih h
  | case11 arg args _ _ _ _ _ _ _ ih => exact hcons rfl ih h

/-- Without groups the parse fails. -/
theorem splitGroups_none (h : splitGroups args = none) (options : Options) :
    ∃ e, parseArguments args options = .error e := by
  have hgroup : ∀ {g : ArgGroup} {args args' : List CString}, args = g.args ++ args' →
      (∀ options, splitGroups args' = none → ∃ e, parseArguments args' options = .error e) →
      (splitGroups args').map (consGroup g) = none →
      ∀ options, ∃ e, parseArguments args options = .error e := by
    intro g args args' he ih hs options
    rw [he, parseArguments_group]
    cases options.set g.kind g.value with
    | error e => exact ⟨e, rfl⟩
    | ok options => exact ih options (Option.map_eq_none_iff.mp hs)
  fun_induction splitGroups args generalizing options with
  | case1 | case2 => cases h
  | case3 arg _ hs => rcases hs with rfl | rfl <;> exact ⟨_, rfl⟩
  | case4 arg _ hs v args ih => exact hgroup rfl (fun o hn => ih hn o) h options
  | case5 arg args _ _ he ih =>
      exact hgroup (by rw [ArgGroup.args, eq_append_drop he]; rfl) (fun o hn => ih hn o) h options
  | case6 arg args _ _ _ hj ih =>
      have he : outputShort ++ arg.drop 2 = arg := eq_append_drop hj.1
      exact hgroup (by rw [ArgGroup.args, he]; rfl) (fun o hn => ih hn o) h options
  | case7 => exact ⟨_, rfl⟩
  | case8 v args _ _ _ _ ih => exact hgroup rfl (fun o hn => ih hn o) h options
  | case9 arg args _ _ _ _ _ hj ih =>
      have he : levelShort ++ arg.drop 2 = arg := eq_append_drop hj.1
      exact hgroup (by rw [ArgGroup.args, he]; rfl) (fun o hn => ih hn o) h options
  | case10 arg args h1 h2 h3 h4 h5 h6 h7 =>
      rw [parseArguments.eq_def]
      simp only [h1, h2, h3, h4, h5, h6, h7, if_true, if_false]
      exact ⟨_, rfl⟩
  | case11 arg args _ _ _ _ _ _ _ ih => exact hgroup rfl (fun o hn => ih hn o) h options

end Split

/-! ## What happens to `input_file_` -/

/-- The value of the group is accepted. -/
def ArgGroup.Valid (g : ArgGroup) : Prop :=
  match g.kind with
  | .output => (parseOutputName g.value).isOk
  | .level => (parseOptimizationLevel g.value).isOk
  | .input => True

/-- Every option is known, has its value, and the value is accepted. -/
def OptionsValid (args : List CString) : Prop :=
  ∃ split, splitGroups args = some split ∧ ∀ g ∈ split.1, g.Valid

/-- Files are taken as long as no file was seen, or an empty one. -/
def takeFiles : CString → List CString → Option CString
  | file, [] => some file
  | file, next :: files => if file = [] then takeFiles next files else none

section Files

variable {options options' : Options} {groups : List ArgGroup} {files : List CString}
  {file file' : CString} {args : List CString}

theorem takeFiles_append (files files' : List CString) :
    takeFiles file (files ++ files') = (takeFiles file files).bind (takeFiles · files') := by
  induction files generalizing file with
  | nil => rfl
  | cons next files ih =>
      rw [List.cons_append, takeFiles, takeFiles]
      by_cases h : file = []
      · rw [if_pos h, if_pos h, ih]
      · rw [if_neg h, if_neg h]
        rfl

/-- All but the last are empty. -/
theorem takeFiles_iff : takeFiles file files = some file' ↔
    ∃ n, file :: files = List.replicate n [] ++ [file'] := by
  induction files generalizing file with
  | nil =>
      rw [takeFiles, Option.some.injEq]
      constructor
      · rintro rfl; exact ⟨0, rfl⟩
      · rintro ⟨n, hn⟩
        cases n with
        | zero => exact (List.cons_eq_cons.mp hn).1
        | succ n => simp [List.replicate_succ] at hn
  | cons next files ih =>
      rw [takeFiles]
      by_cases h : file = []
      · rw [if_pos h, ih]
        constructor
        · rintro ⟨n, hn⟩
          exact ⟨n + 1, by rw [List.replicate_succ, List.cons_append, ← hn, h]⟩
        · rintro ⟨n, hn⟩
          cases n with
          | zero => simp at hn
          | succ n =>
              rw [List.replicate_succ, List.cons_append] at hn
              exact ⟨n, (List.cons_eq_cons.mp hn).2⟩
      · rw [if_neg h]
        -- a file that is not empty is already there, so any further one is refused
        refine iff_of_false (by simp) ?_
        rintro ⟨n, hn⟩
        cases n with
        | zero => simp at hn
        | succ n =>
            rw [List.replicate_succ, List.cons_append] at hn
            exact h (List.cons_eq_cons.mp hn).1

theorem parseFiles_input : (∃ o, parseFiles files options = .ok o ∧ o.inputFile = file) ↔
    takeFiles options.inputFile files = some file := by
  induction files generalizing options with
  | nil => simp [parseFiles, takeFiles]
  | cons next files ih =>
      rw [parseFiles, Options.setInput, takeFiles]
      by_cases h : options.inputFile = []
      · simp only [h, ne_eq, not_true_eq_false, if_false, if_true]
        exact ih
      · rw [if_neg h, if_pos h]
        simp [Except.bind]

/-- What one group does to the input file. -/
theorem set_input (g : ArgGroup) :
    (∃ o, options.set g.kind g.value = .ok o ∧ o.inputFile = file) ↔
      g.Valid ∧ takeFiles options.inputFile (inputs [g]) = some file := by
  unfold ArgGroup.Valid inputs
  cases hk : g.kind with
  | output =>
      simp only [Options.set, Options.setOutput]
      cases parseOutputName g.value with
      | error e => simp [Except.map, Except.isOk, Except.toBool]
      | ok name => simp [Except.map, Except.isOk, Except.toBool, takeFiles, hk]
  | level =>
      simp only [Options.set, Options.setLevel]
      cases parseOptimizationLevel g.value with
      | error e => simp [Except.map, Except.isOk, Except.toBool]
      | ok level => simp [Except.map, Except.isOk, Except.toBool, takeFiles, hk]
  | input =>
      simp only [Options.set, Options.setInput]
      by_cases h : options.inputFile = []
      · simp [h, takeFiles, hk]
      · simp [h, takeFiles, hk]

theorem runGroups_input : (∃ o, runGroups groups options = .ok o ∧ o.inputFile = file) ↔
    (∀ g ∈ groups, g.Valid) ∧ takeFiles options.inputFile (inputs groups) = some file := by
  induction groups generalizing options with
  | nil => simp [runGroups, inputs, takeFiles]
  | cons g gs ih =>
      have happend : inputs (g :: gs) = inputs [g] ++ inputs gs := by
        unfold inputs
        rw [← List.map_append, ← List.filter_append]
        rfl
      rw [runGroups, happend, takeFiles_append, List.forall_mem_cons]
      constructor
      · rintro ⟨o, ho, rfl⟩
        cases hg : options.set g.kind g.value with
        | error e => rw [hg] at ho; cases ho
        | ok mid =>
            rw [hg] at ho
            obtain ⟨hvalid, hfiles⟩ := ih.mp ⟨o, ho, rfl⟩
            obtain ⟨hg', hfile⟩ := (set_input g).mp ⟨mid, hg, rfl⟩
            exact ⟨⟨hg', hvalid⟩, by rw [hfile]; exact hfiles⟩
      · rintro ⟨⟨hg, hvalid⟩, hfiles⟩
        obtain ⟨mid, hmid, hfiles⟩ := Option.bind_eq_some_iff.mp hfiles
        obtain ⟨o, ho, rfl⟩ := (set_input g).mpr ⟨hg, hmid⟩
        rw [ho]
        exact ih.mpr ⟨hvalid, hfiles⟩

theorem parseRest_input {rest : Option (List CString)} :
    (∃ o, parseArguments (rest.elim [] (dashDash :: ·)) options = .ok o ∧ o.inputFile = file) ↔
      takeFiles options.inputFile (rest.getD []) = some file := by
  cases rest with
  | none => simp [parseArguments, takeFiles]
  | some files =>
      show (∃ o, parseArguments (dashDash :: files) options = .ok o ∧ o.inputFile = file) ↔ _
      rw [parseArguments_dashDash]
      exact parseFiles_input

/-- A command line is accepted if the values of its groups are, and a file is left at the end that is not
    empty. -/
theorem commandLine_input {rest : Option (List CString)} :
    (∃ o, parseOptions (commandLine groups rest) = .ok o ∧ o.inputFile = file) ↔
      (∀ g ∈ groups, g.Valid) ∧ takeFiles [] (inputs groups ++ rest.getD []) = some file ∧ file ≠ [] := by
  rw [takeFiles_append, parseOptions_groups]
  constructor
  · rintro ⟨o, ho, rfl⟩
    obtain ⟨mid, hmid, ho⟩ := Lib.bind_ok_iff.mp ho
    obtain ⟨last, hlast, ho⟩ := Lib.bind_ok_iff.mp ho
    split at ho
    · cases ho
    · rename_i hne
      cases ho
      obtain ⟨hgroups, hfile⟩ := runGroups_input.mp ⟨mid, hmid, rfl⟩
      have hrest := parseRest_input.mp ⟨_, hlast, rfl⟩
      exact ⟨hgroups, by rw [hfile]; exact hrest, hne⟩
  -- the input file of the options is the last one taken, first from the groups, then from the rest
  · rintro ⟨hgroups, hfile, hne⟩
    obtain ⟨mid, hmid, hrest⟩ := Option.bind_eq_some_iff.mp hfile
    have hmid : takeFiles ({} : Options).inputFile (inputs groups) = some mid := hmid
    obtain ⟨o, ho, rfl⟩ := runGroups_input.mpr ⟨hgroups, hmid⟩
    obtain ⟨last, hlast, rfl⟩ := parseRest_input.mpr hrest
    refine ⟨last, ?_, rfl⟩
    rw [ho]
    show (parseArguments _ o).bind _ = _
    rw [hlast]
    exact if_neg hne

/-- **A command line with one file is accepted**, if the values of its options are. -/
theorem commandLine_accepted {rest : Option (List CString)} (hvalid : ∀ g ∈ groups, g.Valid)
    (hfiles : inputs groups ++ rest.getD [] = [file]) (hne : file ≠ []) :
    ∃ o, parseOptions (commandLine groups rest) = .ok o ∧ o.inputFile = file ∧
      o.outputName = lastValue .output groups ∧
      levelAfter (lastValue .level groups) .O2 = .ok o.optimizationLevel := by
  have htake : takeFiles [] (inputs groups ++ rest.getD []) = some file := by
    rw [hfiles]
    rfl
  obtain ⟨o, ho, hfile⟩ := commandLine_input.mpr ⟨hvalid, htake, hne⟩
  exact ⟨o, ho, hfile, parseOptions_fields ho⟩

/-- **What a successful parse says**: the options are valid, and all positional arguments are empty but the
    last, which is the input file. -/
theorem parseOptions_input : (∃ o, parseOptions args = .ok o ∧ o.inputFile = file) ↔
    OptionsValid args ∧ file ≠ [] ∧ ∃ n, positionals args = some (List.replicate n [] ++ [file]) := by
  cases hs : splitGroups args with
  -- an option without its value throws before any file is looked at
  | none =>
      refine iff_of_false ?_ ?_
      · rintro ⟨o, ho, _⟩
        obtain ⟨e, he⟩ := splitGroups_none hs {}
        rw [parseOptions, he] at ho
        cases ho
      · rintro ⟨⟨split, hsplit, _⟩, _⟩
        rw [hs] at hsplit
        cases hsplit
  | some split =>
      have hvalid : OptionsValid args ↔ ∀ g ∈ split.1, g.Valid := by
        simp [OptionsValid, hs]
      have hfiles : (∃ n, positionals args = some (List.replicate n [] ++ [file])) ∧ file ≠ [] ↔
          takeFiles [] (inputs split.1 ++ split.2.getD []) = some file ∧ file ≠ [] := by
        rw [takeFiles_iff, positionals, hs, Option.map_some]
        refine and_congr_left (fun hne => ?_)
        constructor
        · rintro ⟨n, hn⟩
          exact ⟨n + 1, by rw [Option.some.inj hn]; rfl⟩
        · rintro ⟨n, hn⟩
          cases n with
          | zero => exact absurd (List.cons_eq_cons.mp hn).1.symm hne
          | succ n =>
              rw [List.replicate_succ, List.cons_append] at hn
              exact ⟨n, congrArg some (List.cons_eq_cons.mp hn).2⟩
      -- both sides in terms of the groups and what follows `--`
      rw [hvalid, and_comm (a := file ≠ []), hfiles, splitGroups_sound hs]
      exact commandLine_input

end Files

/-! ## One input file -/

/-- Two positional arguments are refused, and the one there is becomes the input file. -/
def OneInputFile (args : List CString) : Prop :=
  (∀ files, positionals args = some files → 2 ≤ files.length → ∃ e, parseOptions args = .error e) ∧
    ∀ options, parseOptions args = .ok options → positionals args = some [options.inputFile]

/-- Valid options, and empty positional arguments before the only one that is not empty. -/
def EmptyFilesFirst (args : List CString) : Prop :=
  OptionsValid args ∧ ∃ n file, file ≠ [] ∧
    positionals args = some (List.replicate (n + 1) [] ++ [file])

/-- **When one input file is accepted and no other number**: unless empty ones come before it. -/
theorem one_input_file_iff (args : List CString) : OneInputFile args ↔ ¬ EmptyFilesFirst args := by
  constructor
  · rintro ⟨_, hone⟩ ⟨hvalid, n, file, hne, hfiles⟩
    obtain ⟨o, ho, rfl⟩ := parseOptions_input.mpr ⟨hvalid, hne, n + 1, hfiles⟩
    rw [hone o ho] at hfiles
    have := congrArg List.length (Option.some.inj hfiles)
    simp at this
  · intro hno
    have hone : ∀ options, parseOptions args = .ok options →
        positionals args = some [options.inputFile] := by
      intro options ho
      obtain ⟨hvalid, hne, n, hfiles⟩ := parseOptions_input.mp ⟨options, ho, rfl⟩
      cases n with
      | zero => exact hfiles
      | succ n => exact absurd ⟨hvalid, n, _, hne, hfiles⟩ hno
    refine ⟨fun files hfiles hlen => ?_, hone⟩
    cases ho : parseOptions args with
    | error e => exact ⟨e, rfl⟩
    | ok options =>
        rw [hone options ho] at hfiles
        cases hfiles
        simp at hlen

/-- An empty file name, and a second file. -/
theorem two_input_files : ¬ OneInputFile [[], ['p']] := by
  intro h
  obtain ⟨e, he⟩ := h.1 [[], ['p']] rfl (by decide)
  cases he

end ParaCL
