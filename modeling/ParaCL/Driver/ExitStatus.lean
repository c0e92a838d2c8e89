import ParaCL.Codegen.Interpreted
import ParaCL.Driver.Driver

/-!
# `Driver.ExitStatus` — how the compiler ends, and what it leaves behind

The default build exits on every command line (`compiler_exits`), unless nothing is defined of what the
generator or LLVM does, and for the reasons in `Refused` only it exits with 1 (`compiler_refuses`). What it
leaves behind does what the text says (`source_compiled`, `builds_agree`).
-/

namespace ParaCL

open Lib ParaCL.Language

variable {B : Build} {M : Llvm} {describe : List Terminal → Terminal → String} {S : Surroundings} {fuel : Nat}
  {text : List Char} {c : Parse Lexer} {result : ParseResult Escape} {p : Program} {s s' : List Output}
  {options : Options} {args : List CString} {paths : CompilePaths}

/-! ## Exit status -/

/-- The default build. -/
def Build.default : Build := ⟨false, false⟩

/-- From some number of steps and tests on, `main` exits with this. -/
def ExitsWith (B : Build) (M : Llvm) (describe : List Terminal → Terminal → String) (S : Surroundings)
    (args : List CString) (status : Nat) (err : String) (out : List Output) : Prop :=
  ∃ k, ∀ fuel, k ≤ fuel → main B M describe S fuel args = .done (status, err) out

/-- There is one way to exit. -/
theorem ExitsWith.unique {status status' : Nat} {err err' : String} {out out' : List Output}
    (h : ExitsWith B M describe S args status err out) (h' : ExitsWith B M describe S args status' err' out') :
    status = status' ∧ err = err' ∧ out = out' := by
  obtain ⟨k, hk⟩ := h
  obtain ⟨k', hk'⟩ := h'
  have heq := (hk (max k k') (Nat.le_max_left k k')).symm.trans (hk' (max k k') (Nat.le_max_right k k'))
  cases heq
  exact ⟨rfl, rfl, rfl⟩

/-- From some number of steps and tests on, nothing is defined of what the process does. -/
def NoPromise (M : Llvm) (describe : List Terminal → Terminal → String) (S : Surroundings)
    (args : List CString) : Prop :=
  ∃ k, ∀ fuel, k ≤ fuel → main .default M describe S fuel args = .fault () []

theorem NoPromise.no_exit (h : NoPromise M describe S args) {status : Nat} {err : String} {out : List Output} :
    ¬ ExitsWith .default M describe S args status err out := by
  rintro ⟨k', hk'⟩
  obtain ⟨k, hk⟩ := h
  have heq := (hk (max k k') (Nat.le_max_left k k')).symm.trans (hk' (max k k') (Nat.le_max_right k k'))
  cases heq

/-- What is built is accepted. -/
theorem Builds.accepted {n : Nat} (h : Builds describe text n p) : Accepted p ∧ GoesOn describe text n := by
  obtain ⟨c, w, hends, herrors, hw⟩ := h
  have hgo : GoesOn describe text n := ⟨c, hends, herrors⟩
  obtain ⟨q, ⟨c', w', hends', _, hw'⟩, hq, _⟩ := builds_of_goesOn hgo
  obtain ⟨rfl, _⟩ := hends.unique hends'
  rw [hw] at hw'
  simp only [List.cons.injEq, SemanticValue.of.injEq, heq_eq_eq, true_and, and_true] at hw'
  have hstmts : p.stmts = q.stmts := List.map_injective_iff.mpr (fun _ _ => Option.some.inj) hw'.2
  have hpq : p = q := congrArg Program.mk hstmts
  exact ⟨hpq ▸ hq, hgo⟩

/-- The options are accepted, and the program file holds the text of the program. -/
structure Built (describe : List Terminal → Terminal → String) (S : Surroundings) (args : List CString)
    (options : Options) (p : Program) : Prop where
  parses : parseOptions args = .ok options
  text : ∃ text, S.files options.inputFile = .text text ∧ Builds describe text S.endLeng p

theorem Built.accepted (h : Built describe S args options p) : Accepted p := by
  obtain ⟨text, _, hb⟩ := h.text
  exact hb.accepted.1

/-- The default build, from the end of the parser on. -/
def afterParser (M : Llvm) (S : Surroundings) (options : Options) (c : Parse Lexer)
    (result : ParseResult Escape) : Drive Unit := do
  let root ← parsed options.inputFile c result
  let _ ← dump .default S root
  compileRoot M S options root

/-- The parser comes to an end, so `main` comes to what is after it. -/
theorem main_parsed (hoptions : parseOptions args = .ok options) (htext : S.files options.inputFile = .text text)
    (hends : Ends (parseStep yylex describe) (parseStart text S.endLeng) c result) :
    ∃ k, ∀ fuel, k ≤ fuel →
      main .default M describe S fuel args = conclude (afterParser M S options c result []) := by
  obtain ⟨k, hk⟩ := ends_iff_runToEnd.mp hends
  exact ⟨k, fun fuel hle => congrArg conclude (driver_parsed hoptions htext (runToEnd_mono hle hk))⟩

theorem main_built (h : Built describe S args options p) :
    ∃ k, ∀ fuel, k ≤ fuel →
      main .default M describe S fuel args = conclude (compileRoot M S options p []) := by
  obtain ⟨text, htext, hb⟩ := h.text
  obtain ⟨c, hends, herrors, hroot⟩ := builds_iff.mp hb
  obtain ⟨k, hk⟩ := main_parsed (M := M) h.parses htext hends
  refine ⟨k, fun fuel hle => (hk fuel hle).trans ?_⟩
  rw [afterParser, Prog.bind_done (parsed_done.mpr ⟨rfl, herrors, hroot, rfl⟩)]
  rfl

/-- What is built, from what is done with the tree. -/
theorem Built.exits (h : Built describe S args options p) {status : Nat} {err : String} {out : List Output}
    (hroot : conclude (compileRoot M S options p []) = .done (status, err) out) :
    ExitsWith .default M describe S args status err out := by
  obtain ⟨k, hk⟩ := main_built (M := M) h
  exact ⟨k, fun fuel hle => (hk fuel hle).trans hroot⟩

/-! ## What can be compiled -/

/-- What can be compiled: one input file, a text that builds a program of which it is defined what becomes of it
    and in which no parameter clashes, a directory for the output, and a file for the module. -/
def Compilable (describe : List Terminal → Terminal → String) (S : Surroundings) (args : List CString) : Prop :=
  ∃ options p paths, Built describe S args options p ∧ compilePaths S options.outputName = .ok paths ∧
    Defined S options p ∧ ParamsFresh p.events ∧ S.irFile paths.ll = .ok ()

/-- It is not defined what becomes of the program. -/
def Unspecified (describe : List Terminal → Terminal → String) (S : Surroundings) (args : List CString) : Prop :=
  ∃ options p paths, Built describe S args options p ∧ compilePaths S options.outputName = .ok paths ∧
    ¬ Defined S options p

theorem driver_compiles (hb : Built describe S args options p)
    (hpaths : compilePaths S options.outputName = .ok paths) (hd : Defined S options p)
    (hir : S.irFile paths.ll = .ok ()) {gf : CodeGenerator}
    (hv : CodeGenerator.visitProgram M .source p = .ok gf) :
    ExitsWith .default M describe S args 0 "" (compiled options paths gf) := by
  refine hb.exits ?_
  rw [compileRoot_compile hpaths hd hv, compile_written hir]
  rfl

theorem Compilable.exits (h : Compilable describe S args) :
    ∃ options p paths gf, Built describe S args options p ∧ compilePaths S options.outputName = .ok paths ∧
      CodeGenerator.visitProgram M .source p = .ok gf ∧
      ExitsWith .default M describe S args 0 "" (compiled options paths gf) := by
  obtain ⟨options, p, paths, hb, hpaths, hd, hfresh, hir⟩ := h
  obtain ⟨gf, hv⟩ := (visitProgram_ok_iff (M := M) (L := .source) hb.accepted).mpr hfresh
  exact ⟨options, p, paths, gf, hb, hpaths, hv, driver_compiles hb hpaths hd hir hv⟩

theorem Unspecified.no_promise (h : Unspecified describe S args) : NoPromise M describe S args := by
  obtain ⟨options, p, paths, hb, hpaths, hd⟩ := h
  obtain ⟨k, hk⟩ := main_built (M := M) hb
  refine ⟨k, fun fuel hle => (hk fuel hle).trans ?_⟩
  rw [compileRoot_undefined hpaths hd]
  rfl

/-- The reads of the program file go bad. -/
def Unreadable (S : Surroundings) (args : List CString) : Prop :=
  ∃ options, parseOptions args = .ok options ∧ S.files options.inputFile = .unreadable

theorem Unreadable.exits (h : Unreadable S args) : ExitsWith .default M describe S args 2 scannerReport [] := by
  obtain ⟨options, hoptions, hfile⟩ := h
  refine ⟨0, fun fuel _ => ?_⟩
  rw [main, driver, hoptions]
  show conclude ((readProgram S options.inputFile >>= _) []) = _
  rw [readProgram, hfile]
  rfl

/-! ## Why nothing is compiled -/

/-- The generator refuses an accepted program for parameters that clash only. -/
theorem generator_error {t : Thrown} (hp : Accepted p) (h : CodeGenerator.visitProgram M .source p = .error t) :
    ∃ x, t.error = .alreadyDeclared x := by
  have hn := CodeGenerator.visitProgram_names (M := M) (L := .source) p
  rw [h] at hn
  obtain ⟨_, _, _, _, _, _, hstep⟩ := NameView.run_error hn.symm
  rcases step_error hstep with ⟨x, hx⟩ | ⟨x, _, _, hx, _⟩
  · exact absurd hx ((program_resolved hp).of_error hn.symm x)
  · exact ⟨x, hx⟩

/-- What `std::cerr` gets, and what has been done, where the compiler exits with 1: the options, the file, a
    literal out of range that the parser comes to, errors it has collected, the current directory, the one of the
    output, a parameter that clashes, or the file of the module. -/
inductive Refused (describe : List Terminal → Terminal → String) (S : Surroundings) (args : List CString) :
    String → List Output → Prop where
  | option {e : OptionError} (h : parseOptions args = .error e) :
      Refused describe S args (Exception.option e).report []
  | noProgramFile {options : Options} (hoptions : parseOptions args = .ok options)
      (h : S.files options.inputFile = .absent) : Refused describe S args Exception.noProgramFile.report []
  | literal {options : Options} {text : List Char} {c : Parse Lexer} {p : Piece}
      (hoptions : parseOptions args = .ok options) (htext : S.files options.inputFile = .text text)
      (hstar : Star (parseStep yylex describe) (parseStart text S.endLeng) c) (hasks : Asks c)
      (hp : LiteralNext c.lexer p) (h : intMax < decimal p.lexeme) :
      Refused describe S args (Exception.parser .outOfRange).report []
  | parseFailed {options : Options} {text : List Char} {c : Parse Lexer} {result : ParseResult Escape}
      (hoptions : parseOptions args = .ok options) (htext : S.files options.inputFile = .text text)
      (hends : Ends (parseStep yylex describe) (parseStart text S.endLeng) c result)
      (hno : ∀ e, result ≠ .escape e) (h : c.state.errors ≠ []) :
      Refused describe S args Exception.parseFailed.report
        [.failed ("FAILED: " ++ printErrors options.inputFile c.state.errors)]
  | currentPath {options : Options} {p : Program} {what : String} (hb : Built describe S args options p)
      (h : baseDir S options.outputName = .error what) :
      Refused describe S args (Exception.fileSystem what).report []
  | directory {options : Options} {p : Program} {dir : CString} {what : String}
      (hb : Built describe S args options p) (hdir : baseDir S options.outputName = .ok dir)
      (hname : options.outputName.isSome) (h : S.createDirectories dir = .error what) :
      Refused describe S args (Exception.fileSystem what).report []
  | clash {options : Options} {p : Program} {paths : CompilePaths} {x : Name}
      (hb : Built describe S args options p) (hpaths : compilePaths S options.outputName = .ok paths)
      (hd : Defined S options p) (h : ¬ ParamsFresh p.events) :
      Refused describe S args (Exception.generator (.alreadyDeclared x)).report []
  | irFile {options : Options} {p : Program} {paths : CompilePaths} {message : String}
      (hb : Built describe S args options p) (hpaths : compilePaths S options.outputName = .ok paths)
      (hd : Defined S options p) (hfresh : ParamsFresh p.events) (h : S.irFile paths.ll = .error message) :
      Refused describe S args (irReport message) [.ran (clangCommand paths)]

theorem compileRoot_clash (hp : Accepted p) (hpaths : compilePaths S options.outputName = .ok paths)
    (hd : Defined S options p) (h : ¬ ParamsFresh p.events) (x : Name) :
    conclude (compileRoot M S options p s) = .done (1, (Exception.generator (.alreadyDeclared x)).report) s := by
  cases hv : CodeGenerator.visitProgram M .source p with
  | ok gf => exact absurd ((visitProgram_ok_iff hp).mp ⟨gf, hv⟩) h
  | error t =>
      obtain ⟨y, hy⟩ := generator_error hp hv
      rw [compileRoot_throws hpaths hd hv, hy]
      -- the message does not name the parameter
      rfl

theorem conclude_failed (hno : ∀ e, result ≠ .escape e) (herrors : c.state.hasErrors = true) :
    conclude (afterParser M S options c result []) = .done (1, Exception.parseFailed.report)
      [.failed ("FAILED: " ++ printErrors options.inputFile c.state.errors)] := by
  rw [afterParser, Prog.bind_fault (parsed_failed hno herrors)]
  rfl

/-- Each of the reasons is one. -/
theorem Refused.exits {err : String} {out : List Output} (h : Refused describe S args err out) :
    ExitsWith .default M describe S args 1 err out := by
  cases h with
  | option hoptions =>
      refine ⟨0, fun fuel _ => ?_⟩
      rw [main, driver, hoptions]
      rfl
  | noProgramFile hoptions hfile =>
      refine ⟨0, fun fuel _ => ?_⟩
      rw [main, driver, hoptions]
      show conclude ((readProgram S _ >>= _) []) = _
      rw [readProgram, hfile]
      rfl
  | literal hoptions htext hstar hasks hp hlt =>
      exact main_parsed hoptions htext ⟨hstar, escape_of_literal hasks hp hlt⟩
  | parseFailed hoptions htext hends hno herrors =>
      obtain ⟨k, hk⟩ := main_parsed (M := M) hoptions htext hends
      refine ⟨k, fun fuel hle => (hk fuel hle).trans (conclude_failed hno ?_)⟩
      exact eq_true_of_ne_false (fun hclean => herrors (clean_iff.mp hclean))
  | currentPath hb hwhat =>
      exact hb.exits (congrArg conclude (compileRoot_error (compilePaths_error.mpr (.inl hwhat))))
  | directory hb hdir hname hwhat =>
      exact hb.exits (congrArg conclude
        (compileRoot_error (compilePaths_error.mpr (.inr ⟨_, hdir, hname, hwhat⟩))))
  | clash hb hpaths hd hfresh => exact hb.exits (compileRoot_clash hb.accepted hpaths hd hfresh _)
  | irFile hb hpaths hd hfresh hmessage =>
      obtain ⟨gf, hv⟩ := (visitProgram_ok_iff (M := M) (L := .source) hb.accepted).mpr hfresh
      refine hb.exits ?_
      rw [compileRoot_compile hpaths hd hv, compile_failed hmessage]
      rfl

/-- LLVM may have been given a command for the shell, and nobody else. -/
theorem Refused.command {err : String} {out : List Output} (h : Refused describe S args err out) :
    ((∃ e : Exception, err = e.report) ∧ ∀ command, .ran command ∉ out) ∨
      ∃ message paths, err = irReport message ∧ S.irFile paths.ll = .error message ∧
        out = [.ran (clangCommand paths)] := by
  cases h with
  | irFile _ _ _ _ hmessage => exact .inr ⟨_, _, rfl, hmessage, rfl⟩
  | parseFailed =>
      refine .inl ⟨⟨_, rfl⟩, fun command hc => ?_⟩
      cases List.mem_singleton.mp hc
  | option | noProgramFile | literal | currentPath | directory | clash =>
      exact .inl ⟨⟨_, rfl⟩, fun command hc => by cases hc⟩

/-- After the parser. -/
theorem Built.outcome (hb : Built describe S args options p) :
    Compilable describe S args ∨ Unspecified describe S args ∨ ∃ err out, Refused describe S args err out := by
  cases hpaths : compilePaths S options.outputName with
  | error what =>
      rcases compilePaths_error.mp hpaths with hbase | ⟨dir, hdir, hname, hwhat⟩
      · exact .inr (.inr ⟨_, _, .currentPath hb hbase⟩)
      · exact .inr (.inr ⟨_, _, .directory hb hdir hname hwhat⟩)
  | ok paths =>
      by_cases hd : Defined S options p
      · by_cases hfresh : ParamsFresh p.events
        · cases hir : S.irFile paths.ll with
          | ok u => exact .inl ⟨options, p, paths, hb, hpaths, hd, hfresh, hir⟩
          | error message => exact .inr (.inr ⟨_, _, .irFile hb hpaths hd hfresh hir⟩)
        · exact .inr (.inr ⟨_, _, .clash (x := "") hb hpaths hd hfresh⟩)
      · exact .inr (.inl ⟨options, p, paths, hb, hpaths, hd⟩)

/-- **What there is on a command line.** -/
theorem command_line (describe : List Terminal → Terminal → String) (S : Surroundings) (args : List CString) :
    Compilable describe S args ∨ Unspecified describe S args ∨ Unreadable S args ∨
      ∃ err out, Refused describe S args err out := by
  cases hoptions : parseOptions args with
  | error e => exact .inr (.inr (.inr ⟨_, _, .option hoptions⟩))
  | ok options =>
      cases hfile : S.files options.inputFile with
      | absent => exact .inr (.inr (.inr ⟨_, _, .noProgramFile hoptions hfile⟩))
      | unreadable => exact .inr (.inr (.inl ⟨options, hoptions, hfile⟩))
      | text text =>
          obtain ⟨c, result, hends⟩ :
              ∃ c result, Ends (parseStep yylex describe) (parseStart text S.endLeng) c result :=
            parse_ends text S.endLeng
          have hfailed (hno : ∀ e, result ≠ .escape e) (herrors : c.state.errors ≠ []) :
              ∃ err out, Refused describe S args err out :=
            ⟨_, _, .parseFailed hoptions hfile hends hno herrors⟩
          cases result with
          | escape e =>
              obtain ⟨rfl, hasks, p, hp, hlt⟩ := literal_of_escape hends
              exact .inr (.inr (.inr ⟨_, _, .literal hoptions hfile hends.1 hasks hp hlt⟩))
          | abort =>
              -- `unknown error` is not reached
              exact .inr (.inr (.inr (hfailed (fun e he => by cases he) (errors_of_abort hends))))
          | accept =>
              cases herrors : c.state.hasErrors with
              | true =>
                  refine .inr (.inr (.inr (hfailed (fun e he => by cases he) (fun hnil => ?_))))
                  rw [clean_iff.mpr hnil] at herrors
                  cases herrors
              | false =>
                  obtain ⟨p, hb, _⟩ := builds_of_goesOn ⟨c, hends, herrors⟩
                  have hbuilt : Built describe S args options p := ⟨hoptions, text, hfile, hb⟩
                  rcases hbuilt.outcome with hc | hu | hr
                  · exact .inl hc
                  · exact .inr (.inl hu)
                  · exact .inr (.inr (.inr hr))

/-! ## The interpreter -/

theorem interpret_done {u : Unit} : interpret S fuel p s = .done u s' ↔
    ∃ t, Simulator.run ⟨.cpp, S.input⟩ fuel p = .done () t ∧ s' = s ++ t.printed.map .printed := by
  unfold interpret
  cases Simulator.run ⟨.cpp, S.input⟩ fuel p with
  | done u t => simp [eq_comm]
  | timeout t => simp
  | fault e t => cases e <;> simp

theorem interpret_timeout : (interpret S fuel p s).IsTimeout ↔
    (Simulator.run ⟨.cpp, S.input⟩ fuel p).IsTimeout := by
  unfold interpret
  cases Simulator.run ⟨.cpp, S.input⟩ fuel p with
  | done u t => exact .rfl
  | timeout t => exact .rfl
  | fault e t => cases e <;> exact .rfl

/-- The build with the interpreter. -/
def Build.interpreter : Build := ⟨false, true⟩

/-- With the interpreter `main` waits for the parser, and then for the run. -/
theorem main_interpreter (hoptions : parseOptions args = .ok options)
    (htext : S.files options.inputFile = .text text) (hb : Builds describe text S.endLeng p) (fuel : Nat) :
    main .interpreter M describe S fuel args = .timeout [] ∨
      main .interpreter M describe S fuel args = conclude (interpret S fuel p []) := by
  obtain ⟨c, hends, herrors, hroot⟩ := builds_iff.mp hb
  cases hparse : runToEnd (parseStep yylex describe) fuel (parseStart text S.endLeng) with
  | none =>
      left
      rw [main, driver, hoptions]
      show conclude ((readProgram S options.inputFile >>= _) []) = _
      rw [Prog.bind_done (readProgram_done.mpr ⟨htext, rfl⟩), Prog.bind_timeout (by rw [parse, hparse])]
      rfl
  | some r =>
      obtain ⟨c', result⟩ := r
      obtain ⟨rfl, rfl⟩ := hends.unique (ends_iff_runToEnd.mpr ⟨fuel, hparse⟩)
      right
      rw [main, driver_parsed hoptions htext hparse,
        Prog.bind_done (parsed_done.mpr ⟨rfl, herrors, hroot, rfl⟩)]
      rfl

theorem conclude_interpret {err : String} (h : conclude (interpret S fuel p s) = .done (0, err) s') :
    interpret S fuel p s = .done () s' := by
  unfold interpret at h ⊢
  cases hrun : Simulator.run ⟨.cpp, S.input⟩ fuel p with
  | done u t =>
      rw [hrun] at h
      cases h
      rfl
  | timeout t =>
      rw [hrun] at h
      cases h
  | fault e t =>
      rw [hrun] at h
      cases e <;> cases h

/-- The interpreter has interpreted what the parser built. -/
theorem finishes_of_main {l : List Number} (hoptions : parseOptions args = .ok options)
    (htext : S.files options.inputFile = .text text) (hb : Builds describe text S.endLeng p) {err : String}
    (h : main .interpreter M describe S fuel args = .done (0, err) (l.map .printed)) :
    Finishes (fun fuel => Simulator.run ⟨.cpp, S.input⟩ fuel p) (fun _ s => s.printed = l) := by
  rcases main_interpreter (M := M) hoptions htext hb fuel with htime | hmain
  · rw [htime] at h
    cases h
  · rw [hmain] at h
    obtain ⟨t, ht, hprinted⟩ := interpret_done.mp (conclude_interpret h)
    refine ⟨fuel, (), t, ht, ?_⟩
    exact (List.map_injective_iff.mpr (fun m n hmn => by cases hmn; rfl) hprinted).symm

/-- More tests do not bring a run to an end that more do not. -/
theorem interpreter_timeout {m n : Nat} (hi : Scoped p.kinds) (E : Env) (hmn : m ≤ n)
    (h : (Simulator.run E n p).IsTimeout) : (Simulator.run E m p).IsTimeout := by
  have hagree (k : Nat) : (p.run E k).IsTimeout ↔ (Simulator.run E k p).IsTimeout := by
    rcases agree_cases hi E k with ⟨v, s, hr, hs⟩ | ⟨e, s, hr, hs⟩ | ⟨s, hr, hs⟩
    all_goals rw [hr, hs]; exact .rfl
  rw [← hagree] at h ⊢
  rcases (run_extends hmn).same with hstop | hsame
  · exact Outcome.stopped_outOfFuel.mp hstop
  · exact hsame ▸ h

theorem diverges_of_main (hi : Scoped p.kinds) (hoptions : parseOptions args = .ok options)
    (htext : S.files options.inputFile = .text text) (hb : Builds describe text S.endLeng p)
    (h : ∀ fuel, (main .interpreter M describe S fuel args).IsTimeout) :
    Diverges (fun fuel => Simulator.run ⟨.cpp, S.input⟩ fuel p) := by
  obtain ⟨c, hends, herrors, hroot⟩ := builds_iff.mp hb
  obtain ⟨k, hk⟩ := ends_iff_runToEnd.mp hends
  intro fuel
  have hmain := h (max k fuel)
  have hdriver : driver .interpreter M describe S (max k fuel) args [] = interpret S (max k fuel) p [] := by
    rw [driver_parsed hoptions htext (runToEnd_mono (Nat.le_max_left k fuel) hk),
      Prog.bind_done (parsed_done.mpr ⟨rfl, herrors, hroot, rfl⟩)]
    rfl
  suffices htime : (interpret S (max k fuel) p []).IsTimeout from
    interpreter_timeout hi _ (Nat.le_max_right k fuel) (interpret_timeout.mp htime)
  rw [main, hdriver] at hmain
  cases hrun : interpret S (max k fuel) p [] with
  | timeout t => trivial
  | done u t => rw [hrun] at hmain; exact hmain
  | fault e t => rw [hrun] at hmain; cases e <;> exact hmain

theorem builds_of_printed {n : Nat} (hp : Accepted p) (hs : stmtsShaped p.stmts = true)
    (hw : Writable (tokensOfStmts p.stmts)) (ht : PrintedAs p text) : Builds describe text n p := by
  obtain ⟨c, w, hends, hst, herrors⟩ := parses_printed describe n hs hw ht
  exact ⟨c, w, hends, herrors.mpr hp, hst⟩


section ExitStatus

/-- **The exit status of the compiler.** The default build exits on every command line and whatever the files
    hold, unless the program is one of which it is not defined what the generator or LLVM does with it: with 0 if
    there is something to compile, and then the module of the program in the file has been written and `clang`
    called; with 1 and a message otherwise, and nothing has been asked of the shell before unless it is LLVM that
    could not write the module; and with 2 if the scanner cannot read the program file. -/
theorem compiler_exits (M : Llvm) (describe : List Terminal → Terminal → String) (S : Surroundings)
    (args : List CString) :
    (Unspecified describe S args ∧ NoPromise M describe S args) ∨
      ∃ status err out, ExitsWith .default M describe S args status err out ∧
        ((status = 0 ∧ Compilable describe S args ∧ err = "" ∧
            ∃ options p paths gf, Built describe S args options p ∧
              compilePaths S options.outputName = .ok paths ∧
              CodeGenerator.visitProgram M .source p = .ok gf ∧ out = compiled options paths gf) ∨
          (status = 1 ∧ ¬ Compilable describe S args ∧
            (((∃ e : Exception, err = e.report) ∧ ∀ command, .ran command ∉ out) ∨
              ∃ message paths, err = irReport message ∧ S.irFile paths.ll = .error message ∧
                out = [.ran (clangCommand paths)])) ∨
          (status = 2 ∧ ¬ Compilable describe S args ∧ Unreadable S args ∧ err = scannerReport ∧ out = [])) := by
  -- what exits with another status has nothing to compile
  have hno {status : Nat} {err : String} {out : List Output}
      (hexits : ExitsWith .default M describe S args status err out) (hne : status ≠ 0) :
      ¬ Compilable describe S args := fun hc => by
    obtain ⟨_, _, _, _, _, _, _, hzero⟩ := hc.exits (M := M)
    exact hne (hexits.unique hzero).1
  rcases command_line describe S args with hc | hu | hread | ⟨err, out, hrefused⟩
  · obtain ⟨options, p, paths, gf, hb, hpaths, hv, hexits⟩ := hc.exits (M := M)
    exact .inr ⟨0, "", _, hexits, .inl ⟨rfl, hc, rfl, options, p, paths, gf, hb, hpaths, hv, rfl⟩⟩
  · exact .inl ⟨hu, hu.no_promise⟩
  · have hexits : ExitsWith .default M describe S args 2 scannerReport [] := hread.exits
    exact .inr ⟨2, _, _, hexits, .inr (.inr ⟨rfl, hno hexits (by decide), hread, rfl, rfl⟩)⟩
  · have hexits := hrefused.exits (M := M)
    exact .inr ⟨1, err, out, hexits, .inr (.inl ⟨rfl, hno hexits Nat.one_ne_zero, hrefused.command⟩)⟩

/-- **Why the compiler fails.** It exits with 1 for the reasons in `Refused` and no others, with their messages:
    it never comes to `unknown error`, and the generator never misses a variable. -/
theorem compiler_refuses (M : Llvm) (describe : List Terminal → Terminal → String) (S : Surroundings)
    (args : List CString) (err : String) (out : List Output) :
    ExitsWith .default M describe S args 1 err out ↔ Refused describe S args err out := by
  constructor
  · intro h
    rcases command_line describe S args with hc | hu | hread | ⟨err', out', hrefused⟩
    · obtain ⟨_, _, _, _, _, _, _, hexits⟩ := hc.exits (M := M)
      exact absurd (h.unique hexits).1 Nat.one_ne_zero
    · exact absurd h hu.no_promise.no_exit
    · exact absurd (h.unique hread.exits).1 (by decide)
    · obtain ⟨_, rfl, rfl⟩ := h.unique hrefused.exits
      exact hrefused
  · exact Refused.exits

/-- **From the text to the module.** Where the file holds the text of a program that is well kinded, whose
    parameters are new, whose functions use no slot of another one and in which no instruction follows a
    terminator, where the paths can be made and the module written, and LLVM comes to an end with it, the
    compiler exits with 0. The module it has written ends each block with the only terminator in it, and does
    what the program does. -/
theorem source_compiled {M : Llvm} {describe : List Terminal → Terminal → String} {S : Surroundings}
    {args : List CString} {options : Options} {text : List Char} {p : Program} {paths : CompilePaths}
    {I : Interpretation} (hoptions : parseOptions args = .ok options)
    (htext : S.files options.inputFile = .text text) (hb : Builds describe text S.endLeng p)
    (hpaths : compilePaths S options.outputName = .ok paths) (hir : S.irFile paths.ll = .ok ())
    (hllvm : S.llvm options.optimizationLevel p = true) (hk : p.WellKinded) (hfresh : ParamsFresh p.events)
    (hown : OwnEvents p.events) (hstraight : p.StraightLine M .source) (hs : M.Sound) (hn : M.Numbers)
    (hbelow : I.Below .generated) (input : Nat → Number) :
    ∃ gf, ExitsWith .default M describe S args 0 "" (compiled options paths gf) ∧
      (∀ b < gf.blockCount, (gf.blocks b).WellTerminated) ∧
      Implements p ⟨I, input⟩ gf ⟨.generated, input⟩ := by
  obtain ⟨gf, hv, himpl⟩ := module_implements hb.accepted.1 hk hfresh hown hs hn
  have hblocks := (CodeGenerator.visitProgram_wellTerminated p hv).mpr hstraight
  have hexits := driver_compiles ⟨hoptions, text, htext, hb⟩ hpaths ⟨hk.sets_first, hllvm⟩ hir hv
  exact ⟨gf, hexits, hblocks, (himpl input).below hbelow⟩

/-- One file, and directories and files that can be made. -/
def fileWith (text : List Char) (input : Nat → Number) : Surroundings where
  files := fun _ => .text text
  cwd := .ok ['/']
  createDirectories := fun _ => .ok ()
  irFile := fun _ => .ok ()
  llvm := fun _ _ => true
  dumpDirectory := .ok ()
  dumpFile := true
  input := input
  address := fun _ => ""
  endLeng := 0

/-- `f`, a file with the program of the test `func_recursive_factorial`. -/
theorem source_compiled_recursiveFactorial : ∃ text, PrintedAs recursiveFactorial text ∧
    ∃ gf, ExitsWith .default .standard (fun _ _ => "") (fileWith text (fun _ => 0)) [['f']] 0 ""
        (compiled ⟨['f'], none, .O2⟩ (makeCompilePaths ['/'] none) gf) ∧
      (∀ b < gf.blockCount, (gf.blocks b).WellTerminated) ∧
      Implements recursiveFactorial ⟨.common, fun _ => 0⟩ gf ⟨.generated, fun _ => 0⟩ := by
  have hp : Accepted recursiveFactorial := by decide
  obtain ⟨text, ht⟩ := exists_printed recursiveFactorial
  refine ⟨text, ht, source_compiled (by decide) rfl
    (builds_of_printed hp (by decide) (by unfold Writable; decide) ht) rfl rfl rfl recursiveFactorial_wellKinded
    ?_ ?_ recursiveFactorial_straightLine Llvm.standard_sound Llvm.standard_numbers
    Interpretation.common_below _⟩
  · exact (run_ok_iff (program_resolved hp)).mp ⟨_, rfl⟩
  · exact (ownEvents_iff hp).mp (by decide)

/-- **The two builds.** Where the file holds the text of a program without functions, calls, `return` and `>=`
    that is well kinded, where the paths can be made and the module written, and LLVM comes to an end with it,
    the compiler exits with 0. If the interpreter exits with 0 on the same file, the module ends with the same
    prints; if the interpreter never exits, the module runs on forever. -/
theorem builds_agree {M : Llvm} {describe : List Terminal → Terminal → String} {S : Surroundings}
    {args : List CString} {options : Options} {text : List Char} {p : Program} {paths : CompilePaths}
    (hoptions : parseOptions args = .ok options) (htext : S.files options.inputFile = .text text)
    (hb : Builds describe text S.endLeng p) (hpaths : compilePaths S options.outputName = .ok paths)
    (hir : S.irFile paths.ll = .ok ()) (hllvm : S.llvm options.optimizationLevel p = true)
    (hi : Scoped p.kinds) (hk : p.WellKinded) (hge : Comparable p.operators) (hs : M.Sound) (hn : M.Numbers) :
    ∃ gf, ExitsWith .default M describe S args 0 "" (compiled options paths gf) ∧
      (∀ l err fuel, main .interpreter M describe S fuel args = .done (0, err) (l.map .printed) →
        ∃ c, Ends (step gf ⟨.generated, S.input⟩) gf.start c (.returned (.int 0)) ∧ c.printed = l) ∧
      ((∀ fuel, (main .interpreter M describe S fuel args).IsTimeout) →
        Forever (step gf ⟨.generated, S.input⟩) gf.start) := by
  have hnever := neverEnters_stmts p.stmts hi.1
  obtain ⟨gf, hv, himpl⟩ := module_implements hb.accepted.1 hk hnever.paramsFresh hnever.ownEvents hs hn
  have halike : RunsAlike p S.input gf := Implements.alike (himpl S.input) hi hge
  have hexits := driver_compiles ⟨hoptions, text, htext, hb⟩ hpaths ⟨hk.sets_first, hllvm⟩ hir hv
  exact ⟨gf, hexits, fun l err fuel hmain => halike.finishes l (finishes_of_main hoptions htext hb hmain),
    fun htime => halike.diverges (diverges_of_main hi hoptions htext hb htime)⟩

theorem builds_agree_summing : ∃ text, PrintedAs summing text ∧
    ∃ gf, ExitsWith .default .standard (fun _ _ => "") (fileWith text (fun _ => 3)) [['f']] 0 ""
        (compiled ⟨['f'], none, .O2⟩ (makeCompilePaths ['/'] none) gf) ∧
      (∀ l err fuel, main .interpreter .standard (fun _ _ => "") (fileWith text (fun _ => 3)) fuel [['f']] =
          .done (0, err) (l.map .printed) →
        ∃ c, Ends (step gf ⟨.generated, fun _ => 3⟩) gf.start c (.returned (.int 0)) ∧ c.printed = l) ∧
      ((∀ fuel, (main .interpreter .standard (fun _ _ => "") (fileWith text (fun _ => 3)) fuel
          [['f']]).IsTimeout) →
        Forever (step gf ⟨.generated, fun _ => 3⟩) gf.start) := by
  obtain ⟨text, ht⟩ := exists_printed summing
  refine ⟨text, ht, builds_agree (by decide) rfl
    (builds_of_printed (by decide) (by decide) (by unfold Writable; decide) ht) rfl rfl rfl ⟨?_, ?_, ?_⟩
    summing_wellKinded (by decide) Llvm.standard_sound Llvm.standard_numbers⟩
  all_goals decide

end ExitStatus

end ParaCL
