import ParaCL.Codegen.Correctness
import ParaCL.Language.Agreement

/-!
# `Codegen.Interpreted` — the two modes of the compiler side by side

What `INTERPRET` mode does and what the module of the other mode does, for programs that both support. The two
differ in the meaning of the operators: where C++ leaves one undefined the instructions still compute something,
and `>=` is a sum in the module. As long as neither comes up the runs are the same (`operators_agree`), and so
by way of `Language.Semantics` are interpreter and module (`compiled_as_interpreted`).
-/

namespace ParaCL

open Lib ParaCL.Language

/-! ## The operators -/

/-- Without `>=`. -/
abbrev Comparable (ops : List BinaryOperators) : Prop := BinaryOperators.greaterEq ∉ ops

/-- Operators in two parts. -/
theorem Comparable.append {l m : List BinaryOperators} : Comparable (l ++ m) ↔ Comparable l ∧ Comparable m := by
  simp only [Comparable, List.mem_append, not_or]

/-- A fault, not the fuel. -/
def IsFault (r : Option Fault) : Prop := r.isSome

section Operators

variable {input : Nat → Number} {fuel : Nat}

/-- Unless the first program faults the second one does the same, and in any case it prints the same. -/
abbrev Defines {α : Type} (m m' : Prog Fault SimState α) : Prop := Prog.Unless IsFault SimState.printed m m'

/-- Where an operator other than `>=` is defined, the generated one computes the same. -/
theorem binary_defines {op : BinaryOperators} (hop : op ≠ .greaterEq) (a b : Number) :
    Defines (applyBinary .cpp op a b) (applyBinary .generated op a b) := by
  unfold applyBinary
  cases h : Interpretation.cpp.binary op a b with
  | none =>
      have hR : IsFault (some (.binary op a b)) := rfl
      refine Prog.Unless.of_raise hR (fun s => ?_)
      cases Interpretation.generated.binary op a b <;> exact List.prefix_refl _
  | some n =>
      have hgen : Interpretation.generated.binary op a b = some n := generatedBinary_of_cpp hop h
      rw [hgen]
      exact .pure n

/-- A unary operator too. -/
theorem unary_defines (op : UnaryOperators) (a : Number) :
    Defines (applyUnary .cpp op a) (applyUnary .generated op a) := by
  unfold applyUnary
  cases h : Interpretation.cpp.unary op a with
  | none =>
      have hR : IsFault (some (.unary op a)) := rfl
      refine Prog.Unless.of_raise hR (fun s => ?_)
      cases Interpretation.generated.unary op a <;> exact List.prefix_refl _
  | some n =>
      have hgen : Interpretation.generated.unary op a = some n := generatedUnary_of_cpp h
      rw [hgen]
      exact .pure n

theorem variable_defines (x : Name) : Defines (visitVariable x) (visitVariable x) :=
  (Prog.Unless.gets _).bind (fun v => by cases v <;> first | exact .raise _ | exact .pure _)

mutual

/-- **Expressions**: what the evaluator comes to, it comes to with the generated operators. -/
theorem evaluator_defines : ∀ e : Expression, Comparable e.operators →
    Defines (ExpressionEvaluator.visit ⟨.cpp, input⟩ fuel e)
      (ExpressionEvaluator.visit ⟨.generated, input⟩ fuel e)
  | .number _, _ | .func _ _ _, _ | .call _ _, _ => by
      rw [ExpressionEvaluator.visit, ExpressionEvaluator.visit]
      exact .pure _
  | .var x, _ => by
      rw [ExpressionEvaluator.visit, ExpressionEvaluator.visit]
      exact variable_defines x
  | .input, _ => by
      rw [ExpressionEvaluator.visit, ExpressionEvaluator.visit]
      exact fun s => .refl (List.prefix_refl _)
  | .assignmentExpr x e, h => by
      rw [ExpressionEvaluator.visit, ExpressionEvaluator.visit]
      refine (evaluator_defines e h).bind (fun v => ?_)
      exact fun s => .refl (List.prefix_refl _)
  | .binaryOperator op a b, h => by
      obtain ⟨hop, hab⟩ := not_or.mp (fun hm => h (List.mem_cons.mpr hm))
      obtain ⟨ha, hb⟩ := Comparable.append.mp hab
      rw [ExpressionEvaluator.visit, ExpressionEvaluator.visit]
      exact (evaluator_defines a ha).bind (fun l => (evaluator_defines b hb).bind
        (fun r => binary_defines (Ne.symm hop) l r))
  | .unaryOperator op e, h => by
      rw [ExpressionEvaluator.visit, ExpressionEvaluator.visit]
      exact (evaluator_defines e h).bind (fun v => unary_defines op v)
  | .blockExpr ss, h => by
      rw [ExpressionEvaluator.visit, ExpressionEvaluator.visit]
      exact evaluatorStmts_defines ss 0 h

/-- The statements of a block. -/
theorem evaluatorStmts_defines : ∀ (ss : List Statement) (last : Number), Comparable (operatorsOfStmts ss) →
    Defines (ExpressionEvaluator.visitStmts ⟨.cpp, input⟩ fuel ss last)
      (ExpressionEvaluator.visitStmts ⟨.generated, input⟩ fuel ss last)
  | [], last, _ => by
      rw [ExpressionEvaluator.visitStmts, ExpressionEvaluator.visitStmts]
      exact .pure _
  | st :: ss, last, h => by
      obtain ⟨hst, hss⟩ := Comparable.append.mp h
      cases st with
      | exprStmt e =>
          rw [ExpressionEvaluator.visitStmts, ExpressionEvaluator.visitStmts]
          exact (evaluator_defines e hst).bind (fun v => evaluatorStmts_defines ss v hss)
      | emptyStmt | ifStmt | whileStmt | printStmt | returnStmt =>
          rw [ExpressionEvaluator.visitStmts, ExpressionEvaluator.visitStmts]
          · exact (simulator_defines _ hst).bind (fun _ => evaluatorStmts_defines ss last hss)
          · intro e he
            cases he
          · intro e he
            cases he

/-- Statements. What is not interpreted comes to nothing in either. -/
theorem simulator_defines : ∀ st : Statement, Comparable st.operators →
    Defines (Simulator.visit ⟨.cpp, input⟩ fuel st) (Simulator.visit ⟨.generated, input⟩ fuel st)
  | .emptyStmt, _ | .returnStmt _, _ => by
      rw [Simulator.visit, Simulator.visit]
      exact .pure _
  | .exprStmt e, h => by
      rw [Simulator.visit, Simulator.visit]
      exact (evaluator_defines e h).bind (fun _ => .pure _)
  | .ifStmt c t none, h => by
      obtain ⟨hc, ht⟩ := Comparable.append.mp h
      rw [Simulator.visit, Simulator.visit]
      refine (evaluator_defines c hc).bind (fun v => ?_)
      split
      · exact (evaluator_defines t ht).bind (fun _ => .pure _)
      · exact .pure _
  | .ifStmt c t (some e), h => by
      obtain ⟨hc, hte⟩ := Comparable.append.mp h
      obtain ⟨ht, he⟩ := Comparable.append.mp hte
      rw [Simulator.visit, Simulator.visit]
      refine (evaluator_defines c hc).bind (fun v => ?_)
      split
      · exact (evaluator_defines t ht).bind (fun _ => .pure _)
      · exact (evaluator_defines e he).bind (fun _ => .pure _)
  | .whileStmt c b, h => by
      obtain ⟨hc, hb⟩ := Comparable.append.mp h
      rw [Simulator.visit, Simulator.visit]
      refine Prog.Unless.loop ?_ ?_ (.inl rfl)
      · exact (evaluator_defines c hc).bind (fun _ => .pure _)
      · exact (evaluator_defines b hb).bind (fun _ => .pure _)
  | .printStmt e, h => by
      rw [Simulator.visit, Simulator.visit]
      refine (evaluator_defines e h).bind (fun n => ?_)
      exact Prog.Unless.modify (f := SimState.print n) (fun s => List.prefix_append _ _)

end

/-- The statements of a program. -/
theorem program_defines : ∀ ss : List Statement, Comparable (operatorsOfStmts ss) →
    Defines (Simulator.visitProgram ⟨.cpp, input⟩ fuel ss) (Simulator.visitProgram ⟨.generated, input⟩ fuel ss)
  | [], _ => by
      rw [Simulator.visitProgram, Simulator.visitProgram]
      exact .pure _
  | st :: ss, h => by
      obtain ⟨hst, hss⟩ := Comparable.append.mp h
      rw [Simulator.visitProgram, Simulator.visitProgram]
      exact (simulator_defines st hst).bind (fun _ => program_defines ss hss)

end Operators

/-! ## Without functions -/

/-- A slot in scope is in the only scope there is. -/
theorem NeverEnters.ownEvents {es : List Event} (h : NeverEnters es) : OwnEvents es := by
  have hlive : ∀ a : List Event, NeverEnters a → (live a).length ≤ 1 := by
    intro a
    induction a using List.reverseRecOn with
    | nil => exact fun _ => Nat.le_refl 1
    | append_singleton a e ih =>
        intro ha
        have hle := ih (fun name ps hm => ha name ps (List.mem_append_left _ hm))
        rw [live_append_singleton]
        cases e with
        | read x => exact hle
        | slot x => exact Layers.length_declare.trans_le hle
        | enter name ps => exact absurd (List.mem_append_right _ (List.mem_singleton.mpr rfl)) (ha name ps)
        | leave =>
            rw [liveAfter, List.length_tail]
            omega
  have hown (Γ : Layers Name) (hΓ : Γ.length ≤ 1) (x : Name) : OwnName x Γ := by
    rintro ⟨l, hl, hx⟩
    cases Γ with
    | nil => cases hl
    | cons l' Γ =>
        have hnil : Γ = [] := List.length_eq_zero_iff.mp (by simpa using hΓ)
        subst hnil
        cases List.mem_singleton.mp hl
        exact ⟨l, rfl, hx⟩
  rintro a e b rfl _
  have hle := hlive a (fun name ps hm => h name ps (List.mem_append_left _ hm))
  cases e with
  | read x => exact hown _ hle x
  | slot x => exact hown _ hle x
  | enter name ps => trivial
  | leave => trivial

variable {M : Llvm} {gf : CodeGenerator} {p : Program} {E : Env} {input : Nat → Number} {fuel : Nat}

/-- The run of the program and that of the interpreter, case by case. -/
theorem agree_cases (hi : Scoped p.kinds) (E : Env) (fuel : Nat) :
    (∃ v s, p.run E fuel = .done v s.world ∧ Simulator.run E fuel p = .done () s) ∨
      (∃ e s, p.run E fuel = .fault (.fault e) s.world ∧ Simulator.run E fuel p = .fault e s) ∨
        ∃ s, p.run E fuel = .timeout s.world ∧ Simulator.run E fuel p = .timeout s := by
  have h := interpreter_agrees hi E fuel
  cases hs : Simulator.run E fuel p with
  | done u s =>
      rw [hs] at h
      cases hr : p.run E fuel <;> rw [hr] at h <;> cases h
      exact .inl ⟨_, s, rfl, rfl⟩
  | fault e s =>
      rw [hs] at h
      cases hr : p.run E fuel <;> rw [hr] at h <;> cases h
      exact .inr (.inl ⟨e, s, rfl, rfl⟩)
  | timeout s =>
      rw [hs] at h
      cases hr : p.run E fuel <;> rw [hr] at h <;> cases h
      exact .inr (.inr ⟨s, rfl, rfl⟩)

/-- The two runs print the same, up to a fault. -/
theorem simulator_outlasts (hge : Comparable p.operators) : Outlasts IsFault SimState.printed .init
    (Simulator.run ⟨.cpp, input⟩ fuel p) (Simulator.run ⟨.generated, input⟩ fuel p) :=
  program_defines p.stmts hge .init

/-- Where the interpreter does not fault the meaning of the operators makes no difference. -/
theorem operators_agree (hge : Comparable p.operators)
    (hsafe : ∀ e s, Simulator.run ⟨.cpp, input⟩ fuel p ≠ .fault e s) :
    Simulator.run ⟨.generated, input⟩ fuel p = Simulator.run ⟨.cpp, input⟩ fuel p := by
  refine (simulator_outlasts hge).same.resolve_left (fun hstop => ?_)
  cases hr : Simulator.run ⟨.cpp, input⟩ fuel p with
  | done u s => rw [hr] at hstop; exact hstop
  | fault e s => exact hsafe e s hr
  | timeout s => rw [hr] at hstop; cases hstop

/-- One bound: the program, with the operators of the module, does what the interpreter does. -/
theorem run_interpreted (hi : Scoped p.kinds) (hge : Comparable p.operators)
    (hsafe : ∀ e s, Simulator.run ⟨.cpp, input⟩ fuel p ≠ .fault e s) :
    (∃ v s, p.run ⟨.generated, input⟩ fuel = .done v s.world ∧
        Simulator.run ⟨.cpp, input⟩ fuel p = .done () s) ∨
      ∃ s, p.run ⟨.generated, input⟩ fuel = .timeout s.world ∧
        Simulator.run ⟨.cpp, input⟩ fuel p = .timeout s := by
  have hops := operators_agree hge hsafe
  rw [← hops] at hsafe ⊢
  rcases agree_cases hi ⟨.generated, input⟩ fuel with hd | ⟨e, s, _, hs⟩ | ht
  · exact .inl hd
  · exact absurd hs (hsafe e s)
  · exact .inr ht

/-- The interpreter comes to no operation without a value. -/
def NeverFaults (p : Program) (input : Nat → Number) : Prop :=
  ∀ fuel e s, Simulator.run ⟨.cpp, input⟩ fuel p ≠ .fault e s

/-- The module ends where the interpreter does, with the same prints, runs on where it does and prints what it
    prints; where the interpreter never faults the module does nothing else. -/
structure RunsAlike (p : Program) (input : Nat → Number) (gf : CodeGenerator) : Prop where
  finishes : ∀ l, Finishes (fun fuel => Simulator.run ⟨.cpp, input⟩ fuel p) (fun _ s => s.printed = l) →
    ∃ c, Ends (step gf ⟨.generated, input⟩) gf.start c (.returned (.int 0)) ∧ c.printed = l
  diverges : Diverges (fun fuel => Simulator.run ⟨.cpp, input⟩ fuel p) →
    Forever (step gf ⟨.generated, input⟩) gf.start
  prints : ∀ l, Logs (fun fuel => Simulator.run ⟨.cpp, input⟩ fuel p) SimState.printed l →
    ∃ n c, StepsN (step gf ⟨.generated, input⟩) n gf.start c ∧ l <+: c.printed
  returns : NeverFaults p input → ∀ c r, Ends (step gf ⟨.generated, input⟩) gf.start c r →
    r = .returned (.int 0) ∧
      Finishes (fun fuel => Simulator.run ⟨.cpp, input⟩ fuel p) (fun _ s => s.printed = c.printed)
  runsOn : NeverFaults p input → Forever (step gf ⟨.generated, input⟩) gf.start →
    Diverges (fun fuel => Simulator.run ⟨.cpp, input⟩ fuel p)
  shows : NeverFaults p input → ∀ n c, StepsN (step gf ⟨.generated, input⟩) n gf.start c →
    Logs (fun fuel => Simulator.run ⟨.cpp, input⟩ fuel p) SimState.printed c.printed

section Alike

variable (hi : Scoped p.kinds) (hge : Comparable p.operators)
include hi hge

/-- What the simulator prints to its end is what the program prints with the generated operators. -/
theorem exits_of_finishes {l : List Number}
    (hf : Finishes (fun fuel => Simulator.run ⟨.cpp, input⟩ fuel p) (fun _ s => s.printed = l)) :
    p.Exits ⟨.generated, input⟩ 0 l := by
  obtain ⟨fuel, u, s, hs, rfl⟩ := hf
  have hs' : Simulator.run ⟨.cpp, input⟩ fuel p = .done u s := hs
  have hsafe (e : Fault) (s1 : SimState) : Simulator.run ⟨.cpp, input⟩ fuel p ≠ .fault e s1 := by
    rw [hs']
    exact fun he => by cases he
  rcases run_interpreted hi hge hsafe with ⟨v, s1, hr, hs1⟩ | ⟨s1, _, hs1⟩
  · cases hs'.symm.trans hs1
    exact .inl ⟨fuel, v, _, hr, rfl, rfl⟩
  · cases hs'.symm.trans hs1

/-- Where the simulator runs on, so does the program. -/
theorem diverges_of_diverges (hd : Diverges (fun fuel => Simulator.run ⟨.cpp, input⟩ fuel p)) :
    Diverges (fun fuel => p.run ⟨.generated, input⟩ fuel) := by
  intro fuel
  have ht : (Simulator.run ⟨.cpp, input⟩ fuel p).IsTimeout := hd fuel
  rcases run_interpreted hi hge (fun e s he => by rw [he] at ht; exact ht) with ⟨v, s, _, hs⟩ | ⟨s, hr, _⟩
  · rw [hs] at ht
    exact ht.elim
  · show (p.run ⟨.generated, input⟩ fuel).IsTimeout
    rw [hr]
    trivial

/-- What it has printed along the way is the same. -/
theorem logs_of_logs {l : List Number}
    (hl : Logs (fun fuel => Simulator.run ⟨.cpp, input⟩ fuel p) SimState.printed l) :
    Logs (fun fuel => p.run ⟨.generated, input⟩ fuel) World.printed l := by
  obtain ⟨fuel, hl⟩ := hl
  refine ⟨fuel, hl.trans ((simulator_outlasts hge).logs.trans ?_)⟩
  show (Simulator.run ⟨.generated, input⟩ fuel p).state.printed <+:
    (p.run ⟨.generated, input⟩ fuel).state.printed
  rcases agree_cases hi ⟨.generated, input⟩ fuel with ⟨v, s, hr, hs⟩ | ⟨e, s, hr, hs⟩ | ⟨s, hr, hs⟩
  all_goals rw [hr, hs]; exact List.prefix_refl _

variable (hsafe : NeverFaults p input)
include hsafe

/-- **Where the simulator does not fault, the program does not go wrong.** -/
theorem not_goesWrong : ¬ p.GoesWrong ⟨.generated, input⟩ := by
  rintro ⟨fuel, _, w, hrun, f, rfl⟩
  have hrun' : p.run ⟨.generated, input⟩ fuel = _ := hrun
  rcases run_interpreted hi hge (hsafe fuel) with ⟨v, s, hr, _⟩ | ⟨s, hr, _⟩ <;> cases hrun'.symm.trans hr

/-- So an end of the program is one of the simulator. -/
theorem finishes_of_exits {n : Number} {l : List Number} (hx : p.Exits ⟨.generated, input⟩ n l) :
    n = 0 ∧ Finishes (fun fuel => Simulator.run ⟨.cpp, input⟩ fuel p) (fun _ s => s.printed = l) := by
  rcases hx with ⟨fuel, v, w, hrun, rfl, rfl⟩ | ⟨fuel, e, w, hrun, rfl, rfl⟩
  all_goals
    have hrun' : p.run ⟨.generated, input⟩ fuel = _ := hrun
    rcases run_interpreted hi hge (hsafe fuel) with ⟨v', s, hr, hs⟩ | ⟨s, hr, _⟩ <;> cases hrun'.symm.trans hr
  exact ⟨rfl, fuel, (), s, hs, rfl⟩

/-- The one runs on exactly if the other does. -/
theorem diverges_iff : Diverges (fun fuel => p.run ⟨.generated, input⟩ fuel) ↔
    Diverges (fun fuel => Simulator.run ⟨.cpp, input⟩ fuel p) := by
  refine forall_congr' (fun fuel => ?_)
  show (p.run ⟨.generated, input⟩ fuel).IsTimeout ↔ (Simulator.run ⟨.cpp, input⟩ fuel p).IsTimeout
  rcases run_interpreted hi hge (hsafe fuel) with ⟨v, s, hr, hs⟩ | ⟨s, hr, hs⟩
  all_goals rw [hr, hs]; exact .rfl

/-- Both have printed the same at some time or other. -/
theorem logs_iff (l : List Number) : Logs (fun fuel => p.run ⟨.generated, input⟩ fuel) World.printed l ↔
    Logs (fun fuel => Simulator.run ⟨.cpp, input⟩ fuel p) SimState.printed l := by
  refine exists_congr (fun fuel => ?_)
  show l <+: (p.run ⟨.generated, input⟩ fuel).state.printed ↔
    l <+: (Simulator.run ⟨.cpp, input⟩ fuel p).state.printed
  rcases run_interpreted hi hge (hsafe fuel) with ⟨v, s, hr, hs⟩ | ⟨s, hr, hs⟩
  all_goals rw [hr, hs]; exact .rfl

end Alike

/-- **The module runs like the simulator.** -/
theorem Implements.alike (h : Implements p ⟨.generated, input⟩ gf ⟨.generated, input⟩) (hi : Scoped p.kinds)
    (hge : Comparable p.operators) : RunsAlike p input gf where
  finishes l hf := h.exits 0 l (exits_of_finishes hi hge hf)
  diverges hd := h.diverges (diverges_of_diverges hi hge hd)
  prints l hl := h.prints l (logs_of_logs hi hge hl)
  returns hsafe c r hends := by
    obtain ⟨n, rfl, hx⟩ := h.returns (not_goesWrong hi hge hsafe) c r hends
    obtain ⟨rfl, hf⟩ := finishes_of_exits hi hge hsafe hx
    exact ⟨rfl, hf⟩
  runsOn hsafe hf := (diverges_iff hi hge hsafe).mp (h.runsOn (not_goesWrong hi hge hsafe) hf)
  shows hsafe n c hsteps :=
    (logs_iff hi hge hsafe c.printed).mp (h.shows (not_goesWrong hi hge hsafe) n c hsteps)

section Interpreter

/-- **Both modes run a program alike.** For an accepted program without functions, calls, `return` and `>=` in
    which blocks come to a value where one is used, whatever integers the input holds. -/
theorem compiled_as_interpreted (hp : Accepted p) (hi : Scoped p.kinds) (hk : p.WellKinded)
    (hge : Comparable p.operators) (hs : M.Sound) (hn : M.Numbers) (input : Nat → Number) :
    ∃ gf, CodeGenerator.visitProgram M .source p = .ok gf ∧ RunsAlike p input gf := by
  have hnever := neverEnters_stmts p.stmts hi.1
  obtain ⟨gf, hv, himpl⟩ := module_implements hp hk hnever.paramsFresh hnever.ownEvents hs hn
  exact ⟨gf, hv, Implements.alike (himpl input) hi hge⟩

/-- `x = ?; y = 0; while (x > 0) { y = y + { print x; x; }; x = x - 1; } print y;` -/
def summing : Program where
  stmts := [
    .exprStmt (.assignmentExpr "x" .input),
    .exprStmt (.assignmentExpr "y" (.number 0)),
    .whileStmt (.binaryOperator .greater (.var "x") (.number 0)) (.blockExpr [
      .exprStmt (.assignmentExpr "y" (.binaryOperator .add (.var "y")
        (.blockExpr [.printStmt (.var "x"), .exprStmt (.var "x")]))),
      .exprStmt (.assignmentExpr "x" (.binaryOperator .sub (.var "x") (.number 1)))]),
    .printStmt (.var "y")]

/-- The example has one kind for each name. -/
theorem summing_wellKinded : summing.WellKinded := by
  let σ : Signature := ⟨fun _ => .number, summing.function⟩
  have hx : σ.Variable "x" := ⟨by decide, by decide, not_anonymous (by decide)⟩
  have hy : σ.Variable "y" := ⟨by decide, by decide, not_anonymous (by decide)⟩
  have kx : Kinded σ (.var "x") (.value .number) := .var hx
  have ky : Kinded σ (.var "y") (.value .number) := .var hy
  -- the inner block comes to `x`, the outer one to what is left of it
  have kinner : Kinded σ (.blockExpr [.printStmt (.var "x"), .exprStmt (.var "x")]) (.value .number) :=
    .block (.cons (.print kx) (.cons (.expr kx) .nil))
  exact ⟨σ.vars, _, .cons (.expr (.assignment hx .input)) (.cons (.expr (.assignment hy .number))
    (.cons (.whileLoop (.binary kx .number) (.block (.cons (.expr (.assignment hy (.binary ky kinner)))
      (.cons (.expr (.assignment hx (.binary kx .number))) .nil)))) (.cons (.print ky) .nil)))⟩

/-- It compiles, to a module that runs like the simulator. -/
theorem compiled_as_interpreted_summing :
    ∃ gf, CodeGenerator.visitProgram .standard .source summing = .ok gf ∧ RunsAlike summing (fun _ => 3) gf :=
  compiled_as_interpreted (by decide) ⟨by decide, by decide, by decide⟩ summing_wellKinded
    (by decide) Llvm.standard_sound
    Llvm.standard_numbers _

end Interpreter

end ParaCL
