import ParaCL.Parser.Check
import ParaCL.Simulator.Evaluator

/-!
# `Simulator.Safety` — no accepted program reads an unknown variable

The invariant is `Knows Γ`: every name visible in the parser's scopes `Γ` is in the name table. It is
stated for the scopes the parser had at the same place of the text, and each visitor takes `Knows Γ` to
`Knows Δ` where the walk takes `Γ` to `Δ`. The table never shrinks, so scopes the parser has closed in the
meantime, untaken branches and repeated bodies are no obstacle.
-/

namespace ParaCL

open Lib

/-- Every name visible in the scopes is in the name table. -/
def Knows (Γ : Layers Name) (s : SimState) : Prop :=
  ∀ x, Layers.Visible x Γ → (s.nametable x).isSome

/-- The faults that are left. -/
def KnownFault (e : Fault) (_ : SimState) : Prop := ∀ x, e ≠ .unknownVariable x

/-- No visitor of the interpreter is left empty in this tree. -/
def Interpreted (kinds : List NodeKind) : Prop := NodeKind.call ∉ kinds ∧ NodeKind.returnStmt ∉ kinds

namespace Interpreted

variable {l m : List NodeKind}

/-- Nodes in two parts. -/
theorem append : Interpreted (l ++ m) ↔ Interpreted l ∧ Interpreted m := by
  simp only [Interpreted, List.mem_append, not_or]
  exact and_and_and_comm

/-- A block is interpreted. -/
theorem block : Interpreted (.blockExpr :: l) ↔ Interpreted l := by simp [Interpreted]

end Interpreted

namespace Knows

variable {Γ Δ : Layers Name} {s : SimState}

/-- Who knows more names knows fewer. -/
theorem anti (h : ∀ x, Layers.Visible x Γ → Layers.Visible x Δ) (hk : Knows Δ s) : Knows Γ s :=
  fun x hx => hk x (h x hx)

/-- A scope that is closed asks for no name any more. -/
theorem tail (hk : Knows Γ s) : Knows Γ.tail s := hk.anti (fun _ => Layers.visible_of_tail)

/-- Storing a name makes it known, and forgets none. -/
theorem store {x : Name} {v : Number} (hk : Knows Γ s) : Knows (Layers.declare x Γ) (s.store x v) := by
  intro y hy
  by_cases hyx : y = x
  · subst hyx; simp [SimState.store]
  · have hne : Γ ≠ [] := by
      rintro rfl
      exact Layers.not_visible_nil hy
    have hv := ((Layers.visible_declare hne).mp hy).resolve_left hyx
    simpa [SimState.store, Function.update_of_ne hyx] using hk y hv

end Knows

section Visitors

variable {E : Env} {fuel : Nat}

/-- An operator may be undefined, but it reads no variable. -/
theorem applyBinary_holds {P : SimState → Prop} {op : BinaryOperators} {a b : Number} :
    Prog.Holds P (applyBinary E.ops op a b) (fun _ => P) KnownFault := by
  unfold applyBinary
  cases E.ops.binary op a b with
  | none => exact .raise (fun _ _ _ => nofun)
  | some v => exact .pure (fun _ h => h)

theorem applyUnary_holds {P : SimState → Prop} {op : UnaryOperators} {a : Number} :
    Prog.Holds P (applyUnary E.ops op a) (fun _ => P) KnownFault := by
  unfold applyUnary
  cases E.ops.unary op a with
  | none => exact .raise (fun _ _ _ => nofun)
  | some v => exact .pure (fun _ h => h)

/-- A visible name is found. -/
theorem visitVariable_holds {x : Name} {Γ : Layers Name} (hx : Layers.Visible x Γ) :
    Prog.Holds (Knows Γ) (visitVariable x) (fun _ => Knows Γ) KnownFault := by
  intro s hs
  obtain ⟨v, hv⟩ := Option.isSome_iff_exists.mp (hs x hx)
  rw [visitVariable_some hv]
  exact hs

mutual

/-- **An expression that passes the check reads only variables that have a value**, and what it declares has
    one after it. -/
theorem evaluator_knows : ∀ (e : Expression) {Γ Δ : Layers Name}, e.check Γ = some Δ → Γ ≠ [] →
    Interpreted e.kinds →
    Prog.Holds (Knows Γ) (ExpressionEvaluator.visit E fuel e) (fun _ => Knows Δ) KnownFault
  | .number _, Γ, Δ, h, _, _ => by cases h; exact .pure (fun _ h => h)
  | .var x, Γ, Δ, h, _, _ => by
      obtain ⟨hv, rfl⟩ := check_var.mp h
      exact visitVariable_holds hv
  | .assignmentExpr x e, Γ, Δ, h, hne, hi => by
      obtain ⟨Γ1, h1, rfl⟩ := check_assignmentExpr.mp h
      refine .bind (evaluator_knows e h1 hne hi) (fun v => ?_)
      exact .bind (.modify (fun s hs => hs.store)) (fun _ => .pure (fun _ h => h))
  | .binaryOperator op a b, Γ, Δ, h, hne, hi => by
      obtain ⟨Γ1, h1, h2⟩ := check_binaryOperator.mp h
      obtain ⟨ha, hb⟩ := Interpreted.append.mp hi
      refine .bind (evaluator_knows a h1 hne ha) (fun _ => ?_)
      refine .bind (evaluator_knows b h2 (a.check_grows hne h1).ne_nil hb) (fun _ => ?_)
      exact applyBinary_holds
  | .unaryOperator op e, Γ, Δ, h, hne, hi =>
      .bind (evaluator_knows e h hne hi) (fun _ => applyUnary_holds)
  | .input, Γ, Δ, h, _, _ => by cases h; exact fun s hs => hs
  | .blockExpr ss, Γ, Δ, h, _, hi => by
      obtain ⟨Γ1, h1, rfl⟩ := check_blockExpr.mp h
      refine .weaken (evaluatorStmts_knows ss 0 h1 (List.cons_ne_nil [] Γ) (Interpreted.block.mp hi))
        (fun s hs => ?_) (fun _ _ hs => hs.tail)
      exact hs.anti (fun _ => Layers.visible_open.mp)
  | .func f ps body, Γ, Δ, h, hne, _ => by
      -- nothing is evaluated, and the parser's scopes are back to where they were
      cases body with
      | blockExpr ss =>
          obtain ⟨Γ1, h1, rfl⟩ := check_func.mp h
          have hf := grows_funcScope f ps Γ
          rw [(hf.trans (checkStmts_grows ss hf.ne_nil h1)).tail]
          exact .pure (fun _ h => h)
      | _ => cases h
  | .call _ _, _, _, _, _, hi => absurd (List.mem_cons_self) hi.1

/-- So do the statements of a block. -/
theorem evaluatorStmts_knows : ∀ (ss : List Statement) (last : Number) {Γ Δ : Layers Name},
    checkStmts ss Γ = some Δ → Γ ≠ [] → Interpreted (kindsOfStmts ss) →
    Prog.Holds (Knows Γ) (ExpressionEvaluator.visitStmts E fuel ss last) (fun _ => Knows Δ) KnownFault
  | [], last, Γ, Δ, h, _, _ => by cases h; exact .pure (fun _ h => h)
  | s :: ss, last, Γ, Δ, h, hne, hi => by
      obtain ⟨Γ1, h1, h2⟩ := checkStmts_cons.mp h
      obtain ⟨hs, hss⟩ := Interpreted.append.mp hi
      have hne1 := (s.check_grows hne h1).ne_nil
      cases s with
      | exprStmt e =>
          exact .bind (evaluator_knows e h1 hne hs) (fun v => evaluatorStmts_knows ss v h2 hne1 hss)
      | _ =>
          exact .bind (simulator_knows _ h1 hne hs) (fun _ => evaluatorStmts_knows ss last h2 hne1 hss)

/-- So do statements: what a branch or a body declares is not in scope behind it. -/
theorem simulator_knows : ∀ (s : Statement) {Γ Δ : Layers Name}, s.check Γ = some Δ → Γ ≠ [] →
    Interpreted s.kinds →
    Prog.Holds (Knows Γ) (Simulator.visit E fuel s) (fun _ => Knows Δ) KnownFault
  | .emptyStmt, Γ, Δ, h, _, _ => by cases h; exact .pure (fun _ h => h)
  | .exprStmt e, Γ, Δ, h, hne, hi =>
      .bind (evaluator_knows e h hne hi) (fun _ => .pure (fun _ h => h))
  | .ifStmt c t none, Γ, Δ, h, hne, hi => by
      obtain ⟨hb, Γ1, h1, h2⟩ := check_ifStmt.mp h
      obtain ⟨hc, ht⟩ := Interpreted.append.mp hi
      obtain rfl := check_block_eq hb h2
      refine .bind (evaluator_knows c h1 hne hc) (fun v => ?_)
      split
      · exact .bind (evaluator_knows t h2 (c.check_grows hne h1).ne_nil ht)
          (fun _ => .pure (fun _ h => h))
      · exact .pure (fun _ h => h)
  | .ifStmt c t (some e), Γ, Δ, h, hne, hi => by
      obtain ⟨⟨hb, hb'⟩, Γ1, Γ2, h1, h2, h3⟩ := check_ifStmt_else.mp h
      obtain ⟨hct, he⟩ := Interpreted.append.mp hi
      obtain ⟨hc, ht⟩ := Interpreted.append.mp hct
      obtain rfl := check_block_eq hb h2
      obtain rfl := check_block_eq hb' h3
      have hne1 := (c.check_grows hne h1).ne_nil
      refine .bind (evaluator_knows c h1 hne hc) (fun v => ?_)
      split
      · exact .bind (evaluator_knows t h2 hne1 ht) (fun _ => .pure (fun _ h => h))
      · exact .bind (evaluator_knows e h3 hne1 he) (fun _ => .pure (fun _ h => h))
  | .whileStmt c b, Γ, Δ, h, hne, hi => by
      obtain ⟨hb, Γ1, h1, h2⟩ := check_whileStmt.mp h
      obtain ⟨hc, hbody⟩ := Interpreted.append.mp hi
      obtain rfl := check_block_eq hb h2
      have hg := c.check_grows hne h1
      refine Prog.Holds.loop (M := fun _ => Knows Δ) ?_ ?_ (fun _ h => h) fuel
      · exact .bind (evaluator_knows c h1 hne hc) (fun _ => .pure (fun _ h => h))
      · -- the next test starts from the scopes the first one started from
        refine .bind (evaluator_knows b h2 hg.ne_nil hbody) (fun _ => .pure (fun _ hs => ?_))
        exact hs.anti (fun _ => hg.visible)
  | .printStmt e, Γ, Δ, h, hne, hi =>
      .bind (evaluator_knows e h hne hi) (fun _ => .modify (fun _ hs => hs))
  | .returnStmt none, Γ, Δ, h, _, _ => by cases h; exact .pure (fun _ h => h)
  | .returnStmt (some _), _, _, _, _, hi => absurd (List.mem_cons_self) hi.2

end

/-- So does a program. -/
theorem visitProgram_knows (ss : List Statement) {Γ Δ : Layers Name} (h : checkStmts ss Γ = some Δ)
    (hne : Γ ≠ []) (hi : Interpreted (kindsOfStmts ss)) :
    Prog.Holds (Knows Γ) (Simulator.visitProgram E fuel ss) (fun _ => Knows Δ) KnownFault := by
  induction ss generalizing Γ with
  | nil => cases h; exact .pure (fun _ h => h)
  | cons s ss ih =>
      obtain ⟨Γ1, h1, h2⟩ := checkStmts_cons.mp h
      obtain ⟨hs, hss⟩ := Interpreted.append.mp hi
      exact .bind (simulator_knows s h1 hne hs) (fun _ => ih h2 (s.check_grows hne h1).ne_nil hss)

end Visitors

/-- A run of an accepted program without calls and returns stops with no other fault. -/
theorem run_knownFault {p : Program} (hp : Accepted p) (hc : NodeKind.call ∉ p.kinds)
    (hr : NodeKind.returnStmt ∉ p.kinds) {E : Env} {fuel : Nat} {f : Fault} {s : SimState}
    (hrun : Simulator.run E fuel p = .fault f s) : KnownFault f s := by
  obtain ⟨Γ, h⟩ := accepted_iff.mp hp
  have hk : Knows [[]] SimState.init := by
    intro x hx
    simp at hx
  have hh : Prog.Holds (Knows [[]]) (Simulator.visitProgram E fuel p.stmts) _ KnownFault :=
    visitProgram_knows p.stmts h (List.cons_ne_nil _ _) ⟨hc, hr⟩
  have hend := hh _ hk
  rwa [show Simulator.visitProgram E fuel p.stmts .init = _ from hrun] at hend

/-- **Declared before use.** Whatever `?` delivers and however often the loops run, the interpreter
    never throws `Unknown variable` on an accepted program without calls and returns. -/
theorem no_unknown_variable {p : Program} (hp : Accepted p) (hc : NodeKind.call ∉ p.kinds)
    (hr : NodeKind.returnStmt ∉ p.kinds) (E : Env) (fuel : Nat) (x : Name) (s : SimState) :
    Simulator.run E fuel p ≠ .fault (.unknownVariable x) s :=
  fun hrun => run_knownFault hp hc hr hrun x rfl

/-- `x = ?; while (x) { y = x; print y; x = x - 1; }` -/
def countdown : Program where
  stmts := [
    .exprStmt (.assignmentExpr "x" .input),
    .whileStmt (.var "x") (.blockExpr [
      .exprStmt (.assignmentExpr "y" (.var "x")),
      .printStmt (.var "y"),
      .exprStmt (.assignmentExpr "x" (.binaryOperator .sub (.var "x") (.number 1)))])]

/-- The variable that a loop body declares is known where the body prints it. -/
theorem no_unknown_variable_countdown :
    Simulator.run ⟨.cpp, fun _ => 2⟩ 3 countdown ≠ .fault (.unknownVariable "y") .init :=
  no_unknown_variable (by decide) (by decide) (by decide) _ _ _ _

end ParaCL
