import ParaCL.Parser.Check
import ParaCL.Simulator.Reference

/-!
# `Simulator.Scoping` — one flat table implements block scoping

The interpreter and the reference semantics run in lockstep. `Agrees Γ s t` relates the parser's scopes
at a place of the text, the interpreter's state and the reference's: from every scope outwards the
reference knows the names the parser knows there, no reference scope shadows another, and every value
the reference can see is the one in the flat table. The table may hold more (names of scopes already
left), but only the reference's scopes are ever read.
-/

namespace ParaCL

open Lib

/-- The invariant between the parser's scopes, the flat table and the scoped state. -/
structure Agrees (Γ : Layers Name) (s : SimState) (t : RefState) : Prop where
  covered : Layers.Covered Γ (Tables.keys t.scopes)
  unshadowed : (Tables.keys t.scopes).Unshadowed
  value : ∀ x v, Tables.lookup t.scopes x = some v → s.nametable x = some v
  printed : s.printed = t.printed
  delivered : s.delivered = t.delivered

/-- What is compared where a run stops early. -/
def SamePrinted (s : SimState) (t : RefState) : Prop := s.printed = t.printed

namespace Agrees

variable {Γ Δ : Layers Name} {s : SimState} {t : RefState}

/-- At the beginning both are empty. -/
theorem init : Agrees [[]] .init .init where
  covered := ⟨fun _ hx => hx, trivial⟩
  unshadowed := ⟨fun _ hx => absurd hx List.not_mem_nil, trivial⟩
  value x v h := by simp [RefState.init, Tables.lookup] at h
  printed := rfl
  delivered := rfl

/-- Both states find a name the parser sees, and the same value for it. -/
theorem lookup (h : Agrees Γ s t) {x : Name} (hx : Layers.Visible x Γ) :
    ∃ v, Tables.lookup t.scopes x = some v ∧ s.nametable x = some v := by
  have hv := Tables.lookup_isSome.mpr (h.covered.visible hx)
  obtain ⟨v, hv⟩ := Option.isSome_iff_exists.mp hv
  exact ⟨v, hv, h.value x v hv⟩

/-- A name in scope is one variable on both sides; a new one is declared in the innermost scope. -/
theorem assign (h : Agrees Γ s t) (hne : Γ ≠ []) (x : Name) (v : Number) :
    Agrees (Layers.declare x Γ) (s.store x v) (t.assign x v) where
  covered := by
    show Layers.Covered _ (Tables.keys (Tables.assign x v t.scopes))
    rw [Tables.assign_keys]
    exact h.covered.declare
  unshadowed := by
    show (Tables.keys (Tables.assign x v t.scopes)).Unshadowed
    rw [Tables.assign_keys]
    exact h.unshadowed.declare
  value y w hy := by
    have hscopes : t.scopes ≠ [] := by
      intro he
      have := h.covered.ne_nil hne
      rw [he] at this
      exact this rfl
    show Function.update s.nametable x (some v) y = some w
    have hy : Tables.lookup (Tables.assign x v t.scopes) y = some w := hy
    by_cases hyx : y = x
    · subst hyx
      rw [Tables.assign_lookup_self hscopes] at hy
      rw [Function.update_self, hy]
    · rw [Tables.assign_lookup_ne hyx] at hy
      rw [Function.update_of_ne hyx]
      exact h.value y w hy
  printed := h.printed
  delivered := h.delivered

/-- A new scope has no variable. -/
theorem enter (h : Agrees Γ s t) : Agrees ([] :: Γ) s t.enter where
  covered := h.covered.opened
  unshadowed := h.unshadowed.opened
  value x v hx := h.value x v (by rwa [RefState.enter, Tables.lookup_open] at hx)
  printed := h.printed
  delivered := h.delivered

/-- Leaving a scope changes no value that stays visible, as nothing was shadowed. -/
theorem leave (h : Agrees Γ s t) : Agrees Γ.tail s t.leave where
  covered := by
    show Layers.Covered _ (Tables.keys t.scopes.tail)
    rw [Tables.keys_tail]
    exact h.covered.tail
  unshadowed := by
    show (Tables.keys t.scopes.tail).Unshadowed
    rw [Tables.keys_tail]
    exact h.unshadowed.tail
  value x v hx := by
    have hx : Tables.lookup t.scopes.tail x = some v := hx
    have hvis := Tables.lookup_isSome.mp (Option.isSome_iff_exists.mpr ⟨v, hx⟩)
    rw [Tables.lookup_tail h.unshadowed hvis] at hx
    exact h.value x v hx
  printed := h.printed
  delivered := h.delivered

/-- The invariant may forget what was declared since. -/
theorem anti (h : Agrees Δ s t) (hg : Γ.Grows Δ) : Agrees Γ s t :=
  { h with covered := h.covered.anti hg }

theorem print (h : Agrees Γ s t) (v : Number) : Agrees Γ (s.print v) (t.print v) :=
  { h with printed := by rw [SimState.print, RefState.print, h.printed] }

theorem deliver (h : Agrees Γ s t) : Agrees Γ s.deliver t.deliver :=
  { h with delivered := by rw [SimState.deliver, RefState.deliver, h.delivered] }

end Agrees

/-- The tree has no node that one of the two sides leaves out. -/
def Scoped (kinds : List NodeKind) : Prop :=
  NodeKind.func ∉ kinds ∧ NodeKind.call ∉ kinds ∧ NodeKind.returnStmt ∉ kinds

namespace Scoped

variable {l m : List NodeKind}

/-- Nodes in two parts. -/
theorem append : Scoped (l ++ m) ↔ Scoped l ∧ Scoped m := by
  simp only [Scoped, List.mem_append, not_or]
  tauto

/-- Blocks may stand anywhere. -/
theorem block : Scoped (.blockExpr :: l) ↔ Scoped l := by simp [Scoped]

end Scoped

section Lockstep

variable {E : Env} {fuel : Nat}

/-- An operator acts alike on both sides. -/
theorem applyBinary_related {R : SimState → RefState → Prop} (hR : ∀ s t, R s t → SamePrinted s t)
    {op : BinaryOperators} {a b : Number} :
    Prog.Related R (applyBinary E.ops op a b) (applyBinary E.ops op a b) (fun _ => R) SamePrinted := by
  unfold applyBinary
  cases E.ops.binary op a b with
  | none => exact .raise hR
  | some v => exact .pure (fun _ _ h => h)

theorem applyUnary_related {R : SimState → RefState → Prop} (hR : ∀ s t, R s t → SamePrinted s t)
    {op : UnaryOperators} {a : Number} :
    Prog.Related R (applyUnary E.ops op a) (applyUnary E.ops op a) (fun _ => R) SamePrinted := by
  unfold applyUnary
  cases E.ops.unary op a with
  | none => exact .raise hR
  | some v => exact .pure (fun _ _ h => h)

/-- **A name in scope has the same value**, or none on either side. -/
theorem read_related {x : Name} {Γ : Layers Name} (hx : Layers.Visible x Γ) :
    Prog.Related (Agrees Γ) (visitVariable x) (Reference.read x) (fun _ => Agrees Γ) SamePrinted := by
  intro s t h
  obtain ⟨v, ht, hs⟩ := h.lookup hx
  rw [visitVariable_some hs, Reference.read_some ht]
  exact ⟨rfl, h⟩

/-- Both sides read the same input. -/
theorem input_related {Γ : Layers Name} :
    Prog.Related (Agrees Γ) (visitInput E) (Reference.readInput E) (fun _ => Agrees Γ) SamePrinted := by
  intro s t h
  show E.input s.delivered = E.input t.delivered ∧ _
  exact ⟨by rw [h.delivered], h.deliver⟩

mutual

/-- Expressions act alike on names in scope. -/
theorem evaluator_scoped : ∀ (e : Expression) {Γ Δ : Layers Name}, e.check Γ = some Δ → Γ ≠ [] →
    Scoped e.kinds →
    Prog.Related (Agrees Γ) (ExpressionEvaluator.visit E fuel e) (Reference.evalExpr E fuel e)
      (fun _ => Agrees Δ) SamePrinted
  | .number _, Γ, Δ, h, _, _ => by cases h; exact .pure (fun _ _ h => h)
  | .var x, Γ, Δ, h, _, _ => by
      obtain ⟨hv, rfl⟩ := check_var.mp h
      exact read_related hv
  | .assignmentExpr x e, Γ, Δ, h, hne, hi => by
      obtain ⟨Γ1, h1, rfl⟩ := check_assignmentExpr.mp h
      refine .bind (evaluator_scoped e h1 hne hi) (fun v => ?_)
      refine .bind (.modify (fun s t hs => ?_)) (fun _ => .pure (fun _ _ h => h))
      exact hs.assign (e.check_grows hne h1).ne_nil x v
  | .binaryOperator op a b, Γ, Δ, h, hne, hi => by
      obtain ⟨Γ1, h1, h2⟩ := check_binaryOperator.mp h
      obtain ⟨ha, hb⟩ := Scoped.append.mp hi
      refine .bind (evaluator_scoped a h1 hne ha) (fun _ => ?_)
      refine .bind (evaluator_scoped b h2 (a.check_grows hne h1).ne_nil hb) (fun _ => ?_)
      exact applyBinary_related (fun _ _ h => h.printed)
  | .unaryOperator op e, Γ, Δ, h, hne, hi =>
      .bind (evaluator_scoped e h hne hi) (fun _ => applyUnary_related (fun _ _ h => h.printed))
  | .input, Γ, Δ, h, _, _ => by cases h; exact input_related
  | .blockExpr ss, Γ, Δ, h, _, hi => by
      -- the interpreter has no counterpart of entering and leaving
      obtain ⟨Γ1, h1, rfl⟩ := check_blockExpr.mp h
      have hss := evaluatorStmts_scoped ss 0 h1 (List.cons_ne_nil [] Γ) (Scoped.block.mp hi)
      exact (hss.right_last (fun _ _ _ h => h.leave)).right_first (fun _ _ h => h.enter)
  | .func _ _ _, _, _, _, _, hi => absurd List.mem_cons_self hi.1
  | .call _ _, _, _, _, _, hi => absurd List.mem_cons_self hi.2.1

/-- So do the statements of a block. -/
theorem evaluatorStmts_scoped : ∀ (ss : List Statement) (last : Number) {Γ Δ : Layers Name},
    checkStmts ss Γ = some Δ → Γ ≠ [] → Scoped (kindsOfStmts ss) →
    Prog.Related (Agrees Γ) (ExpressionEvaluator.visitStmts E fuel ss last)
      (Reference.execBlock E fuel ss last) (fun _ => Agrees Δ) SamePrinted
  | [], last, Γ, Δ, h, _, _ => by cases h; exact .pure (fun _ _ h => h)
  | s :: ss, last, Γ, Δ, h, hne, hi => by
      obtain ⟨Γ1, h1, h2⟩ := checkStmts_cons.mp h
      obtain ⟨hs, hss⟩ := Scoped.append.mp hi
      have hne1 := (s.check_grows hne h1).ne_nil
      cases s with
      | exprStmt e =>
          exact .bind (evaluator_scoped e h1 hne hs) (fun v => evaluatorStmts_scoped ss v h2 hne1 hss)
      | _ =>
          exact .bind (simulator_scoped _ h1 hne hs)
            (fun _ => evaluatorStmts_scoped ss last h2 hne1 hss)

/-- So do statements, from one scope to the next. -/
theorem simulator_scoped : ∀ (s : Statement) {Γ Δ : Layers Name}, s.check Γ = some Δ → Γ ≠ [] →
    Scoped s.kinds →
    Prog.Related (Agrees Γ) (Simulator.visit E fuel s) (Reference.exec E fuel s) (fun _ => Agrees Δ)
      SamePrinted
  | .emptyStmt, Γ, Δ, h, _, _ => by cases h; exact .pure (fun _ _ h => h)
  | .exprStmt e, Γ, Δ, h, hne, hi =>
      .bind (evaluator_scoped e h hne hi) (fun _ => .pure (fun _ _ h => h))
  | .ifStmt c t none, Γ, Δ, h, hne, hi => by
      obtain ⟨hb, Γ1, h1, h2⟩ := check_ifStmt.mp h
      obtain ⟨hc, ht⟩ := Scoped.append.mp hi
      obtain rfl := check_block_eq hb h2
      refine .bind (evaluator_scoped c h1 hne hc) (fun v => ?_)
      split
      · exact .bind (evaluator_scoped t h2 (c.check_grows hne h1).ne_nil ht)
          (fun _ => .pure (fun _ _ h => h))
      · exact .pure (fun _ _ h => h)
  | .ifStmt c t (some e), Γ, Δ, h, hne, hi => by
      obtain ⟨⟨hb, hb'⟩, Γ1, Γ2, h1, h2, h3⟩ := check_ifStmt_else.mp h
      obtain ⟨hct, he⟩ := Scoped.append.mp hi
      obtain ⟨hc, ht⟩ := Scoped.append.mp hct
      obtain rfl := check_block_eq hb h2
      obtain rfl := check_block_eq hb' h3
      have hne1 := (c.check_grows hne h1).ne_nil
      refine .bind (evaluator_scoped c h1 hne hc) (fun v => ?_)
      split
      · exact .bind (evaluator_scoped t h2 hne1 ht) (fun _ => .pure (fun _ _ h => h))
      · exact .bind (evaluator_scoped e h3 hne1 he) (fun _ => .pure (fun _ _ h => h))
  | .whileStmt c b, Γ, Δ, h, hne, hi => by
      obtain ⟨hb, Γ1, h1, h2⟩ := check_whileStmt.mp h
      obtain ⟨hc, hbody⟩ := Scoped.append.mp hi
      obtain rfl := check_block_eq hb h2
      have hg := c.check_grows hne h1
      refine Prog.Related.loop (M := fun _ => Agrees Δ) ?_ ?_ (fun _ _ h => h)
        (fun _ _ h => h.printed) fuel
      · exact .bind (evaluator_scoped c h1 hne hc) (fun _ => .pure (fun _ _ h => h))
      · -- the next test starts from the scopes the first one started from
        refine .bind (evaluator_scoped b h2 hg.ne_nil hbody) (fun _ => .pure (fun _ _ hs => ?_))
        exact hs.anti hg
  | .printStmt e, Γ, Δ, h, hne, hi =>
      .bind (evaluator_scoped e h hne hi) (fun v => .modify (fun _ _ hs => hs.print v))
  | .returnStmt none, _, _, _, _, hi => absurd List.mem_cons_self hi.2.2
  | .returnStmt (some _), _, _, _, _, hi => absurd List.mem_cons_self hi.2.2

end

/-- So does a program. -/
theorem visitProgram_scoped (ss : List Statement) {Γ Δ : Layers Name} (h : checkStmts ss Γ = some Δ)
    (hne : Γ ≠ []) (hi : Scoped (kindsOfStmts ss)) :
    Prog.Related (Agrees Γ) (Simulator.visitProgram E fuel ss) (Reference.execProgram E fuel ss)
      (fun _ => Agrees Δ) SamePrinted := by
  induction ss generalizing Γ with
  | nil => cases h; exact .pure (fun _ _ h => h)
  | cons s ss ih =>
      obtain ⟨Γ1, h1, h2⟩ := checkStmts_cons.mp h
      obtain ⟨hs, hss⟩ := Scoped.append.mp hi
      exact .bind (simulator_scoped s h1 hne hs) (fun _ => ih h2 (s.check_grows hne h1).ne_nil hss)

/-- For every loop bound the two runs end the same way, with the same output. -/
theorem run_same {p : Program} (hp : Accepted p) (hi : Scoped p.kinds) :
    (Simulator.run E fuel p).Same SimState.printed RefState.printed (Reference.run E fuel p) := by
  obtain ⟨Γ, h⟩ := accepted_iff.mp hp
  exact (visitProgram_scoped p.stmts h (List.cons_ne_nil _ _) hi).same (fun _ _ _ h => h.printed)
    .init

end Lockstep

/-- **The flat table implements block scoping.** On an accepted program without functions, calls and
    returns, the interpreter finishes, gets stuck or runs forever exactly where the scoped semantics
    does, and prints the same. -/
theorem flat_table_scoping {p : Program} (hp : Accepted p) (hf : NodeKind.func ∉ p.kinds)
    (hc : NodeKind.call ∉ p.kinds) (hr : NodeKind.returnStmt ∉ p.kinds) (E : Env) :
    SameRuns (fun fuel => Simulator.run E fuel p) (fun fuel => Reference.run E fuel p)
      SimState.printed RefState.printed :=
  SameRuns.of_same (fun _ => run_same hp ⟨hf, hc, hr⟩)

/-- `x = 2; while (x) { y = x; x = { y = y - 1; y; }; } { y = 7; print y; }`: the flat table still
    holds the `y` of the loop when the last block declares its own. -/
def siblingBlocks : Program where
  stmts := [
    .exprStmt (.assignmentExpr "x" (.number 2)),
    .whileStmt (.var "x") (.blockExpr [
      .exprStmt (.assignmentExpr "y" (.var "x")),
      .exprStmt (.assignmentExpr "x" (.blockExpr [
        .exprStmt (.assignmentExpr "y" (.binaryOperator .sub (.var "y") (.number 1))),
        .exprStmt (.var "y")]))]),
    .exprStmt (.blockExpr [
      .exprStmt (.assignmentExpr "y" (.number 7)),
      .printStmt (.var "y")])]

/-- A name that two blocks declare one after the other. -/
theorem flat_table_scoping_siblingBlocks :
    SameRuns (fun fuel => Simulator.run ⟨.cpp, fun _ => 0⟩ fuel siblingBlocks)
      (fun fuel => Reference.run ⟨.cpp, fun _ => 0⟩ fuel siblingBlocks)
      SimState.printed RefState.printed :=
  flat_table_scoping (by decide) (by decide) (by decide) (by decide) _

end ParaCL
