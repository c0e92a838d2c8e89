import ParaCL.Ast.Renaming
import ParaCL.Parser.Check
import ParaCL.Parser.Layout

/-!
# `Parser.Renaming` — the parser does not care about names

The walk of `Parser.Check` compares names and does nothing else with them, so it goes through a program with
other names as it goes through the program (`Program.check_rename`), and accepts the one if it accepts the
other.
-/

namespace ParaCL

open Lib

/-! ## Layers with other names -/

/-- The layers with other names. -/
def renameLayers (τ : Name → Name) (Γ : Layers Name) : Layers Name := Γ.map (List.map τ)

section Layers

variable {τ : Name → Name} {Γ : Layers Name} {x : Name} (hτ : Function.Injective τ)

theorem renameLayers_tail : List.tail ∘ renameLayers τ = renameLayers τ ∘ List.tail :=
  funext (fun Γ => by cases Γ <;> rfl)

include hτ

theorem visible_renameLayers : Layers.Visible (τ x) (renameLayers τ Γ) ↔ Layers.Visible x Γ := by
  induction Γ with
  | nil => simp [renameLayers]
  | cons l ls ih =>
      show Layers.Visible (τ x) (l.map τ :: renameLayers τ ls) ↔ _
      rw [Layers.visible_cons, Layers.visible_cons, ih, List.mem_map_of_injective hτ]

theorem declare_renameLayers :
    Layers.declare (τ x) (renameLayers τ Γ) = renameLayers τ (Layers.declare x Γ) := by
  have hvis := visible_renameLayers (Γ := Γ) (x := x) hτ
  by_cases h : Layers.Visible x Γ
  · rw [Layers.declare_of_visible h, Layers.declare_of_visible (hvis.mpr h)]
  · cases Γ with
    | nil => simp [Layers.declare, renameLayers]
    | cons l ls =>
        have h' : ¬ Layers.Visible (τ x) (l.map τ :: renameLayers τ ls) := fun hx => h (hvis.mp hx)
        show Layers.declare (τ x) (l.map τ :: renameLayers τ ls) = _
        rw [Layers.declare_cons_of_not_visible h, Layers.declare_cons_of_not_visible h']
        rfl

theorem declares_renameLayers (xs : List Name) :
    (xs.map τ).foldl (fun Γ x => Layers.declare x Γ) (renameLayers τ Γ) =
      renameLayers τ (xs.foldl (fun Γ x => Layers.declare x Γ) Γ) := by
  induction xs generalizing Γ with
  | nil => rfl
  | cons x xs ih =>
      rw [List.map_cons, List.foldl_cons, List.foldl_cons, declare_renameLayers hτ]
      exact ih

theorem funcScope_renameLayers (f : Option Name) (ps : List Name) :
    funcScope (f.map τ) (ps.map τ) (renameLayers τ Γ) = renameLayers τ (funcScope f ps Γ) := by
  have hps := declares_renameLayers (Γ := [] :: Γ) hτ ps
  unfold funcScope
  cases f with
  | none => exact hps
  | some x =>
      refine (congrArg (Layers.declare (τ x)) hps).trans ?_
      exact declare_renameLayers hτ

end Layers

/-! ## The walk -/

theorem isBlock_rename {τ : Name → Name} (e : Expression) : (e.rename τ).isBlock = e.isBlock := by
  cases e <;> rfl

theorem bind_map_eq {α : Type} {o : Option α} {f g : α → Option α} {r : α → α}
    (h : ∀ a, g (r a) = (f a).map r) : (o.map r).bind g = (o.bind f).map r := by
  cases o with
  | none => rfl
  | some a => exact h a

section Walk

variable {τ : Name → Name}

mutual

/-- The walk goes through the renamed tree as through the tree. -/
theorem Expression.check_rename (hτ : Function.Injective τ) : ∀ (e : Expression) (Γ : Layers Name),
    (e.rename τ).check (renameLayers τ Γ) = (e.check Γ).map (renameLayers τ)
  | .number _, _ | .input, _ => rfl
  | .var x, Γ => by
      have hvis := visible_renameLayers (Γ := Γ) (x := x) hτ
      by_cases h : Layers.Visible x Γ
      · simp only [Expression.rename, Expression.check, if_pos h, if_pos (hvis.mpr h), Option.map_some]
      · simp only [Expression.rename, Expression.check, if_neg h, if_neg (mt hvis.mp h), Option.map_none]
  | .assignmentExpr x e, Γ => by
      simp only [Expression.rename, Expression.check, e.check_rename hτ, Option.map_map]
      cases e.check Γ with
      | none => rfl
      | some Δ => exact congrArg some (declare_renameLayers hτ)
  | .binaryOperator _ a b, Γ => by
      simp only [Expression.rename, Expression.check, a.check_rename hτ]
      exact bind_map_eq (b.check_rename hτ)
  | .unaryOperator _ e, Γ => e.check_rename hτ Γ
  | .blockExpr ss, Γ => by
      have hss := checkStmts_rename hτ ss ([] :: Γ)
      simp only [Expression.rename, Expression.check]
      show (checkStmts (renameStmts τ ss) (renameLayers τ ([] :: Γ))).map List.tail = _
      rw [hss, Option.map_map, Option.map_map, renameLayers_tail]
  | .func f ps (.blockExpr ss), Γ => by
      have hss := checkStmts_rename hτ ss (funcScope f ps Γ)
      simp only [Expression.rename, Expression.check]
      rw [funcScope_renameLayers hτ, hss, Option.map_map, Option.map_map, renameLayers_tail]
  | .func _ _ (.number _), _ | .func _ _ (.var _), _ | .func _ _ (.assignmentExpr _ _), _
  | .func _ _ (.binaryOperator _ _ _), _ | .func _ _ (.unaryOperator _ _), _ | .func _ _ .input, _
  | .func _ _ (.func _ _ _), _ | .func _ _ (.call _ _), _ => rfl
  | .call t es, Γ => by
      simp only [Expression.rename, Expression.check, t.check_rename hτ]
      exact bind_map_eq (checkArgs_rename hτ es)

theorem Statement.check_rename (hτ : Function.Injective τ) : ∀ (s : Statement) (Γ : Layers Name),
    (s.rename τ).check (renameLayers τ Γ) = (s.check Γ).map (renameLayers τ)
  | .emptyStmt, _ | .returnStmt none, _ => rfl
  | .exprStmt e, Γ | .printStmt e, Γ | .returnStmt (some e), Γ => e.check_rename hτ Γ
  | .ifStmt c t none, Γ => by
      simp only [Statement.rename, Statement.check, isBlock_rename, c.check_rename hτ]
      split
      · exact bind_map_eq (t.check_rename hτ)
      · rfl
  | .ifStmt c t (some e), Γ => by
      simp only [Statement.rename, Statement.check, isBlock_rename, c.check_rename hτ]
      split
      · rw [bind_map_eq (t.check_rename hτ)]
        exact bind_map_eq (e.check_rename hτ)
      · rfl
  | .whileStmt c b, Γ => by
      simp only [Statement.rename, Statement.check, isBlock_rename, c.check_rename hτ]
      split
      · exact bind_map_eq (b.check_rename hτ)
      · rfl

theorem checkStmts_rename (hτ : Function.Injective τ) : ∀ (ss : List Statement) (Γ : Layers Name),
    checkStmts (renameStmts τ ss) (renameLayers τ Γ) = (checkStmts ss Γ).map (renameLayers τ)
  | [], _ => rfl
  | s :: ss, Γ => by
      simp only [renameStmts, checkStmts, s.check_rename hτ]
      exact bind_map_eq (checkStmts_rename hτ ss)

theorem checkArgs_rename (hτ : Function.Injective τ) : ∀ (es : List Expression) (Γ : Layers Name),
    checkArgs (renameArgs τ es) (renameLayers τ Γ) = (checkArgs es Γ).map (renameLayers τ)
  | [], _ => rfl
  | e :: es, Γ => by
      simp only [renameArgs, checkArgs, e.check_rename hτ]
      exact bind_map_eq (checkArgs_rename hτ es)

end

theorem Program.check_rename (hτ : Function.Injective τ) (p : Program) :
    (p.rename τ).check = p.check.map (renameLayers τ) :=
  checkStmts_rename hτ p.stmts [[]]

end Walk

/-- Other names for the identifiers of a program: different ones for different identifiers, and again
    identifiers that are no keywords. -/
structure Program.Renaming (p : Program) (ρ : Name → Name) : Prop where
  injective : Set.InjOn ρ {x | x ∈ p.identifiers}
  identifiers : ∀ x ∈ p.identifiers, (Token.tokId (ρ x)).writable

/-- **A program stays accepted under other names**, as long as different identifiers stay different. -/
theorem accepted_rename {p : Program} {ρ : Name → Name} (hρ : Set.InjOn ρ {x | x ∈ p.identifiers})
    (h : Accepted p) : Accepted (p.rename ρ) := by
  obtain ⟨τ, hτ, hagree⟩ := exists_injective hρ
  obtain ⟨Γ, hΓ⟩ := accepted_iff.mp h
  have hp : p.rename ρ = p.rename τ := congrArg Program.mk (renameStmts_congr p.stmts hagree)
  refine accepted_iff.mpr ⟨renameLayers τ Γ, ?_⟩
  rw [hp, Program.check_rename hτ, hΓ]
  rfl

end ParaCL
