import Mathlib.Data.List.Induction
import ParaCL.Parser.Grammar

/-!
# `Parser.Check` — which programs the parser accepts

`Accepted p`: some token sequence parses to `p` with no error recorded. Seen from the tree, acceptance is
one walk in the order of the actions (`Program.check`): it declares a name when its assignment has been
read, demands that a name read is visible, opens a scope for each block and function, and demands blocks
where the grammar does. `accepted_iff` says the two agree; the direction from trees to tokens puts
parentheses around every expression.
-/

namespace ParaCL

open Lib

/-! ## The walk -/

/-- Only a braced block is a `block_expr`. -/
def Expression.isBlock : Expression → Bool
  | .blockExpr _ => true
  | _ => false

/-- `opt_func_name` declares the name it reads. -/
def declareName (name : Option Name) (Γ : Layers Name) : Layers Name :=
  match name with
  | none => Γ
  | some x => Layers.declare x Γ

/-- The scopes inside a function's braces: parameters and name go into a scope of their own. -/
def funcScope (funcName : Option Name) (params : List Name) (Γ : Layers Name) : Layers Name :=
  declareName funcName (params.foldl (fun Γ x => Layers.declare x Γ) ([] :: Γ))

mutual

/-- The scopes after an expression, `none` if it uses an undeclared name or is no parse tree. -/
def Expression.check : Expression → Layers Name → Option (Layers Name)
  | .number _, Γ => some Γ
  | .var name, Γ => if Layers.Visible name Γ then some Γ else none
  | .assignmentExpr name value, Γ => (value.check Γ).map (Layers.declare name)
  | .binaryOperator _ left right, Γ => (left.check Γ).bind right.check
  | .unaryOperator _ operand, Γ => operand.check Γ
  | .input, Γ => some Γ
  | .blockExpr stmts, Γ => (checkStmts stmts ([] :: Γ)).map List.tail
  -- the braces of a function do not open a second scope
  | .func funcName params (.blockExpr stmts), Γ =>
      (checkStmts stmts (funcScope funcName params Γ)).map List.tail
  | .func _ _ _, _ => none
  | .call target args, Γ => (target.check Γ).bind (checkArgs args)

/-- The scopes after a statement. -/
def Statement.check : Statement → Layers Name → Option (Layers Name)
  | .emptyStmt, Γ => some Γ
  | .exprStmt expr, Γ => expr.check Γ
  | .ifStmt condition thenBranch none, Γ =>
      if thenBranch.isBlock then (condition.check Γ).bind thenBranch.check else none
  | .ifStmt condition thenBranch (some elseBranch), Γ =>
      if thenBranch.isBlock ∧ elseBranch.isBlock then
        ((condition.check Γ).bind thenBranch.check).bind elseBranch.check
      else none
  | .whileStmt condition body, Γ =>
      if body.isBlock then (condition.check Γ).bind body.check else none
  | .printStmt value, Γ => value.check Γ
  | .returnStmt none, Γ => some Γ
  | .returnStmt (some value), Γ => value.check Γ

def checkStmts : List Statement → Layers Name → Option (Layers Name)
  | [], Γ => some Γ
  | s :: ss, Γ => (s.check Γ).bind (checkStmts ss)

def checkArgs : List Expression → Layers Name → Option (Layers Name)
  | [], Γ => some Γ
  | e :: es, Γ => (e.check Γ).bind (checkArgs es)

end

/-- The walk from the global scope. -/
def Program.check (p : Program) : Option (Layers Name) := checkStmts p.stmts [[]]

/-! ## Inversion -/

section Inversion

variable {Γ Δ : Layers Name}

attribute [local simp] Expression.check Statement.check checkStmts checkArgs Option.bind_eq_some_iff

theorem check_var {x : Name} :
    (Expression.var x).check Γ = some Δ ↔ Layers.Visible x Γ ∧ Δ = Γ := by
  by_cases h : Layers.Visible x Γ <;> simp [h, eq_comm]

theorem check_assignmentExpr {x : Name} {e : Expression} :
    (Expression.assignmentExpr x e).check Γ = some Δ ↔
      ∃ Γ1, e.check Γ = some Γ1 ∧ Layers.declare x Γ1 = Δ := by
  simp

theorem check_binaryOperator {op : BinaryOperators} {a b : Expression} :
    (Expression.binaryOperator op a b).check Γ = some Δ ↔
      ∃ Γ1, a.check Γ = some Γ1 ∧ b.check Γ1 = some Δ := by
  simp

theorem check_call {t : Expression} {es : List Expression} :
    (Expression.call t es).check Γ = some Δ ↔
      ∃ Γ1, t.check Γ = some Γ1 ∧ checkArgs es Γ1 = some Δ := by
  simp

theorem check_blockExpr {ss : List Statement} :
    (Expression.blockExpr ss).check Γ = some Δ ↔
      ∃ Γ1, checkStmts ss ([] :: Γ) = some Γ1 ∧ Γ1.tail = Δ := by
  simp

theorem check_func {f : Option Name} {ps : List Name} {ss : List Statement} :
    (Expression.func f ps (.blockExpr ss)).check Γ = some Δ ↔
      ∃ Γ1, checkStmts ss (funcScope f ps Γ) = some Γ1 ∧ Γ1.tail = Δ := by
  simp

theorem check_ifStmt {c t : Expression} :
    (Statement.ifStmt c t none).check Γ = some Δ ↔
      t.isBlock ∧ ∃ Γ1, c.check Γ = some Γ1 ∧ t.check Γ1 = some Δ := by
  by_cases h : t.isBlock
  · simp [h]
  · simp [h]

theorem check_ifStmt_else {c t e : Expression} :
    (Statement.ifStmt c t (some e)).check Γ = some Δ ↔
      (t.isBlock ∧ e.isBlock) ∧
        ∃ Γ1 Γ2, c.check Γ = some Γ1 ∧ t.check Γ1 = some Γ2 ∧ e.check Γ2 = some Δ := by
  by_cases h : t.isBlock ∧ e.isBlock
  · rw [Statement.check, if_pos h, Option.bind_eq_some_iff]
    simp only [h, and_self, true_and, Option.bind_eq_some_iff]
    constructor
    · rintro ⟨Γ2, ⟨Γ1, h1, h2⟩, h3⟩; exact ⟨Γ1, Γ2, h1, h2, h3⟩
    · rintro ⟨Γ1, Γ2, h1, h2, h3⟩; exact ⟨Γ2, ⟨Γ1, h1, h2⟩, h3⟩
  · rw [Statement.check, if_neg h]
    simp [h]

theorem check_whileStmt {c b : Expression} :
    (Statement.whileStmt c b).check Γ = some Δ ↔
      b.isBlock ∧ ∃ Γ1, c.check Γ = some Γ1 ∧ b.check Γ1 = some Δ := by
  by_cases h : b.isBlock
  · simp [h]
  · simp [h]

theorem checkStmts_cons {s : Statement} {ss : List Statement} :
    checkStmts (s :: ss) Γ = some Δ ↔ ∃ Γ1, s.check Γ = some Γ1 ∧ checkStmts ss Γ1 = some Δ := by
  simp

theorem checkArgs_cons {e : Expression} {es : List Expression} :
    checkArgs (e :: es) Γ = some Δ ↔ ∃ Γ1, e.check Γ = some Γ1 ∧ checkArgs es Γ1 = some Δ := by
  simp

theorem checkStmts_append {ss ts : List Statement} :
    checkStmts (ss ++ ts) Γ = (checkStmts ss Γ).bind (checkStmts ts) := by
  induction ss generalizing Γ with
  | nil => simp
  | cons s ss ih =>
      simp only [List.cons_append, checkStmts, Option.bind_assoc]
      exact Option.bind_congr (fun _ _ => ih)

theorem checkArgs_append {es fs : List Expression} :
    checkArgs (es ++ fs) Γ = (checkArgs es Γ).bind (checkArgs fs) := by
  induction es generalizing Γ with
  | nil => simp
  | cons e es ih =>
      simp only [List.cons_append, checkArgs, Option.bind_assoc]
      exact Option.bind_congr (fun _ _ => ih)

theorem checkStmts_snoc {ss : List Statement} {s : Statement} {Θ : Layers Name}
    (h1 : checkStmts ss Γ = some Θ) (h2 : s.check Θ = some Δ) :
    checkStmts (ss ++ [s]) Γ = some Δ := by
  simp [checkStmts_append, h1, h2]

theorem checkArgs_snoc {l : List Expression} {e : Expression} {Θ : Layers Name}
    (h1 : checkArgs l Γ = some Θ) (h2 : e.check Θ = some Δ) : checkArgs (l ++ [e]) Γ = some Δ := by
  simp [checkArgs_append, h1, h2]

end Inversion

/-! ## What the walk does to the scopes

Whatever is read, only the innermost scope grows; a block and a function leave no trace. -/

theorem grows_declareName {Γ : Layers Name} (f : Option Name) (h : Γ ≠ []) :
    Γ.Grows (declareName f Γ) := by
  cases f with
  | none => exact .refl h
  | some x => exact Layers.grows_declare h

theorem grows_funcScope (f : Option Name) (ps : List Name) (Γ : Layers Name) :
    Layers.Grows ([] :: Γ) (funcScope f ps Γ) := by
  have hps := Layers.grows_declares ps (List.cons_ne_nil [] Γ)
  exact hps.trans (grows_declareName f hps.ne_nil)

mutual

theorem Expression.check_grows : ∀ (e : Expression) {Γ Δ : Layers Name}, Γ ≠ [] →
    e.check Γ = some Δ → Γ.Grows Δ
  | .number _, Γ, Δ, hne, h => by cases h; exact .refl hne
  | .var _, Γ, Δ, hne, h => by obtain ⟨_, rfl⟩ := check_var.mp h; exact .refl hne
  | .assignmentExpr _ e, Γ, Δ, hne, h => by
      obtain ⟨Γ1, h1, rfl⟩ := check_assignmentExpr.mp h
      have hg := e.check_grows hne h1
      exact hg.trans (Layers.grows_declare hg.ne_nil)
  | .binaryOperator _ a b, Γ, Δ, hne, h => by
      obtain ⟨Γ1, h1, h2⟩ := check_binaryOperator.mp h
      have hg := a.check_grows hne h1
      exact hg.trans (b.check_grows hg.ne_nil h2)
  | .unaryOperator _ e, Γ, Δ, hne, h => e.check_grows hne h
  | .input, Γ, Δ, hne, h => by cases h; exact .refl hne
  | .blockExpr ss, Γ, Δ, hne, h => by
      obtain ⟨Γ1, h1, rfl⟩ := check_blockExpr.mp h
      have hg := checkStmts_grows ss (List.cons_ne_nil [] Γ) h1
      rw [hg.tail]
      exact .refl hne
  | .func f ps body, Γ, Δ, hne, h => by
      cases body with
      | blockExpr ss =>
          obtain ⟨Γ1, h1, rfl⟩ := check_func.mp h
          have hf := grows_funcScope f ps Γ
          have hg := hf.trans (checkStmts_grows ss hf.ne_nil h1)
          rw [hg.tail]
          exact .refl hne
      | _ => cases h
  | .call t es, Γ, Δ, hne, h => by
      obtain ⟨Γ1, h1, h2⟩ := check_call.mp h
      have hg := t.check_grows hne h1
      exact hg.trans (checkArgs_grows es hg.ne_nil h2)

theorem Statement.check_grows : ∀ (s : Statement) {Γ Δ : Layers Name}, Γ ≠ [] →
    s.check Γ = some Δ → Γ.Grows Δ
  | .emptyStmt, Γ, Δ, hne, h => by cases h; exact .refl hne
  | .exprStmt e, Γ, Δ, hne, h => e.check_grows hne h
  | .ifStmt c t none, Γ, Δ, hne, h => by
      obtain ⟨_, Γ1, h1, h2⟩ := check_ifStmt.mp h
      have hg := c.check_grows hne h1
      exact hg.trans (t.check_grows hg.ne_nil h2)
  | .ifStmt c t (some e), Γ, Δ, hne, h => by
      obtain ⟨_, Γ1, Γ2, h1, h2, h3⟩ := check_ifStmt_else.mp h
      have hg := c.check_grows hne h1
      have hg' := hg.trans (t.check_grows hg.ne_nil h2)
      exact hg'.trans (e.check_grows hg'.ne_nil h3)
  | .whileStmt c b, Γ, Δ, hne, h => by
      obtain ⟨_, Γ1, h1, h2⟩ := check_whileStmt.mp h
      have hg := c.check_grows hne h1
      exact hg.trans (b.check_grows hg.ne_nil h2)
  | .printStmt e, Γ, Δ, hne, h => e.check_grows hne h
  | .returnStmt none, Γ, Δ, hne, h => by cases h; exact .refl hne
  | .returnStmt (some e), Γ, Δ, hne, h => e.check_grows hne h

theorem checkStmts_grows : ∀ (ss : List Statement) {Γ Δ : Layers Name}, Γ ≠ [] →
    checkStmts ss Γ = some Δ → Γ.Grows Δ
  | [], Γ, Δ, hne, h => by cases h; exact .refl hne
  | s :: ss, Γ, Δ, hne, h => by
      obtain ⟨Γ1, h1, h2⟩ := checkStmts_cons.mp h
      have hg := s.check_grows hne h1
      exact hg.trans (checkStmts_grows ss hg.ne_nil h2)

theorem checkArgs_grows : ∀ (es : List Expression) {Γ Δ : Layers Name}, Γ ≠ [] →
    checkArgs es Γ = some Δ → Γ.Grows Δ
  | [], Γ, Δ, hne, h => by cases h; exact .refl hne
  | e :: es, Γ, Δ, hne, h => by
      obtain ⟨Γ1, h1, h2⟩ := checkArgs_cons.mp h
      have hg := e.check_grows hne h1
      exact hg.trans (checkArgs_grows es hg.ne_nil h2)

end

/-- What is declared in a block ends with it. -/
theorem check_block_eq {b : Expression} {Γ Δ : Layers Name} (hb : b.isBlock)
    (h : b.check Γ = some Δ) : Δ = Γ := by
  cases b with
  | blockExpr ss =>
      obtain ⟨Γ1, h1, rfl⟩ := check_blockExpr.mp h
      exact (checkStmts_grows ss (List.cons_ne_nil [] Γ) h1).tail
  | _ => cases hb

/-! ## From derivations to the walk -/

/-- What the walk says of the value of a nonterminal. -/
def Checked : (N : Nonterminal) → N.Value → Layers Name → Layers Name → Prop
  | .program, v, Γ, Δ | .toplevelStmtList, v, Γ, Δ =>
      ∃ ss, v = ss.map some ∧ checkStmts ss Γ = some Δ
  | .toplevelStatement, v, Γ, Δ => ∃ s, v = some s ∧ s.check Γ = some Δ
  | .stmtList, v, Γ, Δ => checkStmts v Γ = some Δ
  | .statement, v, Γ, Δ | .emptyStmt, v, Γ, Δ | .exprStmt, v, Γ, Δ | .ifStmt, v, Γ, Δ
  | .whileStmt, v, Γ, Δ | .printStmt, v, Γ, Δ | .returnStmt, v, Γ, Δ => v.check Γ = some Δ
  | .expression, v, Γ, Δ | .assignmentExpr, v, Γ, Δ | .level _, v, Γ, Δ | .postfixExpr, v, Γ, Δ
  | .primary, v, Γ, Δ | .inputExpr, v, Γ, Δ | .functionExpr, v, Γ, Δ => v.check Γ = some Δ
  | .blockExpr, v, Γ, Δ => v.isBlock ∧ v.check Γ = some Δ
  | .optArgList, v, Γ, Δ | .argList, v, Γ, Δ => checkArgs v Γ = some Δ
  | .optParamList, v, Γ, Δ | .paramList, v, Γ, Δ => v.foldl (fun Γ x => Layers.declare x Γ) Γ = Δ
  | .optFuncName, v, Γ, Δ => declareName v Γ = Δ

theorem Checked.grows : ∀ {N : Nonterminal} {v : N.Value} {Γ Δ : Layers Name}, Checked N v Γ Δ →
    Γ ≠ [] → Γ.Grows Δ
  | .program, _, _, _, ⟨ss, _, h⟩, hne | .toplevelStmtList, _, _, _, ⟨ss, _, h⟩, hne =>
      checkStmts_grows ss hne h
  | .toplevelStatement, _, _, _, ⟨s, _, h⟩, hne => s.check_grows hne h
  | .stmtList, v, _, _, h, hne => checkStmts_grows v hne h
  | .statement, v, _, _, h, hne | .emptyStmt, v, _, _, h, hne | .exprStmt, v, _, _, h, hne
  | .ifStmt, v, _, _, h, hne | .whileStmt, v, _, _, h, hne | .printStmt, v, _, _, h, hne
  | .returnStmt, v, _, _, h, hne => v.check_grows hne h
  | .expression, v, _, _, h, hne | .assignmentExpr, v, _, _, h, hne | .level _, v, _, _, h, hne
  | .postfixExpr, v, _, _, h, hne | .primary, v, _, _, h, hne | .inputExpr, v, _, _, h, hne
  | .functionExpr, v, _, _, h, hne => v.check_grows hne h
  | .blockExpr, v, _, _, h, hne => v.check_grows hne h.2
  | .optArgList, v, _, _, h, hne | .argList, v, _, _, h, hne => checkArgs_grows v hne h
  | .optParamList, v, _, _, h, hne | .paramList, v, _, _, h, hne => h ▸ Layers.grows_declares v hne
  | .optFuncName, v, _, _, h, hne => h ▸ grows_declareName v hne

/-! ### The states along a derivation -/

section States

variable {s s' : ParserState} {x y : Name}

theorem popScope_errors (h : s.popScope = .ok s') : s'.errors = s.errors := by
  obtain ⟨⟨Γ⟩, es⟩ := s
  cases Γ with
  | nil => cases h
  | cons l ls => cases h; rfl

theorem popScope_scopes (h : s.popScope = .ok s') : s'.scopes.scopes = s.scopes.scopes.tail := by
  obtain ⟨⟨Γ⟩, es⟩ := s
  cases Γ with
  | nil => cases h
  | cons l ls => cases h; rfl

theorem addVarToScope_errors (h : s.addVarToScope x = .ok (y, s')) : s'.errors = s.errors := by
  unfold ParserState.addVarToScope at h
  cases ha : s.scopes.addVariable x with
  | error e => rw [ha] at h; cases h
  | ok r => rw [ha] at h; cases h; rfl

theorem assignName_errors (h : s.assignName x = .ok (y, s')) : s'.errors = s.errors := by
  unfold ParserState.assignName at h
  cases hl : s.scopes.lookup x with
  | none => rw [hl] at h; exact addVarToScope_errors h
  | some z => rw [hl] at h; cases h; rfl

theorem useName_errors (h : s.useName x = .ok (y, s')) : s.errors <+: s'.errors := by
  unfold ParserState.useName at h
  cases hl : s.scopes.lookup x with
  | none => rw [hl] at h; rw [addVarToScope_errors h]; exact List.prefix_append _ _
  | some z => rw [hl] at h; cases h; exact List.prefix_refl _

theorem addVarToScope_ok (hne : s.scopes.scopes ≠ []) (h : s.addVarToScope x = .ok (y, s')) :
    y = x ∧ s'.scopes.scopes = Layers.declare x s.scopes.scopes := by
  unfold ParserState.addVarToScope at h
  rw [Scope.addVariable_ok hne] at h
  cases h
  exact ⟨rfl, rfl⟩

/-- An assigned name ends up declared, whether the lookup finds it or not. -/
theorem assignName_ok (hne : s.scopes.scopes ≠ []) (h : s.assignName x = .ok (y, s')) :
    y = x ∧ s'.scopes.scopes = Layers.declare x s.scopes.scopes := by
  unfold ParserState.assignName at h
  cases hl : s.scopes.lookup x with
  | none => rw [hl] at h; exact addVarToScope_ok hne h
  | some z =>
      rw [hl] at h
      cases h
      obtain ⟨rfl, hv⟩ := Scope.lookup_eq_some.mp hl
      rw [Layers.declare_of_visible hv]
      exact ⟨rfl, rfl⟩

/-- A name read without a report was visible. -/
theorem useName_ok (h : s.useName x = .ok (y, s')) (he : s'.errors = []) :
    y = x ∧ Layers.Visible x s.scopes.scopes ∧ s' = s := by
  unfold ParserState.useName at h
  cases hl : s.scopes.lookup x with
  | none =>
      rw [hl] at h
      rw [addVarToScope_errors h] at he
      simp [ParserState.addError] at he
  | some z =>
      rw [hl] at h
      cases h
      obtain ⟨rfl, hv⟩ := Scope.lookup_eq_some.mp hl
      exact ⟨rfl, hv, rfl⟩

end States

/-- Recorded errors stay recorded. -/
theorem Derives.errors_mono {r : Bool} {N : Nonterminal} {ts : List Token} {s s' : ParserState}
    {v : N.Value} (h : Derives r N ts s v s') : s.errors <+: s'.errors := by
  induction h with
  | toplevelNil | stmtNil | emptyStmt | returnNone | optArgNone | primaryNumber | inputExpr
  | optParamNone | funcNameNone => exact List.prefix_refl _
  | toplevelBrace => exact List.prefix_append _ _
  | statementError _ h => exact h.1
  | ifError _ h _ ih | ifParenError _ h _ ih | whileError _ h _ ih | whileParenError _ h _ ih =>
      exact h.1.trans ih
  | toplevelSnoc _ _ ih1 ih2 | stmtSnoc _ _ ih1 ih2 | ifThen _ _ ih1 ih2 | whileStmt _ _ ih1 ih2
  | levelOperator _ _ _ _ ih1 ih2 | postfixCall _ _ ih1 ih2 | argSnoc _ _ ih1 ih2 =>
      exact ih1.trans ih2
  | ifThenElse _ _ _ ih1 ih2 ih3 => exact (ih1.trans ih2).trans ih3
  | assignment _ hx ih => rw [assignName_errors hx]; exact ih
  | primaryId hx => exact useName_errors hx
  | blockExpr _ hp ih => rw [popScope_errors hp]; exact ih
  | functionExpr _ _ _ hp ih1 ih2 ih3 => rw [popScope_errors hp]; exact (ih1.trans ih2).trans ih3
  | paramOne hx | funcNameSome hx => exact addVarToScope_errors hx ▸ List.prefix_refl _
  | paramSnoc _ hx ih => rw [addVarToScope_errors hx]; exact ih
  | _ => assumption

theorem no_errors_of_mono {s s' : ParserState} (h : s.errors <+: s'.errors)
    (he : s'.errors = []) : s.errors = [] := List.prefix_nil.mp (he ▸ h)

/-- **Derivations are walks.** Where no error is recorded, the actions did what the walk does. -/
theorem Derives.checked {r : Bool} {N : Nonterminal} {ts : List Token} {s s' : ParserState}
    {v : N.Value} (h : Derives r N ts s v s') (hne : s.scopes.scopes ≠ []) (he : s'.errors = []) :
    Checked N v s.scopes.scopes s'.scopes.scopes := by
  induction h with
  | program _ ih => exact ih hne he
  | toplevelNil => exact ⟨[], rfl, rfl⟩
  | toplevelSnoc _ h2 ih1 ih2 =>
      obtain ⟨ss, rfl, h1⟩ := ih1 hne (no_errors_of_mono h2.errors_mono he)
      obtain ⟨st, rfl, hst⟩ := ih2 (checkStmts_grows ss hne h1).ne_nil he
      exact ⟨ss ++ [st], by simp, checkStmts_snoc h1 hst⟩
  | toplevelStatement _ ih => exact ⟨_, rfl, ih hne he⟩
  -- a brace too many and every recovery leave an error behind
  | toplevelBrace => simp [ParserState.addError] at he
  | stmtNil => rfl
  | stmtSnoc _ h2 ih1 ih2 =>
      have h1 := ih1 hne (no_errors_of_mono h2.errors_mono he)
      exact checkStmts_snoc h1 (ih2 (h1.grows hne).ne_nil he)
  | statementError _ hrec => exact absurd he hrec.2
  | ifError _ hrec hb | ifParenError _ hrec hb | whileError _ hrec hb | whileParenError _ hrec hb =>
      exact absurd (no_errors_of_mono hb.errors_mono he) hrec.2
  | emptyStmt | returnNone | optArgNone | primaryNumber | inputExpr | optParamNone | funcNameNone =>
      rfl
  | ifThen _ ht ih1 ih2 =>
      have h1 := ih1 hne (no_errors_of_mono ht.errors_mono he)
      have h2 := ih2 (h1.grows hne).ne_nil he
      exact check_ifStmt.mpr ⟨h2.1, _, h1, h2.2⟩
  | ifThenElse _ ht hel ih1 ih2 ih3 =>
      have he2 := no_errors_of_mono hel.errors_mono he
      have h1 := ih1 hne (no_errors_of_mono ht.errors_mono he2)
      have h2 := ih2 (h1.grows hne).ne_nil he2
      have h3 := ih3 (h2.grows (h1.grows hne).ne_nil).ne_nil he
      exact check_ifStmt_else.mpr ⟨⟨h2.1, h3.1⟩, _, _, h1, h2.2, h3.2⟩
  | whileStmt _ hb ih1 ih2 =>
      have h1 := ih1 hne (no_errors_of_mono hb.errors_mono he)
      have h2 := ih2 (h1.grows hne).ne_nil he
      exact check_whileStmt.mpr ⟨h2.1, _, h1, h2.2⟩
  | assignment h hx ih =>
      have h1 := ih hne (by rw [← assignName_errors hx]; exact he)
      obtain ⟨rfl, hs⟩ := assignName_ok (h1.grows hne).ne_nil hx
      rw [hs]
      exact check_assignmentExpr.mpr ⟨_, h1, rfl⟩
  | levelOperator _ _ _ hb ih1 ih2 =>
      have h1 := ih1 hne (no_errors_of_mono hb.errors_mono he)
      exact check_binaryOperator.mpr ⟨_, h1, ih2 (h1.grows hne).ne_nil he⟩
  | postfixCall _ ha ih1 ih2 =>
      have h1 := ih1 hne (no_errors_of_mono ha.errors_mono he)
      exact check_call.mpr ⟨_, h1, ih2 (h1.grows hne).ne_nil he⟩
  | argOne _ ih => exact checkArgs_snoc (l := []) rfl (ih hne he)
  | argSnoc _ h2 ih1 ih2 =>
      have h1 := ih1 hne (no_errors_of_mono h2.errors_mono he)
      exact checkArgs_snoc h1 (ih2 (h1.grows hne).ne_nil he)
  | primaryId hx =>
      obtain ⟨rfl, hv, rfl⟩ := useName_ok hx he
      exact check_var.mpr ⟨hv, rfl⟩
  | primaryBlock _ ih => exact (ih hne he).2
  | blockExpr _ hp ih =>
      have h1 := ih (List.cons_ne_nil _ _) (by rw [← popScope_errors hp]; exact he)
      exact ⟨rfl, check_blockExpr.mpr ⟨_, h1, (popScope_scopes hp).symm⟩⟩
  -- no errors at the end means none after the name and none after the parameters
  | functionExpr hps hn h hp ih1 ih2 ih3 =>
      have he3 := he
      rw [popScope_errors hp] at he3
      have he2 := no_errors_of_mono h.errors_mono he3
      have h1 := ih1 (List.cons_ne_nil _ _) (no_errors_of_mono hn.errors_mono he2)
      have hne1 := (h1.grows (List.cons_ne_nil _ _)).ne_nil
      have h2 := ih2 hne1 he2
      have h3 := ih3 (h2.grows hne1).ne_nil he3
      refine check_func.mpr ⟨_, ?_, (popScope_scopes hp).symm⟩
      rw [funcScope]
      exact (show _ = _ from h1) ▸ (show _ = _ from h2) ▸ h3
  | paramOne hx =>
      obtain ⟨rfl, hs⟩ := addVarToScope_ok hne hx
      exact hs.symm
  | paramSnoc _ hx ih =>
      have h1 := ih hne (by rw [← addVarToScope_errors hx]; exact he)
      obtain ⟨rfl, hs⟩ := addVarToScope_ok (h1.grows hne).ne_nil hx
      show List.foldl _ _ _ = _
      rw [List.foldl_append, show List.foldl _ _ _ = _ from h1, hs]
      rfl
  | funcNameSome hx =>
      obtain ⟨rfl, hs⟩ := addVarToScope_ok hne hx
      exact hs.symm
  -- the remaining productions hand their only part on
  | _ => rename_i ih; exact ih hne he

/-! ## From the walk to derivations -/

section Rebuild

variable {r : Bool} {d : List ParseError}

/-- Some tokens derive the value, between these scopes and with nothing to report. -/
def Parses (r : Bool) (d : List ParseError) (N : Nonterminal) (v : N.Value) (Γ Δ : Layers Name) :
    Prop := ∃ ts, Derives r N ts ⟨⟨Γ⟩, d⟩ v ⟨⟨Δ⟩, d⟩

theorem assignName_declare {x : Name} {Γ : Layers Name} (hne : Γ ≠ []) :
    ParserState.assignName ⟨⟨Γ⟩, d⟩ x = .ok (x, ⟨⟨Layers.declare x Γ⟩, d⟩) := by
  unfold ParserState.assignName
  by_cases hv : Layers.Visible x Γ
  · rw [Scope.lookup_of_visible hv, Layers.declare_of_visible hv]
  · rw [Scope.lookup_eq_none.mpr hv]
    simp only [ParserState.addVarToScope, Scope.addVariable_ok (s := ⟨Γ⟩) hne]
    rfl

theorem addVarToScope_declare {x : Name} {Γ : Layers Name} (hne : Γ ≠ []) :
    ParserState.addVarToScope ⟨⟨Γ⟩, d⟩ x = .ok (x, ⟨⟨Layers.declare x Γ⟩, d⟩) := by
  simp only [ParserState.addVarToScope, Scope.addVariable_ok (s := ⟨Γ⟩) hne]
  rfl

theorem useName_visible {x : Name} {Γ : Layers Name} (hv : Layers.Visible x Γ) :
    ParserState.useName ⟨⟨Γ⟩, d⟩ x = .ok (x, ⟨⟨Γ⟩, d⟩) := by
  simp only [ParserState.useName, Scope.lookup_of_visible (s := ⟨Γ⟩) hv]

/-- A primary is an operand at every level. -/
theorem Derives.ofPrimary {ts : List Token} {s s' : ParserState} {e : Expression}
    (h : Derives r .primary ts s e s') : ∀ l, Derives r (.level l) ts s e s' := by
  have unary : Derives r (.level .unary) ts s e s' := .unaryPostfix (.postfixPrimary h)
  have mulDiv := Derives.levelOperand (l := .mulDiv) rfl unary
  have addSub := Derives.levelOperand (l := .addSub) rfl mulDiv
  have relational := Derives.levelOperand (l := .relational) rfl addSub
  have equality := Derives.levelOperand (l := .equality) rfl relational
  have bitwiseOp := Derives.levelOperand (l := .bitwiseOp) rfl equality
  have and := Derives.levelOperand (l := .and) rfl bitwiseOp
  have or := Derives.levelOperand (l := .or) rfl and
  intro l
  cases l <;> assumption

/-- Every level is an operand of the loosest one. -/
theorem Derives.toOr {l : Level} {ts : List Token} {s s' : ParserState} {e : Expression}
    (h : Derives r (.level l) ts s e s') : Derives r (.level .or) ts s e s' := by
  have and {ts : List Token} {s s' : ParserState} {e : Expression}
      (h : Derives r (.level .bitwiseOp) ts s e s') : Derives r (.level .or) ts s e s' :=
    .levelOperand (m := .and) rfl (.levelOperand rfl h)
  have equality {ts : List Token} {s s' : ParserState} {e : Expression}
      (h : Derives r (.level .relational) ts s e s') : Derives r (.level .or) ts s e s' :=
    and (.levelOperand (m := .equality) rfl (.levelOperand rfl h))
  have addSub {ts : List Token} {s s' : ParserState} {e : Expression}
      (h : Derives r (.level .mulDiv) ts s e s') : Derives r (.level .or) ts s e s' :=
    equality (.levelOperand (m := .addSub) rfl (.levelOperand rfl h))
  cases l with
  | or => exact h
  | and => exact .levelOperand rfl h
  | bitwiseOp => exact and h
  | equality => exact and (.levelOperand rfl h)
  | relational => exact equality h
  | addSub => exact equality (.levelOperand rfl h)
  | mulDiv => exact addSub h
  | unary => exact addSub (.levelOperand rfl h)

theorem Derives.toExpression {ts : List Token} {s s' : ParserState} {e : Expression}
    (h : Derives r .primary ts s e s') : Derives r .expression ts s e s' :=
  .expression (.assignmentOr (h.ofPrimary .or))

/-- Every operator stands at one level. -/
theorem exists_level (op : BinaryOperators) :
    ∃ l m t, Level.operand l = some m ∧ (t, op) ∈ l.operators := by
  cases op
  case logOr => exact ⟨.or, _, _, rfl, by simp [Level.operators]; rfl⟩
  case logAnd => exact ⟨.and, _, _, rfl, by simp [Level.operators]; rfl⟩
  case and => exact ⟨.bitwiseOp, _, .tokAnd, rfl, by simp [Level.operators]⟩
  case xor => exact ⟨.bitwiseOp, _, .tokXor, rfl, by simp [Level.operators]⟩
  case or => exact ⟨.bitwiseOp, _, .tokOr, rfl, by simp [Level.operators]⟩
  case eq => exact ⟨.equality, _, .tokEq, rfl, by simp [Level.operators]⟩
  case neq => exact ⟨.equality, _, .tokNeq, rfl, by simp [Level.operators]⟩
  case less => exact ⟨.relational, _, .tokLess, rfl, by simp [Level.operators]⟩
  case lessEq => exact ⟨.relational, _, .tokLessOrEq, rfl, by simp [Level.operators]⟩
  case greater => exact ⟨.relational, _, .tokGreater, rfl, by simp [Level.operators]⟩
  case greaterEq => exact ⟨.relational, _, .tokGreaterOrEq, rfl, by simp [Level.operators]⟩
  case add => exact ⟨.addSub, _, .tokPlus, rfl, by simp [Level.operators]⟩
  case sub => exact ⟨.addSub, _, .tokMinus, rfl, by simp [Level.operators]⟩
  case mul => exact ⟨.mulDiv, _, .tokMul, rfl, by simp [Level.operators]⟩
  case div => exact ⟨.mulDiv, _, .tokDiv, rfl, by simp [Level.operators]⟩
  case remDiv => exact ⟨.mulDiv, _, .tokRemDiv, rfl, by simp [Level.operators]⟩

theorem Parses.block {ss : List Statement} {Γ Δ : Layers Name}
    (h : Parses r d .stmtList ss ([] :: Γ) Δ) (hc : checkStmts ss ([] :: Γ) = some Δ) :
    Parses r d .blockExpr (.blockExpr ss) Γ Δ.tail := by
  obtain ⟨ts, hts⟩ := h
  obtain ⟨l, ls, rfl⟩ :=
    List.exists_cons_of_ne_nil (checkStmts_grows ss (List.cons_ne_nil [] Γ) hc).ne_nil
  exact ⟨_, .blockExpr hts (show ParserState.popScope ⟨⟨l :: ls⟩, d⟩ = _ from rfl)⟩

theorem paramsParse (ps : List Name) {Γ : Layers Name} (hne : Γ ≠ []) (hps : ps ≠ []) :
    Parses r d .paramList ps Γ (ps.foldl (fun Γ x => Layers.declare x Γ) Γ) := by
  induction ps using List.reverseRecOn with
  | nil => exact absurd rfl hps
  | append_singleton ps x ih =>
      by_cases hps : ps = []
      · subst hps
        exact ⟨_, .paramOne (addVarToScope_declare hne)⟩
      · obtain ⟨ts, hts⟩ := ih hps
        rw [List.foldl_append]
        exact ⟨_, .paramSnoc hts (addVarToScope_declare (Layers.grows_declares ps hne).ne_nil)⟩

theorem optParamsParse (ps : List Name) {Γ : Layers Name} (hne : Γ ≠ []) :
    Parses r d .optParamList ps Γ (ps.foldl (fun Γ x => Layers.declare x Γ) Γ) := by
  by_cases hps : ps = []
  · subst hps
    exact ⟨_, .optParamNone⟩
  · obtain ⟨ts, hts⟩ := paramsParse (r := r) (d := d) ps hne hps
    exact ⟨_, .optParamSome hts⟩

theorem funcNameParses (f : Option Name) {Γ : Layers Name} (hne : Γ ≠ []) :
    Parses r d .optFuncName f Γ (declareName f Γ) := by
  cases f with
  | none => exact ⟨_, .funcNameNone⟩
  | some x => exact ⟨_, .funcNameSome (addVarToScope_declare hne)⟩

theorem Parses.func {f : Option Name} {ps : List Name} {ss : List Statement} {Γ Δ : Layers Name}
    (h : Parses r d .stmtList ss (funcScope f ps Γ) Δ)
    (hc : checkStmts ss (funcScope f ps Γ) = some Δ) :
    Parses r d .functionExpr (.func f ps (.blockExpr ss)) Γ Δ.tail := by
  have hg := Layers.grows_declares ps (List.cons_ne_nil [] Γ)
  obtain ⟨ts, hts⟩ := optParamsParse (r := r) (d := d) ps (List.cons_ne_nil [] Γ)
  obtain ⟨us, hus⟩ := funcNameParses (r := r) (d := d) f hg.ne_nil
  obtain ⟨vs, hvs⟩ := h
  obtain ⟨l, ls, rfl⟩ :=
    List.exists_cons_of_ne_nil (checkStmts_grows ss (grows_funcScope f ps Γ).ne_nil hc).ne_nil
  exact ⟨_, .functionExpr hts hus hvs (show ParserState.popScope ⟨⟨l :: ls⟩, d⟩ = _ from rfl)⟩

/-- Arguments read so far, if any. -/
theorem Parses.argSnoc {pre : List Expression} {e : Expression} {Γ0 Γ Δ : Layers Name}
    (hpre : Parses r d .optArgList pre Γ0 Γ) (he : Parses r d .expression e Γ Δ) :
    Parses r d .optArgList (pre ++ [e]) Γ0 Δ := by
  obtain ⟨ts, hts⟩ := hpre
  obtain ⟨us, hus⟩ := he
  unfold Parses
  generalize (⟨⟨Γ0⟩, d⟩ : ParserState) = s0 at hts ⊢
  cases hts with
  | optArgNone => exact ⟨_, .optArgSome (.argOne hus)⟩
  | optArgSome h => exact ⟨_, .optArgSome (.argSnoc h hus)⟩

mutual

theorem Expression.parses : ∀ (e : Expression) {Γ Δ : Layers Name}, Γ ≠ [] → e.check Γ = some Δ →
    Parses r d .primary e Γ Δ
  | .number n, Γ, Δ, hne, h => by cases h; exact ⟨_, .primaryNumber⟩
  | .var x, Γ, Δ, hne, h => by
      obtain ⟨hv, rfl⟩ := check_var.mp h
      exact ⟨_, .primaryId (useName_visible hv)⟩
  | .assignmentExpr x e, Γ, Δ, hne, h => by
      obtain ⟨Γ1, h1, rfl⟩ := check_assignmentExpr.mp h
      obtain ⟨ts, hts⟩ := e.parses hne h1
      have hx := assignName_declare (d := d) (x := x) (e.check_grows hne h1).ne_nil
      exact ⟨_, .primaryParen (.expression (.assignment (.assignmentOr (hts.ofPrimary .or)) hx))⟩
  | .binaryOperator op a b, Γ, Δ, hne, h => by
      obtain ⟨Γ1, h1, h2⟩ := check_binaryOperator.mp h
      obtain ⟨ts, hts⟩ := a.parses hne h1
      obtain ⟨us, hus⟩ := b.parses (a.check_grows hne h1).ne_nil h2
      obtain ⟨l, m, t, hm, hop⟩ := exists_level op
      have hl := Derives.levelOperator hm hop (hts.ofPrimary l) (hus.ofPrimary m)
      exact ⟨_, .primaryParen (.expression (.assignmentOr hl.toOr))⟩
  | .unaryOperator op e, Γ, Δ, hne, h => by
      obtain ⟨ts, hts⟩ := e.parses hne h
      have hop : ∃ t, (t, op) ∈ unaryOperators := by cases op <;> simp [unaryOperators]
      obtain ⟨t, hop⟩ := hop
      have hl := Derives.unaryOperator hop (hts.ofPrimary .unary)
      exact ⟨_, .primaryParen (.expression (.assignmentOr hl.toOr))⟩
  | .input, Γ, Δ, hne, h => by cases h; exact ⟨_, .primaryInput .inputExpr⟩
  | .blockExpr ss, Γ, Δ, hne, h => by
      obtain ⟨Γ1, h1, rfl⟩ := check_blockExpr.mp h
      obtain ⟨ts, hts⟩ := (stmtsParse ss (List.cons_ne_nil [] Γ) ⟨_, .stmtNil⟩ h1).block h1
      exact ⟨ts, .primaryBlock hts⟩
  | .func f ps body, Γ, Δ, hne, h => by
      cases body with
      | blockExpr ss =>
          obtain ⟨Γ1, h1, rfl⟩ := check_func.mp h
          have hf := (grows_funcScope f ps Γ).ne_nil
          obtain ⟨ts, hts⟩ := (stmtsParse ss hf ⟨_, .stmtNil⟩ h1).func h1
          exact ⟨ts, .primaryFunction hts⟩
      | _ => cases h
  | .call t as, Γ, Δ, hne, h => by
      obtain ⟨Γ1, h1, h2⟩ := check_call.mp h
      obtain ⟨ts, hts⟩ := t.parses hne h1
      obtain ⟨us, hus⟩ := argsParse as (t.check_grows hne h1).ne_nil ⟨_, .optArgNone⟩ h2
      have hc := Derives.postfixCall (.postfixPrimary hts) hus
      exact ⟨_, .primaryParen (.expression (.assignmentOr (Derives.unaryPostfix hc).toOr))⟩

theorem Statement.parses : ∀ (s : Statement) {Γ Δ : Layers Name}, Γ ≠ [] → s.check Γ = some Δ →
    Parses r d .statement s Γ Δ
  | .emptyStmt, Γ, Δ, hne, h => by cases h; exact ⟨_, .statementEmpty .emptyStmt⟩
  | .exprStmt e, Γ, Δ, hne, h => by
      obtain ⟨ts, hts⟩ := e.parses hne h
      exact ⟨_, .statementExpr (.exprStmt hts.toExpression)⟩
  | .ifStmt c t none, Γ, Δ, hne, h => by
      obtain ⟨ht, Γ1, h1, h2⟩ := check_ifStmt.mp h
      obtain ⟨us, hus⟩ := c.parses hne h1
      cases t with
      | blockExpr ts =>
          obtain ⟨Γ2, ht, rfl⟩ := check_blockExpr.mp h2
          obtain ⟨vs, hvs⟩ := (stmtsParse ts (List.cons_ne_nil [] Γ1) ⟨_, .stmtNil⟩ ht).block ht
          exact ⟨_, .statementIf (.ifThen hus.toExpression hvs)⟩
      | _ => cases ht
  | .ifStmt c t (some e), Γ, Δ, hne, h => by
      obtain ⟨⟨ht, he⟩, Γ1, Γ2, h1, h2, h3⟩ := check_ifStmt_else.mp h
      obtain ⟨us, hus⟩ := c.parses hne h1
      cases t with
      | blockExpr ts =>
          cases e with
          | blockExpr xs =>
              obtain ⟨Γ3, ht, rfl⟩ := check_blockExpr.mp h2
              obtain ⟨Γ4, he, rfl⟩ := check_blockExpr.mp h3
              obtain ⟨vs, hvs⟩ := (stmtsParse ts (List.cons_ne_nil [] Γ1) ⟨_, .stmtNil⟩ ht).block ht
              obtain ⟨ws, hws⟩ :=
                (stmtsParse xs (List.cons_ne_nil [] Γ3.tail) ⟨_, .stmtNil⟩ he).block he
              exact ⟨_, .statementIf (.ifThenElse hus.toExpression hvs hws)⟩
          | _ => cases he
      | _ => cases ht
  | .whileStmt c b, Γ, Δ, hne, h => by
      obtain ⟨hb, Γ1, h1, h2⟩ := check_whileStmt.mp h
      obtain ⟨us, hus⟩ := c.parses hne h1
      cases b with
      | blockExpr ts =>
          obtain ⟨Γ2, ht, rfl⟩ := check_blockExpr.mp h2
          obtain ⟨vs, hvs⟩ := (stmtsParse ts (List.cons_ne_nil [] Γ1) ⟨_, .stmtNil⟩ ht).block ht
          exact ⟨_, .statementWhile (.whileStmt hus.toExpression hvs)⟩
      | _ => cases hb
  | .printStmt e, Γ, Δ, hne, h => by
      obtain ⟨ts, hts⟩ := e.parses hne h
      exact ⟨_, .statementPrint (.printStmt hts.toExpression)⟩
  | .returnStmt none, Γ, Δ, hne, h => by cases h; exact ⟨_, .statementReturn .returnNone⟩
  | .returnStmt (some e), Γ, Δ, hne, h => by
      obtain ⟨ts, hts⟩ := e.parses hne h
      exact ⟨_, .statementReturn (.returnSome hts.toExpression)⟩

theorem stmtsParse : ∀ (ss : List Statement) {pre : List Statement} {Γ0 Γ Δ : Layers Name}, Γ ≠ [] →
    Parses r d .stmtList pre Γ0 Γ → checkStmts ss Γ = some Δ →
    Parses r d .stmtList (pre ++ ss) Γ0 Δ
  | [], pre, Γ0, Γ, Δ, hne, hpre, h => by cases h; rw [List.append_nil]; exact hpre
  | s :: ss, pre, Γ0, Γ, Δ, hne, hpre, h => by
      obtain ⟨Γ1, h1, h2⟩ := checkStmts_cons.mp h
      obtain ⟨ts, hts⟩ := hpre
      obtain ⟨us, hus⟩ := s.parses hne h1
      rw [List.append_cons]
      exact stmtsParse ss (s.check_grows hne h1).ne_nil ⟨_, .stmtSnoc hts hus⟩ h2

theorem argsParse : ∀ (as : List Expression) {pre : List Expression} {Γ0 Γ Δ : Layers Name}, Γ ≠ [] →
    Parses r d .optArgList pre Γ0 Γ → checkArgs as Γ = some Δ →
    Parses r d .optArgList (pre ++ as) Γ0 Δ
  | [], pre, Γ0, Γ, Δ, hne, hpre, h => by cases h; rw [List.append_nil]; exact hpre
  | e :: as, pre, Γ0, Γ, Δ, hne, hpre, h => by
      obtain ⟨Γ1, h1, h2⟩ := checkArgs_cons.mp h
      obtain ⟨ts, hts⟩ := e.parses hne h1
      rw [List.append_cons]
      exact argsParse as (e.check_grows hne h1).ne_nil (hpre.argSnoc ⟨_, hts.toExpression⟩) h2

end

/-- Top-level statements are read one after the other, too. -/
theorem toplevelParse (ss : List Statement) {q : List Statement} {Γ0 Γ Δ : Layers Name}
    (hne : Γ ≠ []) (hpre : Parses r d .toplevelStmtList (q.map some) Γ0 Γ)
    (h : checkStmts ss Γ = some Δ) :
    Parses r d .toplevelStmtList ((q ++ ss).map some) Γ0 Δ := by
  induction ss generalizing q Γ with
  | nil => cases h; rw [List.append_nil]; exact hpre
  | cons s ss ih =>
      obtain ⟨Γ1, h1, h2⟩ := checkStmts_cons.mp h
      obtain ⟨ts, hts⟩ := hpre
      obtain ⟨us, hus⟩ := s.parses (r := r) (d := d) hne h1
      rw [List.append_cons]
      refine ih (s.check_grows hne h1).ne_nil ⟨ts ++ us, ?_⟩ h2
      rw [List.map_append]
      exact .toplevelSnoc hts (.toplevelStatement hus)

end Rebuild

/-! ## Acceptance -/

/-- The parser returns 0 on some text with this tree, and the error collector is empty. -/
def Accepted (p : Program) : Prop :=
  ∃ ts s, Derives true .program ts .init (p.stmts.map some) s ∧ s.errors = []

/-- **Acceptance is the walk.** -/
theorem accepted_iff {p : Program} : Accepted p ↔ ∃ Γ, p.check = some Γ := by
  constructor
  · rintro ⟨ts, s, h, he⟩
    obtain ⟨ss, hss, hc⟩ := h.checked (List.cons_ne_nil _ _) he
    have hps : p.stmts = ss := List.map_injective_iff.mpr (fun _ _ => Option.some.inj) hss
    exact ⟨_, hps ▸ hc⟩
  · rintro ⟨Γ, h⟩
    obtain ⟨ts, hts⟩ :=
      toplevelParse (r := true) (d := []) (q := []) p.stmts (List.cons_ne_nil _ _)
        ⟨[], .toplevelNil⟩ h
    exact ⟨_, _, .program hts, rfl⟩

instance (p : Program) : Decidable (Accepted p) :=
  decidable_of_iff (p.check.isSome = true) (by rw [accepted_iff, Option.isSome_iff_exists])

end ParaCL
