import ParaCL.Lib.ScopeTrace
import ParaCL.Parser.Rendering

/-!
# `Parser.ScopeCheck` — the scope check is lexical scoping

The actions of a derivation treat the names of the tree in source order: a block or a function header
opens a scope, its last brace closes it, parameters and function names are bound in the scope of their
function, an assignment binds its name after its right-hand side. So the parser's scopes walk over the
trace of the tree (`Derives.walked`), and it reports a name exactly when the trace is not bound
(`Lib.ScopeTrace`).
-/

namespace ParaCL

open Lib ScopeEvent

/-! ## The trace of a tree -/

def traceOfName (f : Option Name) : List (ScopeEvent Name) := f.toList.map binds

mutual

/-- What an expression does with names, in source order. -/
def Expression.trace : Expression → List (ScopeEvent Name)
  | .number _ | .input => []
  | .var x => [reads x]
  | .assignmentExpr x e => e.trace ++ [binds x]
  | .binaryOperator _ a b => a.trace ++ b.trace
  | .unaryOperator _ e => e.trace
  | .blockExpr ss => [opens] ++ traceOfStmts ss ++ [closes]
  -- the body of a function has no scope of its own
  | .func f ps (.blockExpr ss) =>
      [opens] ++ ps.map binds ++ traceOfName f ++ traceOfStmts ss ++ [closes]
  | .func f ps body => [opens] ++ ps.map binds ++ traceOfName f ++ body.trace ++ [closes]
  | .call t as => t.trace ++ traceOfArgs as

def Statement.trace : Statement → List (ScopeEvent Name)
  | .emptyStmt => []
  | .exprStmt e => e.trace
  | .ifStmt c t none => c.trace ++ t.trace
  | .ifStmt c t (some e) => c.trace ++ t.trace ++ e.trace
  | .whileStmt c b => c.trace ++ b.trace
  | .printStmt e => e.trace
  | .returnStmt none => []
  | .returnStmt (some e) => e.trace

def traceOfStmts : List Statement → List (ScopeEvent Name)
  | [] => []
  | s :: ss => s.trace ++ traceOfStmts ss

def traceOfArgs : List Expression → List (ScopeEvent Name)
  | [] => []
  | e :: es => e.trace ++ traceOfArgs es

end

/-- The trace of a program. -/
def traceOfProgram (ss : List (Option Statement)) : List (ScopeEvent Name) :=
  ss.flatMap (fun st => st.toList.flatMap Statement.trace)

/-- The trace of a nonterminal's value. -/
def traceOf : (N : Nonterminal) → N.Value → List (ScopeEvent Name)
  | .program, v | .toplevelStmtList, v => traceOfProgram v
  | .toplevelStatement, v => v.toList.flatMap Statement.trace
  | .stmtList, v => traceOfStmts v
  | .statement, v | .emptyStmt, v | .exprStmt, v | .ifStmt, v | .whileStmt, v | .printStmt, v
  | .returnStmt, v => v.trace
  | .expression, v | .assignmentExpr, v | .level _, v | .postfixExpr, v | .primary, v | .inputExpr, v
  | .blockExpr, v | .functionExpr, v => v.trace
  | .optArgList, v | .argList, v => traceOfArgs v
  | .optParamList, v | .paramList, v => v.map binds
  | .optFuncName, v => traceOfName v

theorem traceOfStmts_snoc {ss : List Statement} {s : Statement} :
    traceOfStmts (ss ++ [s]) = traceOfStmts ss ++ s.trace := by
  induction ss with
  | nil => simp [traceOfStmts]
  | cons t ss ih => rw [List.cons_append, traceOfStmts, traceOfStmts, ih, List.append_assoc]

theorem traceOfArgs_snoc {es : List Expression} {e : Expression} :
    traceOfArgs (es ++ [e]) = traceOfArgs es ++ e.trace := by
  induction es with
  | nil => simp [traceOfArgs]
  | cons t es ih => rw [List.cons_append, traceOfArgs, traceOfArgs, ih, List.append_assoc]

theorem traceOfProgram_snoc {ss : List (Option Statement)} {st : Option Statement} :
    traceOfProgram (ss ++ [st]) = traceOfProgram ss ++ st.toList.flatMap Statement.trace := by
  simp [traceOfProgram]

/-! ## The actions walk over the trace -/

/-- The names reported as undeclared. -/
def ParserState.undeclared (s : ParserState) : List Name :=
  s.errors.filterMap (fun e => match e with | .undeclared x => some x | _ => none)

/-- The state after a walk over the trace. -/
structure Walked (s : ParserState) (t : List (ScopeEvent Name)) (s' : ParserState) : Prop where
  scopes : s'.scopes.scopes = (run s.scopes.scopes t).1
  undeclared : s'.undeclared = s.undeclared ++ (run s.scopes.scopes t).2

section Walked

variable {s s1 s' : ParserState} {t u : List (ScopeEvent Name)} {x y : Name}

theorem Walked.refl : Walked s [] s := ⟨rfl, (List.append_nil _).symm⟩

theorem Walked.append (h : Walked s t s1) (h' : Walked s1 u s') : Walked s (t ++ u) s' := by
  refine ⟨?_, ?_⟩
  · rw [run_append, h'.scopes, h.scopes]
  · rw [run_append, h'.undeclared, h.undeclared, h.scopes, List.append_assoc]

theorem walked_pushScope : Walked s [opens] s.pushScope :=
  ⟨rfl, (List.append_nil _).symm⟩

theorem undeclared_eq (h : s'.errors = s.errors) : s'.undeclared = s.undeclared ++ [] := by
  rw [List.append_nil, ParserState.undeclared, h, ParserState.undeclared]

theorem walked_popScope (h : s.popScope = .ok s') : Walked s [closes] s' :=
  ⟨popScope_scopes h, undeclared_eq (popScope_errors h)⟩

theorem addVarToScope_scopes (h : s.addVarToScope x = .ok (y, s')) :
    s'.scopes.scopes = Layers.declare x s.scopes.scopes := by
  obtain ⟨⟨Γ⟩, d⟩ := s
  cases Γ with
  | nil => cases h
  | cons l Γ => exact (addVarToScope_ok (List.cons_ne_nil l Γ) h).2

theorem walked_addVarToScope (h : s.addVarToScope x = .ok (y, s')) : Walked s [binds x] s' :=
  ⟨addVarToScope_scopes h, undeclared_eq (addVarToScope_errors h)⟩

theorem walked_assignName (h : s.assignName x = .ok (y, s')) : Walked s [binds x] s' := by
  refine ⟨?_, undeclared_eq (assignName_errors h)⟩
  unfold ParserState.assignName at h
  cases hl : s.scopes.lookup x with
  | none => rw [hl] at h; exact addVarToScope_scopes h
  | some z =>
      rw [hl] at h
      cases h
      exact (Layers.declare_of_visible (Scope.lookup_eq_some.mp hl).2).symm

theorem walked_useName (h : s.useName x = .ok (y, s')) : Walked s [reads x] s' := by
  unfold ParserState.useName at h
  cases hl : s.scopes.lookup x with
  | none =>
      rw [hl] at h
      have hadd : (s.addError (.undeclared x)).addVarToScope x = .ok (y, s') := h
      have hno := Scope.lookup_eq_none.mp hl
      refine ⟨addVarToScope_scopes (s := s.addError (.undeclared x)) hadd, ?_⟩
      rw [undeclared_eq (addVarToScope_errors hadd), run_one, exec, if_neg hno, List.append_nil]
      exact List.filterMap_append
  | some z =>
      rw [hl] at h
      cases h
      have hv := (Scope.lookup_eq_some.mp hl).2
      refine ⟨(Layers.declare_of_visible hv).symm, ?_⟩
      rw [run_one, exec, if_pos hv, List.append_nil]

end Walked

/-- **The scopes walk over the trace of the tree.** -/
theorem Derives.walked {N : Nonterminal} {ts : List Token} {s s' : ParserState} {v : N.Value}
    (h : Derives false N ts s v s') : Walked s (traceOf N v) s' := by
  induction h with
  | toplevelSnoc _ _ ih1 ih2 =>
      show Walked _ (traceOfProgram _) _
      rw [traceOfProgram_snoc]
      exact ih1.append ih2
  | toplevelStatement _ ih =>
      show Walked _ (Statement.trace _ ++ []) _
      rw [List.append_nil]
      exact ih
  -- this error is not one about a name
  | toplevelBrace => exact ⟨rfl, by simp [ParserState.undeclared, ParserState.addError, traceOf]⟩
  | stmtSnoc _ _ ih1 ih2 =>
      show Walked _ (traceOfStmts _) _
      rw [traceOfStmts_snoc]
      exact ih1.append ih2
  | statementError hr | ifError hr | ifParenError hr | whileError hr | whileParenError hr => cases hr
  | toplevelNil | stmtNil | emptyStmt | returnNone | optArgNone | primaryNumber | inputExpr | optParamNone
  | funcNameNone => exact .refl
  | ifThen _ _ ih1 ih2 | whileStmt _ _ ih1 ih2 | levelOperator _ _ _ _ ih1 ih2 | postfixCall _ _ ih1 ih2 =>
      exact ih1.append ih2
  | ifThenElse _ _ _ ih1 ih2 ih3 => exact (ih1.append ih2).append ih3
  | assignment _ hx ih =>
      obtain rfl := assignName_name hx
      exact ih.append (walked_assignName hx)
  | argOne _ ih =>
      show Walked _ (Expression.trace _ ++ []) _
      rw [List.append_nil]
      exact ih
  | argSnoc _ _ ih1 ih2 =>
      show Walked _ (traceOfArgs _) _
      rw [traceOfArgs_snoc]
      exact ih1.append ih2
  | primaryId hx =>
      obtain rfl := useName_name hx
      exact walked_useName hx
  | blockExpr _ hp ih => exact (walked_pushScope.append ih).append (walked_popScope hp)
  -- the scope is opened before the parameters and closed behind the body
  | functionExpr _ _ _ hp ih1 ih2 ih3 =>
      exact (((walked_pushScope.append ih1).append ih2).append ih3).append (walked_popScope hp)
  | paramOne hx | funcNameSome hx =>
      obtain rfl := addVarToScope_name hx
      exact walked_addVarToScope hx
  | paramSnoc _ hx ih =>
      obtain rfl := addVarToScope_name hx
      show Walked _ (List.map _ (_ ++ _)) _
      rw [List.map_append]
      exact ih.append (walked_addVarToScope hx)
  | _ => rename_i ih; exact ih

/-! ## The traces of trees -/

theorem wellNested_names (xs : List Name) : WellNested (xs.map (fun x => (binds x : ScopeEvent Name))) := by
  induction xs with
  | nil => exact wellNested_nil
  | cons x xs ih => exact (wellNested_binds (x := x)).append ih

theorem wellNested_traceOfName (f : Option Name) : WellNested (traceOfName f) := wellNested_names f.toList

mutual

theorem Expression.wellNested_trace : ∀ e : Expression, WellNested e.trace
  | .number _ | .input => wellNested_nil
  | .var _ => wellNested_reads
  | .assignmentExpr _ e => e.wellNested_trace.append wellNested_binds
  | .binaryOperator _ a b => a.wellNested_trace.append b.wellNested_trace
  | .unaryOperator _ e => e.wellNested_trace
  | .blockExpr ss => (wellNested_traceOfStmts ss).block
  | .func f ps body => by
      have hhead := (wellNested_names ps).append (wellNested_traceOfName f)
      have hbody := body.wellNested_trace
      cases body with
      | blockExpr ss => simpa [Expression.trace] using (hhead.append (wellNested_traceOfStmts ss)).block
      | _ => simpa [Expression.trace] using (hhead.append hbody).block
  | .call t as => t.wellNested_trace.append (wellNested_traceOfArgs as)

theorem Statement.wellNested_trace : ∀ s : Statement, WellNested s.trace
  | .emptyStmt => wellNested_nil
  | .exprStmt e => e.wellNested_trace
  | .ifStmt c t none => c.wellNested_trace.append t.wellNested_trace
  | .ifStmt c t (some e) => (c.wellNested_trace.append t.wellNested_trace).append e.wellNested_trace
  | .whileStmt c b => c.wellNested_trace.append b.wellNested_trace
  | .printStmt e => e.wellNested_trace
  | .returnStmt none => wellNested_nil
  | .returnStmt (some e) => e.wellNested_trace

theorem wellNested_traceOfStmts : ∀ ss : List Statement, WellNested (traceOfStmts ss)
  | [] => wellNested_nil
  | s :: ss => s.wellNested_trace.append (wellNested_traceOfStmts ss)

theorem wellNested_traceOfArgs : ∀ es : List Expression, WellNested (traceOfArgs es)
  | [] => wellNested_nil
  | e :: es => e.wellNested_trace.append (wellNested_traceOfArgs es)

end

theorem wellNested_program (ss : List (Option Statement)) : WellNested (traceOfProgram ss) := by
  induction ss with
  | nil => exact wellNested_nil
  | cons st ss ih =>
      rw [traceOfProgram, List.flatMap_cons]
      refine WellNested.append ?_ ih
      cases st with
      | none => exact wellNested_nil
      | some s => simpa using s.wellNested_trace

/-! ## The check -/

theorem wellNested_traceOf : ∀ (N : Nonterminal) (v : N.Value), WellNested (traceOf N v)
  | .program, v | .toplevelStmtList, v => wellNested_program v
  | .toplevelStatement, none => wellNested_nil
  | .toplevelStatement, some s => by simpa [traceOf] using s.wellNested_trace
  | .stmtList, v => wellNested_traceOfStmts v
  | .statement, v | .emptyStmt, v | .exprStmt, v | .ifStmt, v | .whileStmt, v | .printStmt, v
  | .returnStmt, v => v.wellNested_trace
  | .expression, v | .assignmentExpr, v | .level _, v | .postfixExpr, v | .primary, v | .inputExpr, v
  | .blockExpr, v | .functionExpr, v => v.wellNested_trace
  | .optArgList, v | .argList, v => wellNested_traceOfArgs v
  | .optParamList, v | .paramList, v => wellNested_names v
  | .optFuncName, v => wellNested_traceOfName v

section Scopes

variable {N : Nonterminal} {ts : List Token} {s s' s1 : ParserState} {v : N.Value} {e : Expression}

/-- The innermost scope grows, and the others stay. -/
theorem Derives.grows (h : Derives false N ts s v s') (hne : s.scopes.scopes ≠ []) :
    Layers.Grows s.scopes.scopes s'.scopes.scopes := by
  rw [h.walked.scopes]
  exact (wellNested_traceOf N v).grows_run hne

/-- The scope that was opened is the one that is closed. -/
theorem scopes_restored (hg : Layers.Grows s.pushScope.scopes.scopes s1.scopes.scopes)
    (hp : s1.popScope = .ok s') : s'.scopes = s.scopes := by
  have hpop := popScope_scopes hp
  rw [hg.tail] at hpop
  obtain ⟨⟨Γ⟩, d⟩ := s
  obtain ⟨⟨Δ⟩, d'⟩ := s'
  cases hpop
  rfl

theorem blockExpr_scopes (h : Derives false .blockExpr ts s e s') : s'.scopes = s.scopes := by
  cases h with
  | blockExpr h hp => exact scopes_restored (h.grows (List.cons_ne_nil _ _)) hp

theorem functionExpr_scopes (h : Derives false .functionExpr ts s e s') : s'.scopes = s.scopes := by
  cases h with
  | functionExpr hps hf h hp =>
      have h1 := hps.grows (List.cons_ne_nil _ _)
      have h2 := hf.grows h1.ne_nil
      exact scopes_restored ((h1.trans h2).trans (h.grows h2.ne_nil)) hp

theorem undeclared_eq_nil : s.undeclared = [] ↔ ∀ x, .undeclared x ∉ s.errors := by
  rw [ParserState.undeclared, List.filterMap_eq_nil_iff]
  constructor
  · intro h x hx
    cases h _ hx
  · intro h e he
    cases e with
    | undeclared x => exact absurd he (h x)
    | unmatchedBrace | syntaxError => rfl

/-- The names reported are the reads without a binding. -/
theorem reported_iff {ss : List (Option Statement)} (h : Derives false .program ts .init ss s) :
    (∀ x, .undeclared x ∉ s.errors) ↔ Bound (traceOfProgram ss) := by
  rw [← undeclared_eq_nil, h.walked.undeclared, ← missing_iff (wellNested_program ss).keeps]
  exact Iff.rfl

end Scopes

/-- **The scope check is lexical scoping**: a parse reports no name exactly when every read has an earlier
    binding in its block or one around it, and every block and function leaves the scopes it found. -/
theorem scope_check_lexical :
    (∀ (ts : List Token) (ss : List (Option Statement)) (s : ParserState),
        Derives false .program ts .init ss s →
          ((∀ x, .undeclared x ∉ s.errors) ↔ Bound (traceOfProgram ss))) ∧
      ∀ (ts : List Token) (e : Expression) (s s' : ParserState),
        Derives false .blockExpr ts s e s' ∨ Derives false .functionExpr ts s e s' →
          s'.scopes = s.scopes :=
  ⟨fun _ _ _ h => reported_iff h, fun _ _ _ _ h => h.elim blockExpr_scopes functionExpr_scopes⟩

/-- `x = 1; print {y = x; y;};` -/
def innerBlock : List (Option Statement) :=
  [some (.exprStmt (.assignmentExpr "x" (.number 1))),
    some (.printStmt (.blockExpr [.exprStmt (.assignmentExpr "y" (.var "x")), .exprStmt (.var "y")]))]

/-- A block reads a variable from around it and one of its own. -/
theorem scope_check_lexical_innerBlock : ∃ s, Derives false .program (tokensOfProgram innerBlock) .init innerBlock s ∧
    ∀ x, .undeclared x ∉ s.errors := by
  have hshaped : toplevelShaped innerBlock = true := by decide
  obtain ⟨s, hd, _⟩ := program_renders hshaped .init (List.cons_ne_nil _ _)
  have hbound : Bound (traceOfProgram innerBlock) :=
    (missing_iff (wellNested_program innerBlock).keeps).mp (by decide)
  exact ⟨s, hd, (scope_check_lexical.1 _ _ s hd).mpr hbound⟩

end ParaCL
