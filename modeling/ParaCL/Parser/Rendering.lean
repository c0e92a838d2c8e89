import ParaCL.Parser.Acceptance
import ParaCL.Parser.Check

/-!
# `Parser.Rendering` — the grammar derives every tree once

The parser is deterministic and follows every derivation, so that a token sequence has at most one tree
(`derives_unique`). The other way round a tree of the shapes the actions build is written down with
parentheses where a node binds looser than its place asks for, and `program` derives it from these tokens
(`Program.renders`).
-/

namespace ParaCL

open Lib Bison

/-! ## Trees and tokens -/

/-- How tight a level binds. `assignment_expr` is at 0, `postfix` at 9 and `primary` at 10. -/
def Level.tightness : Level → Nat
  | .or => 1
  | .and => 2
  | .bitwiseOp => 3
  | .equality => 4
  | .relational => 5
  | .addSub => 6
  | .mulDiv => 7
  | .unary => 8

/-- How tight the production that builds a node binds. -/
def Expression.tightness : Expression → Nat
  | .assignmentExpr _ _ => 0
  | .binaryOperator op _ _ => op.level.tightness
  | .unaryOperator _ _ => 8
  | .call _ _ => 9
  | .number _ | .var _ | .input | .blockExpr _ | .func _ _ _ => 10

def BinaryOperators.token : BinaryOperators → Token
  | .logOr => .tokLogOr | .logAnd => .tokLogAnd
  | .and => .tokAnd | .xor => .tokXor | .or => .tokOr
  | .eq => .tokEq | .neq => .tokNeq
  | .less => .tokLess | .lessEq => .tokLessOrEq | .greater => .tokGreater | .greaterEq => .tokGreaterOrEq
  | .add => .tokPlus | .sub => .tokMinus
  | .mul => .tokMul | .div => .tokDiv | .remDiv => .tokRemDiv

def UnaryOperators.token : UnaryOperators → Token
  | .neg => .tokMinus | .plus => .tokPlus | .not => .tokNot

/-- The tokens `ts` of a node, in a place that asks for tightness `n`. -/
def Expression.inPlace (e : Expression) (n : Nat) (ts : List Token) : List Token :=
  if e.tightness < n then [.tokLeftParen] ++ ts ++ [.tokRightParen] else ts

/-- `opt_param_list`. -/
def tokensOfParams : List Name → List Token
  | [] => []
  | x :: xs => .tokId x :: xs.flatMap (fun y => [.tokComma, .tokId y])

/-- `opt_func_name`. -/
def tokensOfName : Option Name → List Token
  | none => []
  | some x => [.tokColon, .tokId x]

mutual

/-- The tokens of an expression, without parentheses around all of it. -/
def Expression.tokens : Expression → List Token
  | .number n => [.tokNumber n]
  | .var x => [.tokId x]
  | .assignmentExpr x e => [.tokId x, .tokAssign] ++ e.inPlace 0 e.tokens
  | .binaryOperator op a b =>
      a.inPlace op.level.tightness a.tokens ++ [op.token] ++ b.inPlace (op.level.tightness + 1) b.tokens
  | .unaryOperator op e => [op.token] ++ e.inPlace 8 e.tokens
  | .input => [.tokInput]
  | .blockExpr ss => [.tokLeftBrace] ++ tokensOfStmts ss ++ [.tokRightBrace]
  | .func f ps body =>
      [.tokFunc, .tokLeftParen] ++ tokensOfParams ps ++ [.tokRightParen] ++ tokensOfName f ++ body.tokens
  | .call t as => t.inPlace 9 t.tokens ++ [.tokLeftParen] ++ tokensOfArgs as ++ [.tokRightParen]

def Statement.tokens : Statement → List Token
  | .emptyStmt => [.tokSemicolon]
  | .exprStmt e => e.inPlace 0 e.tokens ++ [.tokSemicolon]
  | .ifStmt c t none => [.tokIf, .tokLeftParen] ++ c.inPlace 0 c.tokens ++ [.tokRightParen] ++ t.tokens
  | .ifStmt c t (some e) =>
      [.tokIf, .tokLeftParen] ++ c.inPlace 0 c.tokens ++ [.tokRightParen] ++ t.tokens ++ [.tokElse]
        ++ e.tokens
  | .whileStmt c b =>
      [.tokWhile, .tokLeftParen] ++ c.inPlace 0 c.tokens ++ [.tokRightParen] ++ b.tokens
  | .printStmt e => [.tokPrint] ++ e.inPlace 0 e.tokens ++ [.tokSemicolon]
  | .returnStmt none => [.tokReturn] ++ [.tokSemicolon]
  | .returnStmt (some e) => [.tokReturn] ++ e.inPlace 0 e.tokens ++ [.tokSemicolon]

def tokensOfStmts : List Statement → List Token
  | [] => []
  | s :: ss => s.tokens ++ tokensOfStmts ss

/-- `opt_arg_list`. -/
def tokensOfArgs : List Expression → List Token
  | [] => []
  | e :: es => e.inPlace 0 e.tokens ++ tokensOfMoreArgs es

def tokensOfMoreArgs : List Expression → List Token
  | [] => []
  | e :: es => [.tokComma] ++ e.inPlace 0 e.tokens ++ tokensOfMoreArgs es

end

/-- A top-level statement; the null one stands for an unmatched brace. -/
def tokensOfToplevel : Option Statement → List Token
  | none => [.tokRightBrace]
  | some s => s.tokens

/-- A program, with its end of input. -/
def tokensOfProgram (ss : List (Option Statement)) : List Token :=
  ss.flatMap tokensOfToplevel ++ [.tokEof]

/-! ## The shapes the actions build -/

mutual

/-- Branches, loop bodies and function bodies are blocks. -/
def Expression.shaped : Expression → Bool
  | .number _ | .var _ | .input => true
  | .assignmentExpr _ e => e.shaped
  | .binaryOperator _ a b => a.shaped && b.shaped
  | .unaryOperator _ e => e.shaped
  | .blockExpr ss => stmtsShaped ss
  | .func _ _ body => body.isBlock && body.shaped
  | .call t as => t.shaped && argsShaped as

def Statement.shaped : Statement → Bool
  | .emptyStmt => true
  | .exprStmt e => e.shaped
  | .ifStmt c t none => c.shaped && (t.isBlock && t.shaped)
  | .ifStmt c t (some e) => c.shaped && (t.isBlock && t.shaped) && (e.isBlock && e.shaped)
  | .whileStmt c b => c.shaped && (b.isBlock && b.shaped)
  | .printStmt e => e.shaped
  | .returnStmt none => true
  | .returnStmt (some e) => e.shaped

def stmtsShaped : List Statement → Bool
  | [] => true
  | s :: ss => s.shaped && stmtsShaped ss

def argsShaped : List Expression → Bool
  | [] => true
  | e :: es => e.shaped && argsShaped es

end

def toplevelShaped (ss : List (Option Statement)) : Bool := ss.all (fun st => st.all Statement.shaped)

/-! ## Derivations from any state -/

section Names

variable {s s' : ParserState} {x y : Name}

theorem addVarToScope_total (hne : s.scopes.scopes ≠ []) :
    ∃ s', s.addVarToScope x = .ok (x, s') ∧ Layers.Grows s.scopes.scopes s'.scopes.scopes := by
  obtain ⟨⟨Γ⟩, d⟩ := s
  exact ⟨_, addVarToScope_declare hne, Layers.grows_declare hne⟩

theorem assignName_total (hne : s.scopes.scopes ≠ []) :
    ∃ s', s.assignName x = .ok (x, s') ∧ Layers.Grows s.scopes.scopes s'.scopes.scopes := by
  obtain ⟨⟨Γ⟩, d⟩ := s
  exact ⟨_, assignName_declare hne, Layers.grows_declare hne⟩

theorem useName_total (hne : s.scopes.scopes ≠ []) :
    ∃ s', s.useName x = .ok (x, s') ∧ Layers.Grows s.scopes.scopes s'.scopes.scopes := by
  unfold ParserState.useName
  by_cases hv : Layers.Visible x s.scopes.scopes
  · rw [Scope.lookup_of_visible hv]
    exact ⟨s, rfl, .refl hne⟩
  · rw [Scope.lookup_eq_none.mpr hv]
    exact addVarToScope_total (s := s.addError (.undeclared x)) hne

theorem popScope_total {Γ : Layers Name} {s1 : ParserState} (hne : Γ ≠ [])
    (hg : Layers.Grows ([] :: Γ) s1.scopes.scopes) :
    ∃ s', s1.popScope = .ok s' ∧ Layers.Grows Γ s'.scopes.scopes := by
  obtain ⟨⟨Δ⟩, d⟩ := s1
  cases Δ with
  | nil => exact absurd rfl hg.ne_nil
  | cons l Δ =>
      obtain rfl : Δ = Γ := hg.tail
      exact ⟨_, rfl, .refl hne⟩

theorem addVarToScope_name (h : s.addVarToScope x = .ok (y, s')) : y = x := by
  obtain ⟨⟨Γ⟩, d⟩ := s
  cases Γ with
  | nil => cases h
  | cons l Γ => exact (addVarToScope_ok (List.cons_ne_nil l Γ) h).1

theorem assignName_name (h : s.assignName x = .ok (y, s')) : y = x := by
  unfold ParserState.assignName at h
  cases hl : s.scopes.lookup x with
  | none => rw [hl] at h; exact addVarToScope_name h
  | some z => rw [hl] at h; cases h; exact (Scope.lookup_eq_some.mp hl).1

theorem useName_name (h : s.useName x = .ok (y, s')) : y = x := by
  unfold ParserState.useName at h
  cases hl : s.scopes.lookup x with
  | none => rw [hl] at h; exact addVarToScope_name h
  | some z => rw [hl] at h; cases h; exact (Scope.lookup_eq_some.mp hl).1

end Names

/-- The nonterminal derives the value from the tokens, whatever names are in scope. -/
def Renders (N : Nonterminal) (ts : List Token) (v : N.Value) : Prop :=
  ∀ s : ParserState, s.scopes.scopes ≠ [] →
    ∃ s', Derives false N ts s v s' ∧ Layers.Grows s.scopes.scopes s'.scopes.scopes

namespace Renders

variable {M K J N : Nonterminal} {ts us vs ws : List Token} {x : M.Value} {y : K.Value} {z : J.Value}
  {v : N.Value}

theorem leaf (f : ∀ {s}, Derives false N ts s v s) : Renders N ts v :=
  fun s hne => ⟨s, f, .refl hne⟩

theorem map (h : Renders M ts x) (f : ∀ {s s'}, Derives false M ts s x s' → Derives false N us s v s') :
    Renders N us v := by
  intro s hne
  obtain ⟨s', hd, hg⟩ := h s hne
  exact ⟨s', f hd, hg⟩

theorem map2 (h : Renders M ts x) (h' : Renders K us y)
    (f : ∀ {s s1 s'}, Derives false M ts s x s1 → Derives false K us s1 y s' →
      Derives false N vs s v s') : Renders N vs v := by
  intro s hne
  obtain ⟨s1, h1, hg1⟩ := h s hne
  obtain ⟨s2, h2, hg2⟩ := h' s1 hg1.ne_nil
  exact ⟨s2, f h1 h2, hg1.trans hg2⟩

theorem map3 (h : Renders M ts x) (h' : Renders K us y) (h'' : Renders J vs z)
    (f : ∀ {s s1 s2 s'}, Derives false M ts s x s1 → Derives false K us s1 y s2 →
      Derives false J vs s2 z s' → Derives false N ws s v s') : Renders N ws v := by
  intro s hne
  obtain ⟨s1, h1, hg1⟩ := h s hne
  obtain ⟨s2, h2, hg2⟩ := h' s1 hg1.ne_nil
  obtain ⟨s3, h3, hg3⟩ := h'' s2 hg2.ne_nil
  exact ⟨s3, f h1 h2 h3, (hg1.trans hg2).trans hg3⟩

theorem assignment {a : Name} {e : Expression} (h : Renders .assignmentExpr ts e) :
    Renders .assignmentExpr ([.tokId a, .tokAssign] ++ ts) (.assignmentExpr a e) := by
  intro s hne
  obtain ⟨s1, h1, hg1⟩ := h s hne
  obtain ⟨s2, hx, hg2⟩ := assignName_total (x := a) hg1.ne_nil
  exact ⟨s2, .assignment h1 hx, hg1.trans hg2⟩

theorem primaryId {a : Name} : Renders .primary [.tokId a] (.var a) := by
  intro s hne
  obtain ⟨s1, hx, hg⟩ := useName_total (x := a) hne
  exact ⟨s1, .primaryId hx, hg⟩

theorem paramOne {a : Name} : Renders .paramList [.tokId a] [a] := by
  intro s hne
  obtain ⟨s1, hx, hg⟩ := addVarToScope_total (x := a) hne
  exact ⟨s1, .paramOne hx, hg⟩

theorem paramSnoc {a : Name} {ps : List Name} (h : Renders .paramList ts ps) :
    Renders .paramList (ts ++ [.tokComma, .tokId a]) (ps ++ [a]) := by
  intro s hne
  obtain ⟨s1, h1, hg1⟩ := h s hne
  obtain ⟨s2, hx, hg2⟩ := addVarToScope_total (x := a) hg1.ne_nil
  exact ⟨s2, .paramSnoc h1 hx, hg1.trans hg2⟩

theorem funcNameSome {a : Name} : Renders .optFuncName [.tokColon, .tokId a] (some a) := by
  intro s hne
  obtain ⟨s1, hx, hg⟩ := addVarToScope_total (x := a) hne
  exact ⟨s1, .funcNameSome hx, hg⟩

theorem blockExpr {ss : List Statement} (h : Renders .stmtList ts ss) :
    Renders .blockExpr ([.tokLeftBrace] ++ ts ++ [.tokRightBrace]) (.blockExpr ss) := by
  intro s hne
  obtain ⟨s1, h1, hg1⟩ := h s.pushScope (List.cons_ne_nil _ _)
  obtain ⟨s2, hp, hg2⟩ := popScope_total hne hg1
  exact ⟨s2, .blockExpr h1 hp, hg2⟩

theorem functionExpr {f : Option Name} {ps : List Name} {ss : List Statement}
    (hps : Renders .optParamList ts ps) (hf : Renders .optFuncName us f) (h : Renders .stmtList vs ss) :
    Renders .functionExpr
      ([.tokFunc, .tokLeftParen] ++ ts ++ [.tokRightParen] ++ us ++ [.tokLeftBrace] ++ vs
        ++ [.tokRightBrace]) (.func f ps (.blockExpr ss)) := by
  intro s hne
  obtain ⟨s1, h1, hg1⟩ := hps s.pushScope (List.cons_ne_nil _ _)
  obtain ⟨s2, h2, hg2⟩ := hf s1 hg1.ne_nil
  obtain ⟨s3, h3, hg3⟩ := h s2 hg2.ne_nil
  obtain ⟨s4, hp, hg4⟩ := popScope_total hne ((hg1.trans hg2).trans hg3)
  exact ⟨s4, .functionExpr h1 h2 h3 hp, hg4⟩

end Renders

/-- **Derivations do not depend on the names in scope.** -/
theorem Derives.renders {N : Nonterminal} {ts : List Token} {s s' : ParserState} {v : N.Value}
    (h : Derives false N ts s v s') : Renders N ts v := by
  induction h with
  | program _ ih => exact ih.map .program
  | toplevelNil => exact .leaf .toplevelNil
  | toplevelSnoc _ _ ih1 ih2 => exact ih1.map2 ih2 .toplevelSnoc
  | toplevelStatement _ ih => exact ih.map .toplevelStatement
  | toplevelBrace => exact fun s hne => ⟨_, .toplevelBrace, .refl hne⟩
  | stmtNil => exact .leaf .stmtNil
  | stmtSnoc _ _ ih1 ih2 => exact ih1.map2 ih2 .stmtSnoc
  | statementIf _ ih => exact ih.map .statementIf
  | statementWhile _ ih => exact ih.map .statementWhile
  | statementPrint _ ih => exact ih.map .statementPrint
  | statementReturn _ ih => exact ih.map .statementReturn
  | statementExpr _ ih => exact ih.map .statementExpr
  | statementEmpty _ ih => exact ih.map .statementEmpty
  | statementError hr | ifError hr | ifParenError hr | whileError hr | whileParenError hr => cases hr
  | emptyStmt => exact .leaf .emptyStmt
  | exprStmt _ ih => exact ih.map .exprStmt
  | ifThen _ _ ih1 ih2 => exact ih1.map2 ih2 .ifThen
  | ifThenElse _ _ _ ih1 ih2 ih3 => exact ih1.map3 ih2 ih3 .ifThenElse
  | whileStmt _ _ ih1 ih2 => exact ih1.map2 ih2 .whileStmt
  | printStmt _ ih => exact ih.map .printStmt
  | returnNone => exact .leaf .returnNone
  | returnSome _ ih => exact ih.map .returnSome
  | expression _ ih => exact ih.map .expression
  | assignmentOr _ ih => exact ih.map .assignmentOr
  -- an action with a name returns the same name, whatever the scopes are
  | assignment _ hx ih =>
      obtain rfl := assignName_name hx
      exact ih.assignment
  | levelOperand hm _ ih => exact ih.map (.levelOperand hm)
  | levelOperator hm hop _ _ ih1 ih2 => exact ih1.map2 ih2 (.levelOperator hm hop)
  | unaryOperator hop _ ih => exact ih.map (.unaryOperator hop)
  | unaryPostfix _ ih => exact ih.map .unaryPostfix
  | postfixPrimary _ ih => exact ih.map .postfixPrimary
  | postfixCall _ _ ih1 ih2 => exact ih1.map2 ih2 .postfixCall
  | optArgNone => exact .leaf .optArgNone
  | optArgSome _ ih => exact ih.map .optArgSome
  | argOne _ ih => exact ih.map .argOne
  | argSnoc _ _ ih1 ih2 => exact ih1.map2 ih2 .argSnoc
  | primaryNumber => exact .leaf .primaryNumber
  | primaryId hx =>
      obtain rfl := useName_name hx
      exact .primaryId
  | primaryParen _ ih => exact ih.map .primaryParen
  | primaryFunction _ ih => exact ih.map .primaryFunction
  | primaryInput _ ih => exact ih.map .primaryInput
  | primaryBlock _ ih => exact ih.map .primaryBlock
  | inputExpr => exact .leaf .inputExpr
  -- the scope opened in front is closed again
  | blockExpr _ _ ih => exact ih.blockExpr
  | functionExpr _ _ _ _ ih1 ih2 ih3 => exact ih1.functionExpr ih2 ih3
  | optParamNone => exact .leaf .optParamNone
  | optParamSome _ ih => exact ih.map .optParamSome
  | paramOne hx =>
      obtain rfl := addVarToScope_name hx
      exact .paramOne
  | paramSnoc _ hx ih =>
      obtain rfl := addVarToScope_name hx
      exact ih.paramSnoc
  | funcNameNone => exact .leaf .funcNameNone
  | funcNameSome hx =>
      obtain rfl := addVarToScope_name hx
      exact .funcNameSome

/-! ## Uniqueness -/

/-- A lexer that hands out a list of tokens. -/
def tokensLex : List Token → Except Escape (Lexed × Location × List Token)
  | [] => .ok (.token .tokEof, ⟨1, 1, 1, 1⟩, [])
  | t :: ts => .ok (.token t, ⟨1, 1, 1, 1⟩, ts)

/-- The token as the parser gets it from such a lexer. -/
def placed (t : Token) : Terminal × SemanticValue := (t.terminal, .token t ⟨1, 1, 1, 1⟩)

section Unique

variable {describe : List Terminal → Terminal → String} {ts us : List Token}

theorem located_placed : Located (ts.map placed) ts := by
  induction ts with
  | nil => exact located_nil.mpr rfl
  | cons t ts ih => exact located_cons.mpr ⟨_, _, rfl, ih⟩

theorem delivers_placed :
    Delivers (parserActions tokensLex describe) (ts ++ us) (ts.map placed) us := by
  induction ts with
  | nil => exact .nil
  | cons t ts ih => exact .cons rfl ih

/-- **At most one tree** is derived from a token sequence. -/
theorem derives_unique {s s' p p' : ParserState} {ss ss' : List (Option Statement)}
    (h : Derives false .program ts s ss p) (h' : Derives false .program ts s' ss' p') : ss = ss' := by
  have hne : ParserState.init.scopes.scopes ≠ [] := List.cons_ne_nil _ _
  obtain ⟨p, h, _⟩ := h.renders .init hne
  obtain ⟨p', h', _⟩ := h'.renders .init hne
  have hend : Delivers (parserActions tokensLex (fun _ _ => "")) ts
      (ts.map placed ++ [(.tokEof, .token .tokEof ⟨1, 1, 1, 1⟩)]) [] := by
    have htokens : Delivers (parserActions tokensLex (fun _ _ => "")) (ts ++ []) (ts.map placed) [] :=
      delivers_placed
    rw [List.append_nil] at htokens
    exact htokens.append (.cons rfl .nil)
  obtain ⟨c, hends, _, hst⟩ := accepts_of_derives (s := .init []) h located_placed hend
  obtain ⟨c', hends', _, hst'⟩ := accepts_of_derives (s := .init []) h' located_placed hend
  obtain ⟨rfl, _⟩ := hends.unique hends'
  rw [hst] at hst'
  simpa using hst'

end Unique

/-! ## The rendering is derived -/

/-- The expression is derived in a place of this tightness. -/
def RendersAt : Nat → List Token → Expression → Prop
  | 0 => Renders .assignmentExpr
  | 1 => Renders (.level .or)
  | 2 => Renders (.level .and)
  | 3 => Renders (.level .bitwiseOp)
  | 4 => Renders (.level .equality)
  | 5 => Renders (.level .relational)
  | 6 => Renders (.level .addSub)
  | 7 => Renders (.level .mulDiv)
  | 8 => Renders (.level .unary)
  | 9 => Renders .postfixExpr
  | _ => Renders .primary

section Places

variable {ts us : List Token} {e : Expression} {m n : Nat}

theorem rendersAt_level {l : Level} : RendersAt l.tightness ts e ↔ Renders (.level l) ts e := by
  cases l <;> exact Iff.rfl

theorem rendersAt_operand {l m : Level} (hm : l.operand = some m) :
    RendersAt (l.tightness + 1) ts e ↔ Renders (.level m) ts e := by
  cases l <;> cases hm <;> exact Iff.rfl

/-- A tighter production serves in a looser place. -/
theorem RendersAt.loosen (h : RendersAt (n + 1) ts e) : RendersAt n ts e := by
  rcases n with _ | _ | _ | _ | _ | _ | _ | _ | _ | _ | n
  · exact Renders.map (M := .level .or) h .assignmentOr
  · exact Renders.map (M := .level .and) h (.levelOperand rfl)
  · exact Renders.map (M := .level .bitwiseOp) h (.levelOperand rfl)
  · exact Renders.map (M := .level .equality) h (.levelOperand rfl)
  · exact Renders.map (M := .level .relational) h (.levelOperand rfl)
  · exact Renders.map (M := .level .addSub) h (.levelOperand rfl)
  · exact Renders.map (M := .level .mulDiv) h (.levelOperand rfl)
  · exact Renders.map (M := .level .unary) h (.levelOperand rfl)
  · exact Renders.map (M := .postfixExpr) h .unaryPostfix
  · exact Renders.map (M := .primary) h .postfixPrimary
  · exact h

theorem RendersAt.mono (h : RendersAt n ts e) (hmn : m ≤ n) : RendersAt m ts e := by
  induction hmn with
  | refl => exact h
  | step _ ih => exact ih h.loosen

theorem RendersAt.parens (h : RendersAt 0 ts e) (hn : n ≤ 10) :
    RendersAt n ([.tokLeftParen] ++ ts ++ [.tokRightParen]) e := by
  have hexpr : Renders .expression ts e := Renders.map (M := .assignmentExpr) h .expression
  have hprimary : RendersAt 10 ([.tokLeftParen] ++ ts ++ [.tokRightParen]) e := hexpr.map .primaryParen
  exact hprimary.mono hn

/-- **Parentheses where they are needed.** -/
theorem RendersAt.inPlace (h : RendersAt e.tightness ts e) (hn : n ≤ 10) :
    RendersAt n (e.inPlace n ts) e := by
  unfold Expression.inPlace
  split
  · exact (h.mono (Nat.zero_le _)).parens hn
  · exact h.mono (by omega)

theorem RendersAt.expression (h : RendersAt e.tightness ts e) :
    Renders .expression (e.inPlace 0 ts) e :=
  Renders.map (M := .assignmentExpr) (h.inPlace (Nat.zero_le 10)) .expression

theorem token_mem (op : BinaryOperators) : (op.token, op) ∈ op.level.operators := by
  cases op <;> decide

theorem unary_token_mem (op : UnaryOperators) : (op.token, op) ∈ unaryOperators := by
  cases op <;> decide

theorem tightness_le (l : Level) : l.tightness ≤ 8 := by cases l <;> decide

theorem RendersAt.binary {op : BinaryOperators} {a b : Expression} (ha : RendersAt a.tightness ts a)
    (hb : RendersAt b.tightness us b) :
    RendersAt op.level.tightness (a.inPlace op.level.tightness ts ++ [op.token] ++
      b.inPlace (op.level.tightness + 1) us) (.binaryOperator op a b) := by
  obtain ⟨m, hm, _⟩ := below_level op
  have hle := tightness_le op.level
  have hleft := rendersAt_level.mp (ha.inPlace (n := op.level.tightness) (by omega))
  have hright := (rendersAt_operand hm).mp (hb.inPlace (n := op.level.tightness + 1) (by omega))
  exact rendersAt_level.mpr (hleft.map2 hright (.levelOperator hm (token_mem op)))

theorem paramList_renders (x : Name) (xs : List Name) : Renders .paramList
    (.tokId x :: xs.flatMap (fun y => [.tokComma, .tokId y])) (x :: xs) := by
  induction xs using List.reverseRecOn with
  | nil => exact .paramOne
  | append_singleton xs y ih =>
      rw [List.flatMap_append, ← List.cons_append, ← List.cons_append]
      exact ih.paramSnoc

theorem params_render (ps : List Name) : Renders .optParamList (tokensOfParams ps) ps := by
  cases ps with
  | nil => exact .leaf .optParamNone
  | cons x xs => exact (paramList_renders x xs).map .optParamSome

theorem name_renders (f : Option Name) : Renders .optFuncName (tokensOfName f) f := by
  cases f with
  | none => exact .leaf .funcNameNone
  | some x => exact .funcNameSome

end Places

mutual

theorem Expression.rendersAt : ∀ e : Expression, e.shaped = true → RendersAt e.tightness e.tokens e
  | .number n, _ => Renders.leaf .primaryNumber
  | .var x, _ => Renders.primaryId
  | .assignmentExpr x e, h => Renders.assignment ((e.rendersAt h).inPlace (Nat.zero_le 10))
  | .binaryOperator op a b, h => by
      obtain ⟨ha, hb⟩ := (Bool.and_eq_true_iff).mp h
      exact (a.rendersAt ha).binary (b.rendersAt hb)
  | .unaryOperator op e, h => by
      have hoperand : Renders (.level .unary) (e.inPlace 8 e.tokens) e :=
        (e.rendersAt h).inPlace (n := 8) (by omega)
      exact hoperand.map (.unaryOperator (unary_token_mem op))
  | .input, _ => Renders.map (M := .inputExpr) (.leaf .inputExpr) .primaryInput
  | .blockExpr ss, h => by
      have hstmts := stmtsRender ss (.leaf .stmtNil) h
      exact (Renders.blockExpr hstmts).map .primaryBlock
  | .func f ps body, h => by
      cases body with
      | blockExpr ss =>
          have hstmts := stmtsRender ss (.leaf .stmtNil) h
          have hfunc := (params_render ps).functionExpr (name_renders f) hstmts
          have hprimary := hfunc.map (N := .primary) .primaryFunction
          show Renders .primary _ _
          simpa only [Expression.tokens, List.append_assoc, List.nil_append] using hprimary
      | _ => cases h
  | .call t as, h => by
      obtain ⟨ht, has⟩ := (Bool.and_eq_true_iff).mp h
      have htarget : Renders .postfixExpr (t.inPlace 9 t.tokens) t :=
        (t.rendersAt ht).inPlace (n := 9) (by omega)
      exact htarget.map2 (argsRender as has) .postfixCall

theorem Statement.renders : ∀ s : Statement, s.shaped = true → Renders .statement s.tokens s
  | .emptyStmt, _ => Renders.map (M := .emptyStmt) (.leaf .emptyStmt) .statementEmpty
  | .exprStmt e, h =>
      ((e.rendersAt h).expression.map (N := .exprStmt) .exprStmt).map .statementExpr
  | .ifStmt c t none, h => by
      obtain ⟨hc, ht⟩ := (Bool.and_eq_true_iff).mp h
      cases t with
      | blockExpr ts =>
          have hthen := Renders.blockExpr (stmtsRender ts (.leaf .stmtNil) ht)
          exact ((c.rendersAt hc).expression.map2 hthen (N := .ifStmt) .ifThen).map .statementIf
      | _ => cases ht
  | .ifStmt c t (some e), h => by
      obtain ⟨hct, he⟩ := (Bool.and_eq_true_iff).mp h
      obtain ⟨hc, ht⟩ := (Bool.and_eq_true_iff).mp hct
      cases t with
      | blockExpr ts =>
          cases e with
          | blockExpr es =>
              have hthen := Renders.blockExpr (stmtsRender ts (.leaf .stmtNil) ht)
              have helse := Renders.blockExpr (stmtsRender es (.leaf .stmtNil) he)
              exact ((c.rendersAt hc).expression.map3 hthen helse (N := .ifStmt) .ifThenElse).map
                .statementIf
          | _ => cases he
      | _ => cases ht
  | .whileStmt c b, h => by
      obtain ⟨hc, hb⟩ := (Bool.and_eq_true_iff).mp h
      cases b with
      | blockExpr ts =>
          have hbody := Renders.blockExpr (stmtsRender ts (.leaf .stmtNil) hb)
          exact ((c.rendersAt hc).expression.map2 hbody (N := .whileStmt) .whileStmt).map .statementWhile
      | _ => cases hb
  | .printStmt e, h =>
      ((e.rendersAt h).expression.map (N := .printStmt) .printStmt).map .statementPrint
  | .returnStmt none, _ => Renders.map (M := .returnStmt) (.leaf .returnNone) .statementReturn
  | .returnStmt (some e), h =>
      ((e.rendersAt h).expression.map (N := .returnStmt) .returnSome).map .statementReturn

/-- The statements of a list are read one after the other. -/
theorem stmtsRender : ∀ (ss : List Statement) {ts : List Token} {pre : List Statement},
    Renders .stmtList ts pre → stmtsShaped ss = true →
    Renders .stmtList (ts ++ tokensOfStmts ss) (pre ++ ss)
  | [], ts, pre, hpre, _ => by
      rw [tokensOfStmts, List.append_nil, List.append_nil]
      exact hpre
  | s :: ss, ts, pre, hpre, h => by
      obtain ⟨hs, hss⟩ := (Bool.and_eq_true_iff).mp h
      rw [tokensOfStmts, ← List.append_assoc, List.append_cons]
      exact stmtsRender ss (hpre.map2 (s.renders hs) .stmtSnoc) hss

theorem argsRender : ∀ as : List Expression, argsShaped as = true →
    Renders .optArgList (tokensOfArgs as) as
  | [], _ => .leaf .optArgNone
  | e :: es, h => by
      obtain ⟨he, hes⟩ := (Bool.and_eq_true_iff).mp h
      have hone : Renders .argList _ [e] := (e.rendersAt he).expression.map .argOne
      exact (moreArgsRender es hone hes).map .optArgSome

theorem moreArgsRender : ∀ (as : List Expression) {ts : List Token} {pre : List Expression},
    Renders .argList ts pre → argsShaped as = true →
    Renders .argList (ts ++ tokensOfMoreArgs as) (pre ++ as)
  | [], ts, pre, hpre, _ => by
      rw [tokensOfMoreArgs, List.append_nil, List.append_nil]
      exact hpre
  | e :: es, ts, pre, hpre, h => by
      obtain ⟨he, hes⟩ := (Bool.and_eq_true_iff).mp h
      rw [tokensOfMoreArgs, ← List.append_assoc, ← List.append_assoc, List.append_cons pre]
      exact moreArgsRender es (hpre.map2 (e.rendersAt he).expression .argSnoc) hes

end

/-- Top-level statements are read one after the other, too. -/
theorem toplevelRenders (ss : List (Option Statement)) {ts : List Token} {pre : List (Option Statement)}
    (hpre : Renders .toplevelStmtList ts pre) (h : toplevelShaped ss = true) :
    Renders .toplevelStmtList (ts ++ ss.flatMap tokensOfToplevel) (pre ++ ss) := by
  induction ss generalizing ts pre with
  | nil =>
      rw [List.flatMap_nil, List.append_nil, List.append_nil]
      exact hpre
  | cons st ss ih =>
      obtain ⟨hst, hss⟩ := (Bool.and_eq_true_iff).mp (show (st.all _ && ss.all _) = true from h)
      rw [List.flatMap_cons, ← List.append_assoc, List.append_cons]
      refine ih ?_ hss
      cases st with
      | none =>
          have hbrace : Renders .toplevelStatement [.tokRightBrace] none :=
            fun s hne => ⟨_, .toplevelBrace, .refl hne⟩
          exact hpre.map2 hbrace .toplevelSnoc
      | some s =>
          have hstmt : Renders .toplevelStatement s.tokens (some s) :=
            (s.renders hst).map .toplevelStatement
          exact hpre.map2 hstmt .toplevelSnoc

/-- **A tree is derived from its rendering.** -/
theorem program_renders {ss : List (Option Statement)} (h : toplevelShaped ss = true) :
    Renders .program (tokensOfProgram ss) ss :=
  (toplevelRenders ss (.leaf .toplevelNil) h).map .program

/-! ## Every derived tree has the shapes -/

/-- The value of a nonterminal has the shapes. -/
def Shaped : (N : Nonterminal) → N.Value → Prop
  | .program, v | .toplevelStmtList, v => toplevelShaped v = true
  | .toplevelStatement, v => v.all Statement.shaped = true
  | .stmtList, v => stmtsShaped v = true
  | .statement, v | .emptyStmt, v | .exprStmt, v | .ifStmt, v | .whileStmt, v | .printStmt, v
  | .returnStmt, v => v.shaped = true
  | .expression, v | .assignmentExpr, v | .level _, v | .postfixExpr, v | .primary, v | .inputExpr, v
  | .functionExpr, v => v.shaped = true
  | .blockExpr, v => (v.isBlock && v.shaped) = true
  | .optArgList, v | .argList, v => argsShaped v = true
  | .optParamList, _ | .paramList, _ | .optFuncName, _ => True

theorem stmtsShaped_snoc {ss : List Statement} {s : Statement} :
    stmtsShaped (ss ++ [s]) = (stmtsShaped ss && s.shaped) := by
  induction ss with
  | nil => simp [stmtsShaped]
  | cons t ss ih => rw [List.cons_append, stmtsShaped, stmtsShaped, ih, Bool.and_assoc]

theorem argsShaped_snoc {es : List Expression} {e : Expression} :
    argsShaped (es ++ [e]) = (argsShaped es && e.shaped) := by
  induction es with
  | nil => simp [argsShaped]
  | cons t es ih => rw [List.cons_append, argsShaped, argsShaped, ih, Bool.and_assoc]

theorem toplevelShaped_snoc {ss : List (Option Statement)} {st : Option Statement} :
    toplevelShaped (ss ++ [st]) = (toplevelShaped ss && st.all Statement.shaped) := by
  simp [toplevelShaped]

theorem Derives.shaped {N : Nonterminal} {ts : List Token} {s s' : ParserState} {v : N.Value}
    (h : Derives false N ts s v s') : Shaped N v := by
  induction h with
  | toplevelSnoc _ _ ih1 ih2 => exact toplevelShaped_snoc.trans (Bool.and_eq_true_iff.mpr ⟨ih1, ih2⟩)
  | stmtSnoc _ _ ih1 ih2 => exact stmtsShaped_snoc.trans (Bool.and_eq_true_iff.mpr ⟨ih1, ih2⟩)
  | argSnoc _ _ ih1 ih2 => exact argsShaped_snoc.trans (Bool.and_eq_true_iff.mpr ⟨ih1, ih2⟩)
  | argOne _ ih => exact Bool.and_eq_true_iff.mpr ⟨ih, rfl⟩
  | statementError hr | ifError hr | ifParenError hr | whileError hr | whileParenError hr => cases hr
  | ifThen _ _ ih1 ih2 | whileStmt _ _ ih1 ih2 | levelOperator _ _ _ _ ih1 ih2 | postfixCall _ _ ih1 ih2 =>
      exact Bool.and_eq_true_iff.mpr ⟨ih1, ih2⟩
  | ifThenElse _ _ _ ih1 ih2 ih3 =>
      exact Bool.and_eq_true_iff.mpr ⟨Bool.and_eq_true_iff.mpr ⟨ih1, ih2⟩, ih3⟩
  | primaryBlock _ ih => exact (Bool.and_eq_true_iff.mp ih).2
  | toplevelNil | toplevelBrace | stmtNil | emptyStmt | returnNone | optArgNone | primaryNumber | primaryId
  | inputExpr => rfl
  | optParamNone | optParamSome | paramOne | paramSnoc | funcNameNone | funcNameSome => trivial
  | functionExpr _ _ _ _ _ _ ih => exact ih
  | _ => rename_i ih; exact ih

/-- **The grammar is unambiguous and expresses every tree**: a token sequence has at most one, the trees
    derived have the shapes, and a tree of the shapes is derived from its rendering. -/
theorem unambiguous_expressive :
    (∀ (ts : List Token) (s s' p p' : ParserState) (ss ss' : List (Option Statement)),
        Derives false .program ts s ss p → Derives false .program ts s' ss' p' → ss = ss') ∧
      (∀ (ts : List Token) (s p : ParserState) (ss : List (Option Statement)),
        Derives false .program ts s ss p → toplevelShaped ss = true) ∧
      ∀ ss : List (Option Statement), toplevelShaped ss = true →
        ∃ p, Derives false .program (tokensOfProgram ss) .init ss p := by
  refine ⟨fun _ _ _ _ _ _ _ h h' => derives_unique h h', fun _ _ _ _ h => h.shaped, ?_⟩
  intro ss h
  obtain ⟨p, hd, _⟩ := program_renders h .init (List.cons_ne_nil _ _)
  exact ⟨p, hd⟩

/-- `print (1 + 2) * 3;` -/
def sumTimesThree : List (Option Statement) :=
  [some (.printStmt (.binaryOperator .mul (.binaryOperator .add (.number 1) (.number 2)) (.number 3)))]

/-- Where parentheses are needed they are there, and there is no second tree. -/
theorem unambiguous_expressive_sumTimesThree :
    (∃ p, Derives false .program (tokensOfProgram sumTimesThree) .init sumTimesThree p) ∧
      ∀ s ss p, Derives false .program (tokensOfProgram sumTimesThree) s ss p → ss = sumTimesThree := by
  obtain ⟨hunique, _, hexpressive⟩ := unambiguous_expressive
  obtain ⟨p, hd⟩ := hexpressive sumTimesThree (by decide)
  exact ⟨⟨p, hd⟩, fun s ss p' hd' => hunique _ _ _ _ _ _ _ hd' hd⟩

end ParaCL
