import ParaCL.Parser.Check
import ParaCL.Parser.Machine

/-!
# `Parser.Derivations` — the generated parser builds what the grammar derives

A derivation of the machine (`Bison.ReadsAll`) over tokens with locations is one of `Derives` over the
tokens, and the other way round. With `Lib.BisonCorrect` this makes acceptance by the machine the same
thing as a derivation from `program` that records no error.
-/

namespace ParaCL

open Lib Bison

/-! ## The state -/

section Core

variable {s s' : MyParser} {p : ParserState} {x y : Name} {loc : Location}

@[simp] theorem core_scopes : s.core.scopes = s.scopes := rfl

@[simp] theorem core_pushScope : s.pushScope.core = s.core.pushScope := rfl

@[simp] theorem core_error {e : ParseError} : (s.error loc e).core = s.core.addError e := by
  simp [MyParser.error, MyParser.core, ParserState.addError]

theorem core_popScope (h : s.popScope = .ok s') : s.core.popScope = .ok s'.core := by
  unfold MyParser.popScope at h
  cases hp : s.scopes.pop with
  | error e => rw [hp] at h; cases h
  | ok scopes =>
      rw [hp] at h
      cases h
      show (do let scopes ← s.scopes.pop; _) = _
      rw [hp]
      rfl

theorem core_addVarToScope (h : s.addVarToScope x = .ok (y, s')) :
    s.core.addVarToScope x = .ok (y, s'.core) := by
  unfold MyParser.addVarToScope at h
  cases ha : s.scopes.addVariable x with
  | error e => rw [ha] at h; cases h
  | ok r =>
      rw [ha] at h
      cases h
      rw [ParserState.addVarToScope, core_scopes, ha]
      rfl

theorem core_assignName (h : s.assignName x = .ok (y, s')) :
    s.core.assignName x = .ok (y, s'.core) := by
  unfold MyParser.assignName at h
  rw [ParserState.assignName, core_scopes]
  cases hl : s.scopes.lookup x with
  | some z => rw [hl] at h; cases h; rfl
  | none => rw [hl] at h; exact core_addVarToScope h

theorem core_useName (h : s.useName x loc = .ok (y, s')) : s.core.useName x = .ok (y, s'.core) := by
  unfold MyParser.useName at h
  rw [ParserState.useName, core_scopes]
  cases hl : s.scopes.lookup x with
  | some z => rw [hl] at h; cases h; rfl
  | none =>
      rw [hl] at h
      rw [← core_error]
      exact core_addVarToScope h

theorem exists_popScope (h : s.core.popScope = .ok p) : ∃ s', s.popScope = .ok s' ∧ s'.core = p := by
  unfold MyParser.popScope
  cases hp : s.scopes.pop with
  | error e =>
      have h : (do let scopes ← s.scopes.pop; pure (⟨scopes, s.core.errors⟩ : ParserState)) = .ok p := h
      rw [hp] at h
      cases h
  | ok scopes =>
      have h : (do let scopes ← s.scopes.pop; pure (⟨scopes, s.core.errors⟩ : ParserState)) = .ok p := h
      rw [hp] at h
      cases h
      exact ⟨_, rfl, rfl⟩

theorem exists_addVarToScope (h : s.core.addVarToScope x = .ok (y, p)) :
    ∃ s', s.addVarToScope x = .ok (y, s') ∧ s'.core = p := by
  unfold MyParser.addVarToScope
  rw [ParserState.addVarToScope, core_scopes] at h
  cases ha : s.scopes.addVariable x with
  | error e => rw [ha] at h; cases h
  | ok r => rw [ha] at h; cases h; exact ⟨_, rfl, rfl⟩

theorem exists_assignName (h : s.core.assignName x = .ok (y, p)) :
    ∃ s', s.assignName x = .ok (y, s') ∧ s'.core = p := by
  unfold MyParser.assignName
  rw [ParserState.assignName, core_scopes] at h
  cases hl : s.scopes.lookup x with
  | some z => rw [hl] at h; cases h; exact ⟨_, rfl, rfl⟩
  | none => rw [hl] at h; exact exists_addVarToScope h

theorem exists_useName (loc : Location) (h : s.core.useName x = .ok (y, p)) :
    ∃ s', s.useName x loc = .ok (y, s') ∧ s'.core = p := by
  unfold MyParser.useName
  rw [ParserState.useName, core_scopes] at h
  cases hl : s.scopes.lookup x with
  | some z => rw [hl] at h; cases h; exact ⟨_, rfl, rfl⟩
  | none =>
      rw [hl, ← core_error] at h
      exact exists_addVarToScope h

end Core

/-! ## Tokens with their locations -/

/-- The machine's tokens are these, at some places. -/
def Located (lts : List (Terminal × SemanticValue)) (ts : List Token) : Prop :=
  List.Forall₂ (fun p t => ∃ loc, p = (t.terminal, SemanticValue.token t loc)) lts ts

section Tokens

variable {lts : List (Terminal × SemanticValue)} {ts us : List Token} {t : Token}

@[simp] theorem located_nil : Located lts [] ↔ lts = [] := List.forall₂_nil_right_iff

@[simp] theorem located_cons : Located lts (t :: ts) ↔
    ∃ loc rest, lts = (t.terminal, .token t loc) :: rest ∧ Located rest ts := by
  unfold Located
  rw [List.forall₂_cons_right_iff]
  constructor
  · rintro ⟨p, rest, ⟨loc, rfl⟩, hr, rfl⟩
    exact ⟨loc, rest, rfl, hr⟩
  · rintro ⟨loc, rest, rfl, hr⟩
    exact ⟨_, rest, ⟨loc, rfl⟩, hr, rfl⟩

theorem located_append : Located lts (ts ++ us) ↔
    ∃ l r, lts = l ++ r ∧ Located l ts ∧ Located r us := by
  induction ts generalizing lts with
  | nil => simp
  | cons t ts ih =>
      rw [List.cons_append, located_cons]
      constructor
      · rintro ⟨loc, rest, rfl, hr⟩
        obtain ⟨l, r, rfl, hl, hr⟩ := ih.mp hr
        exact ⟨(t.terminal, .token t loc) :: l, r, rfl, located_cons.mpr ⟨loc, l, rfl, hl⟩, hr⟩
      · rintro ⟨l, r, rfl, hl, hr⟩
        obtain ⟨loc, rest, rfl, hrest⟩ := located_cons.mp hl
        exact ⟨loc, rest ++ r, rfl, ih.mpr ⟨rest, r, rfl, hrest, hr⟩⟩

end Tokens

/-! ## From `Derives` to the machine -/

section Reads

variable {L : Type} {lex : L → Except Escape (Lexed × Location × L)}
  {describe : List Terminal → Terminal → String} {r : Rule}
  {lts : List (Terminal × SemanticValue)} {s s1 s2 : MyParser} {v : SemanticValue}
  {vs : List SemanticValue}

/-- A production and its action. -/
theorem reads_rule (h : ReadsAll grammar (parserActions lex describe) r.rhs lts s vs s1)
    (ha : act r vs s1 = .ok (v, s2)) :
    ReadsAll grammar (parserActions lex describe) [.nonterminal r.lhs] lts s [v] s2 := by
  have hone : ReadsAll grammar (parserActions lex describe) (.nonterminal r.lhs :: []) (lts ++ []) s
      [v] s2 := .nonterminal h ha .nil
  rwa [List.append_nil] at hone

/-- The machine can do what `Derives` does, from any state with that core and with any locations. -/
def ReadsAs (lex : L → Except Escape (Lexed × Location × L)) (describe : List Terminal → Terminal → String)
    (N : Nonterminal) (ts : List Token) (p : ParserState) (x : N.Value) (p' : ParserState) : Prop :=
  ∀ lts s, Located lts ts → s.core = p →
    ∃ s', ReadsAll grammar (parserActions lex describe) [.nonterminal (.of N)] lts s [.of N x] s' ∧
      s'.core = p'

/-- A production with one nonterminal on its right. -/
theorem ReadsAs.unit {M N : Nonterminal} {ts : List Token} {p p' : ParserState} {x : M.Value}
    {y : N.Value} {r : Rule} (h : ReadsAs lex describe M ts p x p')
    (hr : r.rhs = [.nonterminal (.of M)]) (hl : r.lhs = .of N)
    (ha : ∀ s, act r [.of M x] s = .ok (.of N y, s)) : ReadsAs lex describe N ts p y p' := by
  intro lts s hlts hs
  obtain ⟨s1, h1, hs1⟩ := h lts s hlts hs
  rw [← hr] at h1
  refine ⟨s1, ?_, hs1⟩
  rw [← hl]
  exact reads_rule h1 (ha s1)

/-- A production of one token that leaves the state. -/
theorem ReadsAs.single {N : Nonterminal} {t : Token} {p : ParserState} {y : N.Value} {r : Rule}
    (hr : r.rhs = [.terminal t.terminal]) (hl : r.lhs = .of N)
    (ha : ∀ loc s, act r [.token t loc] s = .ok (.of N y, s)) :
    ReadsAs lex describe N [t] p y p := by
  intro lts s hlts hs
  obtain ⟨loc, _, rfl, hnil⟩ := located_cons.mp hlts
  obtain rfl := located_nil.mp hnil
  refine ⟨s, ?_, hs⟩
  rw [← hl]
  refine reads_rule ?_ (ha loc s)
  rw [hr]
  exact .terminal .nil

/-- A production that derives nothing and leaves the state. -/
theorem ReadsAs.empty {N : Nonterminal} {p : ParserState} {y : N.Value} {r : Rule}
    (hr : r.rhs = []) (hl : r.lhs = .of N) (ha : ∀ s, act r [] s = .ok (.of N y, s)) :
    ReadsAs lex describe N [] p y p := by
  intro lts s hlts hs
  obtain rfl := located_nil.mp hlts
  refine ⟨s, ?_, hs⟩
  rw [← hl]
  refine reads_rule ?_ (ha s)
  rw [hr]
  exact .nil

/-- A production of two nonterminals. -/
theorem ReadsAs.pair {M K N : Nonterminal} {ts us : List Token} {p p1 p' : ParserState} {x : M.Value}
    {z : K.Value} {y : N.Value} {r : Rule} (h : ReadsAs lex describe M ts p x p1)
    (h' : ReadsAs lex describe K us p1 z p')
    (hr : r.rhs = [.nonterminal (.of M), .nonterminal (.of K)]) (hl : r.lhs = .of N)
    (ha : ∀ s, act r [.of M x, .of K z] s = .ok (.of N y, s)) :
    ReadsAs lex describe N (ts ++ us) p y p' := by
  intro lts s hlts hs
  obtain ⟨a, b, rfl, ha', hb⟩ := located_append.mp hlts
  obtain ⟨s1, h1, hs1⟩ := h a s ha' hs
  obtain ⟨s2, h2, hs2⟩ := h' b s1 hb hs1
  refine ⟨s2, ?_, hs2⟩
  rw [← hl]
  refine reads_rule ?_ (ha s2)
  rw [hr]
  exact h1.append h2

theorem below_of_operand {l m : Level} (hm : l.operand = some m) : l.below = .level m := by
  cases l <;> cases hm <;> rfl

/-- The operators of a level, with their tokens. -/
theorem operator_spec {l m : Level} {t : Token} {op : BinaryOperators} (hm : l.operand = some m)
    (hop : (t, op) ∈ l.operators) :
    op.level = l ∧ t.terminal = op.terminal ∧ op.level.below = .level m := by
  have htable : ∀ p ∈ l.operators, p.2.level = l ∧ p.1.terminal = p.2.terminal := by
    cases l <;> decide
  obtain ⟨hl, ht⟩ := htable _ hop
  exact ⟨hl, ht, by rw [hl]; exact below_of_operand hm⟩

theorem unary_spec {t : Token} {op : UnaryOperators} (hop : (t, op) ∈ unaryOperators) :
    t.terminal = op.terminal := by
  have htable : ∀ p ∈ unaryOperators, p.1.terminal = p.2.terminal := by decide
  exact htable _ hop

/-! ### The actions that touch the scopes -/

variable {s' : MyParser} {x y : Name} {loc : Location} {w1 w2 w3 w4 w5 w6 : SemanticValue}

theorem act_assignment {e : Expression} (h : s.assignName x = .ok (y, s')) :
    act .assignment [.token (.tokId x) loc, w1, .of .assignmentExpr e] s =
      .ok (.of .assignmentExpr (.assignmentExpr y e), s') := by
  show withName .assignmentExpr (fun y => Expression.assignmentExpr y e) (s.assignName x) = _
  rw [h]
  rfl

theorem act_primaryId (h : s.useName x loc = .ok (y, s')) :
    act .primaryId [.token (.tokId x) loc] s = .ok (.of .primary (.var y), s') := by
  show withName .primary Expression.var (s.useName x loc) = _
  rw [h]
  rfl

theorem act_blockExpr {ss : List Statement} (h : s.popScope = .ok s') :
    act .blockExpr [w1, w2, .of .stmtList ss, w3] s = .ok (.of .blockExpr (.blockExpr ss), s') := by
  show s.popScope.map (fun s => (SemanticValue.of .blockExpr (.blockExpr ss), s)) = _
  rw [h]
  rfl

theorem act_functionExpr {f : Option Name} {ps : List Name} {ss : List Statement}
    (h : s.popScope = .ok s') :
    act .functionExpr [w1, w2, w3, .of .optParamList ps, w4, .of .optFuncName f, w5, .of .stmtList ss,
      w6] s = .ok (.of .functionExpr (.func f ps (.blockExpr ss)), s') := by
  show s.popScope.map
    (fun s => (SemanticValue.of .functionExpr (Expression.func f ps (.blockExpr ss)), s)) = _
  rw [h]
  rfl

theorem act_paramOne (h : s.addVarToScope x = .ok (y, s')) :
    act .paramOne [.token (.tokId x) loc] s = .ok (.of .paramList [y], s') := by
  show withName .paramList (fun y => [y]) (s.addVarToScope x) = _
  rw [h]
  rfl

theorem act_paramSnoc {ps : List Name} (h : s.addVarToScope x = .ok (y, s')) :
    act .paramSnoc [.of .paramList ps, w1, .token (.tokId x) loc] s =
      .ok (.of .paramList (ps ++ [y]), s') := by
  show withName .paramList (fun y => ps ++ [y]) (s.addVarToScope x) = _
  rw [h]
  rfl

theorem act_funcNameSome (h : s.addVarToScope x = .ok (y, s')) :
    act .funcNameSome [w1, .token (.tokId x) loc] s = .ok (.of .optFuncName (some y), s') := by
  show withName .optFuncName some (s.addVarToScope x) = _
  rw [h]
  rfl

end Reads

theorem reads_of_derives {L : Type} {lex : L → Except Escape (Lexed × Location × L)}
    {describe : List Terminal → Terminal → String} {N : Nonterminal} {ts : List Token}
    {p p' : ParserState} {x : N.Value} (h : Derives false N ts p x p') :
    ReadsAs lex describe N ts p x p' := by
  induction h with
  | program _ ih =>
      intro lts s hl hs
      simp only [located_append, located_cons, located_nil] at hl
      obtain ⟨a, _, rfl, ha, loc, _, rfl, rfl⟩ := hl
      obtain ⟨s1, h1, hs1⟩ := ih a s ha hs
      exact ⟨s1, reads_rule (r := .program) (h1.append (.terminal .nil)) rfl, hs1⟩
  | toplevelNil => exact .empty (r := .toplevelNil) rfl rfl (fun _ => rfl)
  | toplevelSnoc _ _ ih1 ih2 => exact ih1.pair ih2 (r := .toplevelSnoc) rfl rfl (fun _ => rfl)
  | toplevelStatement _ ih => exact ih.unit (r := .toplevelStatement) rfl rfl (fun _ => rfl)
  -- the one action of an error-free derivation that records an error
  | toplevelBrace =>
      intro lts s hl hs
      simp only [located_cons, located_nil] at hl
      obtain ⟨loc, _, rfl, rfl⟩ := hl
      exact ⟨s.error loc .unmatchedBrace, reads_rule (r := .toplevelBrace) (.terminal .nil) rfl,
        by rw [core_error, hs]⟩
  | stmtNil => exact .empty (r := .stmtNil) rfl rfl (fun _ => rfl)
  | stmtSnoc _ _ ih1 ih2 => exact ih1.pair ih2 (r := .stmtSnoc) rfl rfl (fun _ => rfl)
  | statementIf _ ih => exact ih.unit (r := .statementIf) rfl rfl (fun _ => rfl)
  | statementWhile _ ih => exact ih.unit (r := .statementWhile) rfl rfl (fun _ => rfl)
  | statementPrint _ ih =>
      intro lts s hl hs
      simp only [located_append, located_cons, located_nil] at hl
      obtain ⟨a, _, rfl, ha, loc, _, rfl, rfl⟩ := hl
      obtain ⟨s1, h1, hs1⟩ := ih a s ha hs
      exact ⟨s1, reads_rule (r := .statementPrint) (h1.append (.terminal .nil)) rfl, hs1⟩
  | statementReturn _ ih =>
      intro lts s hl hs
      simp only [located_append, located_cons, located_nil] at hl
      obtain ⟨a, _, rfl, ha, loc, _, rfl, rfl⟩ := hl
      obtain ⟨s1, h1, hs1⟩ := ih a s ha hs
      exact ⟨s1, reads_rule (r := .statementReturn) (h1.append (.terminal .nil)) rfl, hs1⟩
  | statementExpr _ ih => exact ih.unit (r := .statementExpr) rfl rfl (fun _ => rfl)
  | statementEmpty _ ih => exact ih.unit (r := .statementEmpty) rfl rfl (fun _ => rfl)
  -- the recovering productions are not derived here
  | statementError hr => cases hr
  | emptyStmt => exact .single (r := .emptyStmt) rfl rfl (fun _ _ => rfl)
  | exprStmt _ ih =>
      intro lts s hl hs
      simp only [located_append, located_cons, located_nil] at hl
      obtain ⟨a, _, rfl, ha, loc, _, rfl, rfl⟩ := hl
      obtain ⟨s1, h1, hs1⟩ := ih a s ha hs
      exact ⟨s1, reads_rule (r := .exprStmt) (h1.append (.terminal .nil)) rfl, hs1⟩
  | ifThen _ _ ihc iht =>
      intro lts s hl hs
      simp only [List.append_assoc, List.cons_append, List.nil_append, located_append,
        located_cons] at hl
      obtain ⟨l1, _, rfl, l2, _, rfl, a, _, rfl, ha, l3, b, rfl, hb⟩ := hl
      obtain ⟨s1, h1, hs1⟩ := ihc a s ha hs
      obtain ⟨s2, h2, hs2⟩ := iht b s1 hb hs1
      exact ⟨s2, reads_rule (r := .ifThen) (.terminal (.terminal (h1.append (.terminal h2)))) rfl, hs2⟩
  | ifThenElse _ _ _ ihc iht ihe =>
      intro lts s hl hs
      simp only [List.append_assoc, List.cons_append, List.nil_append, located_append,
        located_cons] at hl
      obtain ⟨l1, _, rfl, l2, _, rfl, a, _, rfl, ha, l3, _, rfl, b, _, rfl, hb, l4, d, rfl, hd⟩ := hl
      obtain ⟨s1, h1, hs1⟩ := ihc a s ha hs
      obtain ⟨s2, h2, hs2⟩ := iht b s1 hb hs1
      obtain ⟨s3, h3, hs3⟩ := ihe d s2 hd hs2
      exact ⟨s3, reads_rule (r := .ifThenElse)
        (.terminal (.terminal (h1.append (.terminal (h2.append (.terminal h3)))))) rfl, hs3⟩
  | ifError hr | ifParenError hr | whileError hr | whileParenError hr => cases hr
  | whileStmt _ _ ihc ihb =>
      intro lts s hl hs
      simp only [List.append_assoc, List.cons_append, List.nil_append, located_append,
        located_cons] at hl
      obtain ⟨l1, _, rfl, l2, _, rfl, a, _, rfl, ha, l3, b, rfl, hb⟩ := hl
      obtain ⟨s1, h1, hs1⟩ := ihc a s ha hs
      obtain ⟨s2, h2, hs2⟩ := ihb b s1 hb hs1
      exact ⟨s2, reads_rule (r := .whileStmt) (.terminal (.terminal (h1.append (.terminal h2)))) rfl,
        hs2⟩
  | printStmt _ ih =>
      intro lts s hl hs
      simp only [List.cons_append, List.nil_append, located_cons] at hl
      obtain ⟨l1, a, rfl, ha⟩ := hl
      obtain ⟨s1, h1, hs1⟩ := ih a s ha hs
      exact ⟨s1, reads_rule (r := .printStmt) (.terminal h1) rfl, hs1⟩
  | returnNone => exact .single (r := .returnNone) rfl rfl (fun _ _ => rfl)
  | returnSome _ ih =>
      intro lts s hl hs
      simp only [List.cons_append, List.nil_append, located_cons] at hl
      obtain ⟨l1, a, rfl, ha⟩ := hl
      obtain ⟨s1, h1, hs1⟩ := ih a s ha hs
      exact ⟨s1, reads_rule (r := .returnSome) (.terminal h1) rfl, hs1⟩
  | expression _ ih => exact ih.unit (r := .expression) rfl rfl (fun _ => rfl)
  | assignmentOr _ ih => exact ih.unit (r := .assignmentOr) rfl rfl (fun _ => rfl)
  -- the name is entered after the right side is read, as the action stands at the end
  | @assignment x ts p e p1 y p' _ hx ih =>
      intro lts s hl hs
      simp only [List.cons_append, List.nil_append, located_cons] at hl
      obtain ⟨l1, _, rfl, l2, a, rfl, ha⟩ := hl
      obtain ⟨s1, h1, hs1⟩ := ih a s ha hs
      obtain ⟨s2, hx, hs2⟩ := exists_assignName (hs1 ▸ hx)
      exact ⟨s2, reads_rule (r := .assignment) (.terminal (.terminal h1)) (act_assignment hx), hs2⟩
  | levelOperand hm _ ih =>
      exact ih.unit (r := .operand _) (by rw [Rule.rhs, below_of_operand hm]; rfl) rfl (fun _ => rfl)
  -- the table has one production per operator: `operator_spec` finds it and what stands to its right
  | @levelOperator l m ts us p a p1 b p' t op hm hop _ _ iha ihb =>
      intro lts s hl hs
      simp only [List.append_assoc, List.cons_append, List.nil_append, located_append,
        located_cons] at hl
      obtain ⟨la, _, rfl, ha, loc, lb, rfl, hb⟩ := hl
      obtain ⟨s1, h1, hs1⟩ := iha la s ha hs
      obtain ⟨s2, h2, hs2⟩ := ihb lb s1 hb hs1
      obtain ⟨rfl, ht, hbelow⟩ := operator_spec hm hop
      rw [ht]
      have hrhs : ReadsAll grammar (parserActions lex describe) (Rule.binary op).rhs
          (la ++ (op.terminal, .token t loc) :: lb) s
          [.of (.level op.level) a, .token t loc, .of (.level m) b] s2 := by
        rw [Rule.rhs, hbelow]
        exact h1.append (.terminal h2)
      exact ⟨s2, reads_rule hrhs rfl, hs2⟩
  | @unaryOperator t op ts p e p' hop _ ih =>
      intro lts s hl hs
      simp only [List.cons_append, List.nil_append, located_cons] at hl
      obtain ⟨loc, a, rfl, ha⟩ := hl
      obtain ⟨s1, h1, hs1⟩ := ih a s ha hs
      rw [unary_spec hop]
      exact ⟨s1, reads_rule (r := .unary op) (.terminal h1) rfl, hs1⟩
  | unaryPostfix _ ih => exact ih.unit (r := .operand .unary) rfl rfl (fun _ => rfl)
  | postfixPrimary _ ih => exact ih.unit (r := .postfixPrimary) rfl rfl (fun _ => rfl)
  | postfixCall _ _ ih iha =>
      intro lts s hl hs
      simp only [List.append_assoc, List.cons_append, List.nil_append, located_append, located_cons,
        located_nil] at hl
      obtain ⟨a, _, rfl, ha, l1, _, rfl, b, _, rfl, hb, l2, _, rfl, rfl⟩ := hl
      obtain ⟨s1, h1, hs1⟩ := ih a s ha hs
      obtain ⟨s2, h2, hs2⟩ := iha b s1 hb hs1
      exact ⟨s2, reads_rule (r := .postfixCall) (h1.append (.terminal (h2.append (.terminal .nil)))) rfl,
        hs2⟩
  | optArgNone => exact .empty (r := .optArgNone) rfl rfl (fun _ => rfl)
  | optArgSome _ ih => exact ih.unit (r := .optArgSome) rfl rfl (fun _ => rfl)
  | argOne _ ih => exact ih.unit (r := .argOne) rfl rfl (fun _ => rfl)
  | argSnoc _ _ ih ihe =>
      intro lts s hl hs
      simp only [List.append_assoc, List.cons_append, List.nil_append, located_append,
        located_cons] at hl
      obtain ⟨a, _, rfl, ha, l1, b, rfl, hb⟩ := hl
      obtain ⟨s1, h1, hs1⟩ := ih a s ha hs
      obtain ⟨s2, h2, hs2⟩ := ihe b s1 hb hs1
      exact ⟨s2, reads_rule (r := .argSnoc) (h1.append (.terminal h2)) rfl, hs2⟩
  | primaryNumber => exact .single (r := .primaryNumber) rfl rfl (fun _ _ => rfl)
  | @primaryId x p y p' hx =>
      intro lts s hl hs
      simp only [located_cons, located_nil] at hl
      obtain ⟨loc, _, rfl, rfl⟩ := hl
      obtain ⟨s1, hx, hs1⟩ := exists_useName loc (hs ▸ hx)
      exact ⟨s1, reads_rule (r := .primaryId) (.terminal .nil) (act_primaryId hx), hs1⟩
  | primaryParen _ ih =>
      intro lts s hl hs
      simp only [List.cons_append, List.nil_append, located_append, located_cons, located_nil] at hl
      obtain ⟨l1, _, rfl, a, _, rfl, ha, l2, _, rfl, rfl⟩ := hl
      obtain ⟨s1, h1, hs1⟩ := ih a s ha hs
      exact ⟨s1, reads_rule (r := .primaryParen) (.terminal (h1.append (.terminal .nil))) rfl, hs1⟩
  | primaryFunction _ ih => exact ih.unit (r := .primaryFunction) rfl rfl (fun _ => rfl)
  | primaryInput _ ih => exact ih.unit (r := .primaryInput) rfl rfl (fun _ => rfl)
  | primaryBlock _ ih => exact ih.unit (r := .primaryBlock) rfl rfl (fun _ => rfl)
  | inputExpr => exact .single (r := .inputExpr) rfl rfl (fun _ _ => rfl)
  | blockExpr _ hp ih =>
      intro lts s hl hs
      simp only [List.cons_append, List.nil_append, located_append, located_cons, located_nil] at hl
      obtain ⟨l1, _, rfl, a, _, rfl, ha, l2, _, rfl, rfl⟩ := hl
      obtain ⟨s1, h1, hs1⟩ := ih a s.pushScope ha (by rw [core_pushScope, hs])
      obtain ⟨s2, hp, hs2⟩ := exists_popScope (hs1 ▸ hp)
      have hopen : ReadsAll grammar (parserActions lex describe) [.nonterminal .blockOpen] [] s [.none]
          s.pushScope := reads_rule (r := .blockOpen) .nil rfl
      exact ⟨s2, reads_rule (r := .blockExpr) (.terminal (hopen.append (h1.append (.terminal .nil))))
        (act_blockExpr hp), hs2⟩
  | functionExpr _ _ _ hp ihps ihn ih =>
      intro lts s hl hs
      simp only [List.append_assoc, List.cons_append, List.nil_append, located_append, located_cons,
        located_nil] at hl
      obtain ⟨l1, _, rfl, l2, _, rfl, a, _, rfl, ha, l3, _, rfl, b, _, rfl, hb, l4, _, rfl, d, _, rfl, hd,
        l5, _, rfl, rfl⟩ := hl
      obtain ⟨s1, h1, hs1⟩ := ihps a s.pushScope ha (by rw [core_pushScope, hs])
      obtain ⟨s2, h2, hs2⟩ := ihn b s1 hb hs1
      obtain ⟨s3, h3, hs3⟩ := ih d s2 hd hs2
      obtain ⟨s4, hp, hs4⟩ := exists_popScope (hs3 ▸ hp)
      have hopen : ReadsAll grammar (parserActions lex describe) [.nonterminal .functionOpen] [] s [.none]
          s.pushScope := reads_rule (r := .functionOpen) .nil rfl
      exact ⟨s4, reads_rule (r := .functionExpr) (.terminal (hopen.append (.terminal (h1.append
        (.terminal (h2.append (.terminal (h3.append (.terminal .nil))))))))) (act_functionExpr hp), hs4⟩
  | optParamNone => exact .empty (r := .optParamNone) rfl rfl (fun _ => rfl)
  | optParamSome _ ih => exact ih.unit (r := .optParamSome) rfl rfl (fun _ => rfl)
  | paramOne hx =>
      intro lts s hl hs
      simp only [located_cons, located_nil] at hl
      obtain ⟨loc, _, rfl, rfl⟩ := hl
      obtain ⟨s1, hx, hs1⟩ := exists_addVarToScope (hs ▸ hx)
      exact ⟨s1, reads_rule (r := .paramOne) (.terminal .nil) (act_paramOne hx), hs1⟩
  | paramSnoc _ hx ih =>
      intro lts s hl hs
      simp only [located_append, located_cons, located_nil] at hl
      obtain ⟨a, _, rfl, ha, l1, _, rfl, l2, _, rfl, rfl⟩ := hl
      obtain ⟨s1, h1, hs1⟩ := ih a s ha hs
      obtain ⟨s2, hx, hs2⟩ := exists_addVarToScope (hs1 ▸ hx)
      exact ⟨s2, reads_rule (r := .paramSnoc) (h1.append (.terminal (.terminal .nil)))
        (act_paramSnoc hx), hs2⟩
  | funcNameNone => exact .empty (r := .funcNameNone) rfl rfl (fun _ => rfl)
  | funcNameSome hx =>
      intro lts s hl hs
      simp only [located_cons, located_nil] at hl
      obtain ⟨l1, _, rfl, l2, _, rfl, rfl⟩ := hl
      obtain ⟨s1, hx, hs1⟩ := exists_addVarToScope (hs ▸ hx)
      exact ⟨s1, reads_rule (r := .funcNameSome) (.terminal (.terminal .nil)) (act_funcNameSome hx), hs1⟩

/-! ## From the machine to `Derives` -/

/-- The token of a kind that carries no value. -/
def Terminal.plain : Terminal → Option Token
  | .tokIf => some .tokIf | .tokElse => some .tokElse | .tokWhile => some .tokWhile
  | .tokPrint => some .tokPrint | .tokInput => some .tokInput | .tokFunc => some .tokFunc
  | .tokReturn => some .tokReturn
  | .tokPlus => some .tokPlus | .tokMinus => some .tokMinus | .tokMul => some .tokMul
  | .tokDiv => some .tokDiv | .tokRemDiv => some .tokRemDiv | .tokAnd => some .tokAnd
  | .tokXor => some .tokXor | .tokOr => some .tokOr
  | .tokNot => some .tokNot | .tokLogOr => some .tokLogOr | .tokLogAnd => some .tokLogAnd
  | .tokAssign => some .tokAssign
  | .tokEq => some .tokEq | .tokNeq => some .tokNeq | .tokLess => some .tokLess
  | .tokGreater => some .tokGreater | .tokLessOrEq => some .tokLessOrEq
  | .tokGreaterOrEq => some .tokGreaterOrEq
  | .tokLeftParen => some .tokLeftParen | .tokRightParen => some .tokRightParen
  | .tokLeftBrace => some .tokLeftBrace | .tokRightBrace => some .tokRightBrace
  | .tokSemicolon => some .tokSemicolon | .tokComma => some .tokComma | .tokColon => some .tokColon
  | .tokEof => some .tokEof
  | .error | .tokId | .tokNumber => none

section Terminals

variable {t u : Token} {T : Terminal}

theorem plain_token (ht : t.terminal = T) (hT : T.plain = some u) : t = u := by
  subst ht
  cases t <;> first | exact Option.some.inj hT | cases hT

theorem id_token (ht : t.terminal = .tokId) : ∃ x, t = .tokId x := by
  cases t <;> first | exact ⟨_, rfl⟩ | cases ht

theorem number_token (ht : t.terminal = .tokNumber) : ∃ n, t = .tokNumber n := by
  cases t <;> first | exact ⟨_, rfl⟩ | cases ht

theorem terminal_ne_error : t.terminal ≠ .error := by
  cases t <;> exact Terminal.noConfusion

theorem binary_token {op : BinaryOperators} (ht : t.terminal = op.terminal) :
    (t, op) ∈ op.level.operators := by
  cases op <;> obtain rfl := plain_token ht rfl <;> decide

theorem unary_token {op : UnaryOperators} (ht : t.terminal = op.terminal) : (t, op) ∈ unaryOperators := by
  cases op <;> obtain rfl := plain_token ht rfl <;> decide

end Terminals

/-- What the machine has read for one symbol. -/
def Derived (x : GrammarSymbol Terminal Lhs) (lts : List (Terminal × SemanticValue)) (s : MyParser)
    (v : SemanticValue) (s' : MyParser) : Prop :=
  match x with
  | .terminal T => s' = s ∧ ∃ t loc, t.terminal = T ∧ Located lts [t] ∧ v = .token t loc
  | .nonterminal (.of N) => ∃ ts y, Located lts ts ∧ v = .of N y ∧ Derives false N ts s.core y s'.core
  | .nonterminal .blockOpen | .nonterminal .functionOpen => lts = [] ∧ s' = s.pushScope
  | .nonterminal .accept => True

/-- The same for a list of symbols. -/
def DerivedAll : List (GrammarSymbol Terminal Lhs) → List (Terminal × SemanticValue) → MyParser →
    List SemanticValue → MyParser → Prop
  | [], lts, s, vs, s' => lts = [] ∧ vs = [] ∧ s' = s
  | x :: β, lts, s, vs, s' => ∃ l r v ws s1, lts = l ++ r ∧ vs = v :: ws ∧ Derived x l s v s1 ∧
      DerivedAll β r s1 ws s'

/-- What follows the tokens `pre` in a production. -/
def After (pre : List Token) (β : List (GrammarSymbol Terminal Lhs)) (lts : List (Terminal × SemanticValue))
    (s : MyParser) (vs : List SemanticValue) (s' : MyParser) : Prop :=
  ∃ l r, lts = l ++ r ∧ Located l pre ∧ DerivedAll β r s vs s'

section After

variable {pre : List Token} {β : List (GrammarSymbol Terminal Lhs)} {lts : List (Terminal × SemanticValue)}
  {s s' : MyParser} {vs : List SemanticValue} {T : Terminal} {t : Token} {N : Nonterminal}

theorem DerivedAll.after (h : DerivedAll β lts s vs s') : After [] β lts s vs s' :=
  ⟨[], lts, rfl, located_nil.mpr rfl, h⟩

theorem After.nonterminal (h : After pre (.nonterminal (.of N) :: β) lts s vs s') :
    ∃ ts y ws s1, vs = .of N y :: ws ∧ Derives false N ts s.core y s1.core ∧
      After (pre ++ ts) β lts s1 ws s' := by
  obtain ⟨l, _, rfl, hl, l', r, _, ws, s1, rfl, rfl, ⟨ts, y, hts, rfl, hy⟩, hr⟩ := h
  exact ⟨ts, y, ws, s1, rfl, hy, l ++ l', r, (List.append_assoc ..).symm,
    located_append.mpr ⟨l, l', rfl, hl, hts⟩, hr⟩

theorem After.terminal (h : After pre (.terminal T :: β) lts s vs s') :
    ∃ t loc ws, t.terminal = T ∧ vs = .token t loc :: ws ∧ After (pre ++ [t]) β lts s ws s' := by
  obtain ⟨l, _, rfl, hl, l', r, _, ws, s1, rfl, rfl, ⟨rfl, t, loc, ht, hlt, rfl⟩, hr⟩ := h
  exact ⟨t, loc, ws, ht, rfl, l ++ l', r, (List.append_assoc ..).symm,
    located_append.mpr ⟨l, l', rfl, hl, hlt⟩, hr⟩

/-- A token that carries no value. -/
theorem After.plain (h : After pre (.terminal T :: β) lts s vs s') (hT : T.plain = some t) :
    ∃ loc ws, vs = .token t loc :: ws ∧ After (pre ++ [t]) β lts s ws s' := by
  obtain ⟨u, loc, ws, hu, rfl, h1⟩ := h.terminal
  obtain rfl := plain_token hu hT
  exact ⟨loc, ws, rfl, h1⟩

/-- A mid-rule action. -/
theorem After.opened {a : Lhs} (h : After pre (.nonterminal a :: β) lts s vs s')
    (ha : a = .blockOpen ∨ a = .functionOpen) : ∃ w ws, vs = w :: ws ∧ After pre β lts s.pushScope ws s' := by
  rcases ha with rfl | rfl <;>
  · obtain ⟨l, _, rfl, hl, _, r, w, ws, s1, rfl, rfl, ⟨rfl, rfl⟩, hr⟩ := h
    exact ⟨w, ws, rfl, l, r, rfl, hl, hr⟩

theorem After.stop (h : After pre [] lts s vs s') : Located lts pre ∧ vs = [] ∧ s' = s := by
  obtain ⟨l, _, rfl, hl, rfl, rfl, rfl⟩ := h
  exact ⟨by rwa [List.append_nil], rfl, rfl⟩

end After

/-- The machine's production is one of `Derives`. -/
def Rule.Sound (r : Rule) : Prop :=
  ∀ lts s vs s1 v s2, DerivedAll r.rhs lts s vs s1 → act r vs s1 = .ok (v, s2) →
    Derived (.nonterminal r.lhs) lts s v s2

section Sound

variable {r : Rule} {M K N : Nonterminal}

theorem Rule.Sound.unit (f : M.Value → N.Value) (hr : r.rhs = [.nonterminal (.of M)])
    (hl : r.lhs = .of N) (ha : ∀ x s, act r [.of M x] s = .ok (.of N (f x), s))
    (hd : ∀ {ts p x p'}, Derives false M ts p x p' → Derives false N ts p (f x) p') : r.Sound := by
  intro lts s vs s1 v s2 h hact
  rw [hr] at h
  obtain ⟨ts, x, _, _, rfl, hx, h1⟩ := h.after.nonterminal
  obtain ⟨hlts, rfl, rfl⟩ := h1.stop
  rw [ha] at hact
  cases hact
  rw [hl]
  exact ⟨ts, f x, hlts, rfl, hd hx⟩

theorem Rule.Sound.pair (f : M.Value → K.Value → N.Value)
    (hr : r.rhs = [.nonterminal (.of M), .nonterminal (.of K)]) (hl : r.lhs = .of N)
    (ha : ∀ x y s, act r [.of M x, .of K y] s = .ok (.of N (f x y), s))
    (hd : ∀ {ts us p x p1 y p'}, Derives false M ts p x p1 → Derives false K us p1 y p' →
      Derives false N (ts ++ us) p (f x y) p') : r.Sound := by
  intro lts s vs s1 v s2 h hact
  rw [hr] at h
  obtain ⟨ts, x, _, _, rfl, hx, h1⟩ := h.after.nonterminal
  obtain ⟨us, y, _, _, rfl, hy, h2⟩ := h1.nonterminal
  obtain ⟨hlts, rfl, rfl⟩ := h2.stop
  rw [ha] at hact
  cases hact
  rw [hl]
  exact ⟨ts ++ us, f x y, hlts, rfl, hd hx hy⟩

theorem Rule.Sound.empty (y : N.Value) (hr : r.rhs = []) (hl : r.lhs = .of N)
    (ha : ∀ s, act r [] s = .ok (.of N y, s)) (hd : ∀ {p}, Derives false N [] p y p) : r.Sound := by
  intro lts s vs s1 v s2 h hact
  rw [hr] at h
  obtain ⟨hlts, rfl, rfl⟩ := h.after.stop
  rw [ha] at hact
  cases hact
  rw [hl]
  exact ⟨[], y, hlts, rfl, hd⟩

/-- A production of one token without a value. -/
theorem Rule.Sound.single {T : Terminal} {t : Token} (y : N.Value) (hr : r.rhs = [.terminal T])
    (hT : T.plain = some t) (hl : r.lhs = .of N)
    (ha : ∀ loc s, act r [.token t loc] s = .ok (.of N y, s))
    (hd : ∀ {p}, Derives false N [t] p y p) : r.Sound := by
  intro lts s vs s1 v s2 h hact
  rw [hr] at h
  obtain ⟨loc, _, rfl, h1⟩ := h.after.plain hT
  obtain ⟨hlts, rfl, rfl⟩ := h1.stop
  rw [ha] at hact
  cases hact
  rw [hl]
  exact ⟨[t], y, hlts, rfl, hd⟩

/-- A production of one nonterminal and a token without a value. -/
theorem Rule.Sound.ended {T : Terminal} {t : Token} (f : M.Value → N.Value)
    (hr : r.rhs = [.nonterminal (.of M), .terminal T]) (hT : T.plain = some t) (hl : r.lhs = .of N)
    (ha : ∀ x w s, act r [.of M x, w] s = .ok (.of N (f x), s))
    (hd : ∀ {ts p x p'}, Derives false M ts p x p' → Derives false N (ts ++ [t]) p (f x) p') :
    r.Sound := by
  intro lts s vs s1 v s2 h hact
  rw [hr] at h
  obtain ⟨ts, x, _, _, rfl, hx, h1⟩ := h.after.nonterminal
  obtain ⟨loc, _, rfl, h2⟩ := h1.plain hT
  obtain ⟨hlts, rfl, rfl⟩ := h2.stop
  rw [ha] at hact
  cases hact
  rw [hl]
  exact ⟨ts ++ [t], f x, hlts, rfl, hd hx⟩

/-- A production of a token without a value and a nonterminal. -/
theorem Rule.Sound.headed {T : Terminal} {t : Token} (f : M.Value → N.Value)
    (hr : r.rhs = [.terminal T, .nonterminal (.of M)]) (hT : T.plain = some t) (hl : r.lhs = .of N)
    (ha : ∀ x w s, act r [w, .of M x] s = .ok (.of N (f x), s))
    (hd : ∀ {ts p x p'}, Derives false M ts p x p' → Derives false N ([t] ++ ts) p (f x) p') :
    r.Sound := by
  intro lts s vs s1 v s2 h hact
  rw [hr] at h
  obtain ⟨loc, _, rfl, h1⟩ := h.after.plain hT
  obtain ⟨ts, x, _, _, rfl, hx, h2⟩ := h1.nonterminal
  obtain ⟨hlts, rfl, rfl⟩ := h2.stop
  rw [ha] at hact
  cases hact
  rw [hl]
  exact ⟨[t] ++ ts, f x, hlts, rfl, hd hx⟩

/-- A production with `error` reads no tokens. -/
theorem not_derivedAll_error {β : List (GrammarSymbol Terminal Lhs)} {lts : List (Terminal × SemanticValue)}
    {s s' : MyParser} {vs : List SemanticValue} (h : .terminal .error ∈ β) :
    ¬ DerivedAll β lts s vs s' := by
  intro hd
  induction β generalizing lts s vs with
  | nil => cases h
  | cons x β ih =>
      obtain ⟨l, rest, w, ws, s1, rfl, rfl, hx, hrest⟩ := hd
      rcases List.mem_cons.mp h with rfl | h
      · obtain ⟨_, t, loc, ht, _⟩ := hx
        exact terminal_ne_error ht
      · exact ih h hrest

theorem Rule.Sound.error (h : .terminal .error ∈ r.rhs) : r.Sound :=
  fun _ _ _ _ _ _ hd _ => absurd hd (not_derivedAll_error h)

/-- The condition and the block of an `if` or a `while`. -/
theorem Rule.Sound.guarded {T : Terminal} {t : Token} (f : Expression → Expression → N.Value)
    (hr : r.rhs = [.terminal T, .terminal .tokLeftParen, .nonterminal (.of .expression),
      .terminal .tokRightParen, .nonterminal (.of .blockExpr)])
    (hT : T.plain = some t) (hl : r.lhs = .of N)
    (ha : ∀ c b w1 w2 w3 s, act r [w1, w2, .of .expression c, w3, .of .blockExpr b] s =
      .ok (.of N (f c b), s))
    (hd : ∀ {ts us p c p1 b p'}, Derives false .expression ts p c p1 →
      Derives false .blockExpr us p1 b p' →
      Derives false N ([t, .tokLeftParen] ++ ts ++ [.tokRightParen] ++ us) p (f c b) p') : r.Sound := by
  intro lts s vs s1 v s2 h hact
  rw [hr] at h
  obtain ⟨_, _, rfl, h1⟩ := h.after.plain hT
  obtain ⟨_, _, rfl, h2⟩ := h1.plain rfl
  obtain ⟨ts, c, _, _, rfl, hc, h3⟩ := h2.nonterminal
  obtain ⟨_, _, rfl, h4⟩ := h3.plain rfl
  obtain ⟨us, b, _, _, rfl, hb, h5⟩ := h4.nonterminal
  obtain ⟨hlts, rfl, rfl⟩ := h5.stop
  rw [ha] at hact
  cases hact
  rw [hl]
  exact ⟨_, f c b, hlts, rfl, hd hc hb⟩

theorem sound_postfixCall : Rule.Sound .postfixCall := by
  intro lts s vs s1 v s2 h hact
  obtain ⟨ts, e, _, _, rfl, he, h1⟩ := h.after.nonterminal
  obtain ⟨_, _, rfl, h2⟩ := h1.plain rfl
  obtain ⟨us, es, _, _, rfl, hes, h3⟩ := h2.nonterminal
  obtain ⟨_, _, rfl, h4⟩ := h3.plain rfl
  obtain ⟨hlts, rfl, rfl⟩ := h4.stop
  cases (show Except.ok _ = Except.ok (v, s2) from hact)
  exact ⟨_, _, hlts, rfl, .postfixCall he hes⟩

theorem sound_toplevelBrace : Rule.Sound .toplevelBrace := by
  intro lts s vs s1 v s2 h hact
  obtain ⟨_, _, rfl, h1⟩ := h.after.plain rfl
  obtain ⟨hlts, rfl, rfl⟩ := h1.stop
  cases (show Except.ok _ = Except.ok (v, s2) from hact)
  refine ⟨_, _, hlts, rfl, ?_⟩
  rw [core_error]
  exact .toplevelBrace

theorem sound_ifThenElse : Rule.Sound .ifThenElse := by
  intro lts s vs s1 v s2 h hact
  obtain ⟨_, _, rfl, h1⟩ := h.after.plain rfl
  obtain ⟨_, _, rfl, h2⟩ := h1.plain rfl
  obtain ⟨ts, c, _, _, rfl, hc, h3⟩ := h2.nonterminal
  obtain ⟨_, _, rfl, h4⟩ := h3.plain rfl
  obtain ⟨us, t, _, _, rfl, ht, h5⟩ := h4.nonterminal
  obtain ⟨_, _, rfl, h6⟩ := h5.plain rfl
  obtain ⟨ws, e, _, _, rfl, he, h7⟩ := h6.nonterminal
  obtain ⟨hlts, rfl, rfl⟩ := h7.stop
  cases (show Except.ok _ = Except.ok (v, s2) from hact)
  exact ⟨_, _, hlts, rfl, .ifThenElse hc ht he⟩

theorem sound_operand (l : Level) : Rule.Sound (.operand l) := by
  have hlevel : ∀ m, l.operand = some m → l.below = .level m → Rule.Sound (.operand l) := by
    intro m hm hb
    refine .unit (M := .level m) (N := .level l) (fun e => e) ?_ rfl (fun _ _ => rfl)
      (fun h => .levelOperand hm h)
    show [GrammarSymbol.nonterminal (Lhs.of l.below)] = _
    rw [hb]
  cases l with
  | unary =>
      exact .unit (M := .postfixExpr) (N := .level .unary) (fun e => e) rfl rfl (fun _ _ => rfl)
        .unaryPostfix
  | _ => exact hlevel _ rfl rfl

theorem below_level (op : BinaryOperators) :
    ∃ m, op.level.operand = some m ∧ op.level.below = .level m := by
  cases op <;> exact ⟨_, rfl, rfl⟩

theorem sound_binary (op : BinaryOperators) : Rule.Sound (.binary op) := by
  intro lts s vs s1 v s2 h hact
  obtain ⟨m, hm, hb⟩ := below_level op
  have hr : Rule.rhs (.binary op) = [.nonterminal (.of (.level op.level)), .terminal op.terminal,
      .nonterminal (.of (.level m))] := by
    rw [← hb]
    rfl
  rw [hr] at h
  obtain ⟨ts, a, _, _, rfl, ha, h1⟩ := h.after.nonterminal
  obtain ⟨t, _, _, ht, rfl, h2⟩ := h1.terminal
  obtain ⟨us, b, _, _, rfl, hb, h3⟩ := h2.nonterminal
  obtain ⟨hlts, rfl, rfl⟩ := h3.stop
  cases (show Except.ok _ = Except.ok (v, s2) from hact)
  exact ⟨ts ++ [t] ++ us, .binaryOperator op a b, hlts, rfl, .levelOperator hm (binary_token ht) ha hb⟩

theorem sound_unary (op : UnaryOperators) : Rule.Sound (.unary op) := by
  intro lts s vs s1 v s2 h hact
  obtain ⟨t, _, _, ht, rfl, h1⟩ := h.after.terminal
  obtain ⟨ts, e, _, _, rfl, he, h2⟩ := h1.nonterminal
  obtain ⟨hlts, rfl, rfl⟩ := h2.stop
  cases (show Except.ok _ = Except.ok (v, s2) from hact)
  exact ⟨[t] ++ ts, .unaryOperator op e, hlts, rfl, .unaryOperator (unary_token ht) he⟩

theorem sound_argSnoc : Rule.Sound .argSnoc := by
  intro lts s vs s1 v s2 h hact
  obtain ⟨ts, es, _, _, rfl, hes, h1⟩ := h.after.nonterminal
  obtain ⟨_, _, rfl, h2⟩ := h1.plain rfl
  obtain ⟨us, e, _, _, rfl, he, h3⟩ := h2.nonterminal
  obtain ⟨hlts, rfl, rfl⟩ := h3.stop
  cases (show Except.ok _ = Except.ok (v, s2) from hact)
  exact ⟨_, _, hlts, rfl, .argSnoc hes he⟩

theorem sound_primaryNumber : Rule.Sound .primaryNumber := by
  intro lts s vs s1 v s2 h hact
  obtain ⟨t, _, _, ht, rfl, h1⟩ := h.after.terminal
  obtain ⟨hlts, rfl, rfl⟩ := h1.stop
  obtain ⟨n, rfl⟩ := number_token ht
  cases (show Except.ok _ = Except.ok (v, s2) from hact)
  exact ⟨_, _, hlts, rfl, .primaryNumber⟩

theorem sound_primaryParen : Rule.Sound .primaryParen := by
  intro lts s vs s1 v s2 h hact
  obtain ⟨_, _, rfl, h1⟩ := h.after.plain rfl
  obtain ⟨ts, e, _, _, rfl, he, h2⟩ := h1.nonterminal
  obtain ⟨_, _, rfl, h3⟩ := h2.plain rfl
  obtain ⟨hlts, rfl, rfl⟩ := h3.stop
  cases (show Except.ok _ = Except.ok (v, s2) from hact)
  exact ⟨_, _, hlts, rfl, .primaryParen he⟩

/-! ### The actions that touch the scopes -/

theorem sound_assignment : Rule.Sound .assignment := by
  intro lts s vs s1 v s2 h hact
  obtain ⟨t, _, _, ht, rfl, h1⟩ := h.after.terminal
  obtain ⟨_, _, rfl, h2⟩ := h1.plain rfl
  obtain ⟨ts, e, _, _, rfl, he, h3⟩ := h2.nonterminal
  obtain ⟨hlts, rfl, rfl⟩ := h3.stop
  obtain ⟨x, rfl⟩ := id_token ht
  obtain ⟨y, hx, rfl⟩ :=
    withName_eq (N := .assignmentExpr) (f := fun y => Expression.assignmentExpr y e) hact
  exact ⟨_, _, hlts, rfl, .assignment he (core_assignName hx)⟩

theorem sound_primaryId : Rule.Sound .primaryId := by
  intro lts s vs s1 v s2 h hact
  obtain ⟨t, _, _, ht, rfl, h1⟩ := h.after.terminal
  obtain ⟨hlts, rfl, rfl⟩ := h1.stop
  obtain ⟨x, rfl⟩ := id_token ht
  obtain ⟨y, hx, rfl⟩ := withName_eq (N := .primary) hact
  exact ⟨_, _, hlts, rfl, .primaryId (core_useName hx)⟩

theorem sound_paramOne : Rule.Sound .paramOne := by
  intro lts s vs s1 v s2 h hact
  obtain ⟨t, _, _, ht, rfl, h1⟩ := h.after.terminal
  obtain ⟨hlts, rfl, rfl⟩ := h1.stop
  obtain ⟨x, rfl⟩ := id_token ht
  obtain ⟨y, hx, rfl⟩ := withName_eq (N := .paramList) (f := fun y => [y]) hact
  exact ⟨_, _, hlts, rfl, .paramOne (core_addVarToScope hx)⟩

theorem sound_paramSnoc : Rule.Sound .paramSnoc := by
  intro lts s vs s1 v s2 h hact
  obtain ⟨ts, ps, _, _, rfl, hps, h1⟩ := h.after.nonterminal
  obtain ⟨_, _, rfl, h2⟩ := h1.plain rfl
  obtain ⟨t, _, _, ht, rfl, h3⟩ := h2.terminal
  obtain ⟨hlts, rfl, rfl⟩ := h3.stop
  obtain ⟨x, rfl⟩ := id_token ht
  obtain ⟨y, hx, rfl⟩ := withName_eq (N := .paramList) (f := fun y => ps ++ [y]) hact
  refine ⟨_, _, ?_, rfl, .paramSnoc hps (core_addVarToScope hx)⟩
  rwa [List.append_assoc] at hlts

theorem sound_funcNameSome : Rule.Sound .funcNameSome := by
  intro lts s vs s1 v s2 h hact
  obtain ⟨_, _, rfl, h1⟩ := h.after.plain rfl
  obtain ⟨t, _, _, ht, rfl, h2⟩ := h1.terminal
  obtain ⟨hlts, rfl, rfl⟩ := h2.stop
  obtain ⟨x, rfl⟩ := id_token ht
  obtain ⟨y, hx, rfl⟩ := withName_eq (N := .optFuncName) hact
  exact ⟨_, _, hlts, rfl, .funcNameSome (core_addVarToScope hx)⟩

theorem sound_blockExpr : Rule.Sound .blockExpr := by
  intro lts s vs s1 v s2 h hact
  obtain ⟨_, _, rfl, h1⟩ := h.after.plain rfl
  obtain ⟨_, _, rfl, h2⟩ := h1.opened (.inl rfl)
  obtain ⟨ts, ss, _, _, rfl, hss, h3⟩ := h2.nonterminal
  obtain ⟨_, _, rfl, h4⟩ := h3.plain rfl
  obtain ⟨hlts, rfl, rfl⟩ := h4.stop
  obtain ⟨hp, rfl⟩ := popped_eq hact
  exact ⟨_, _, hlts, rfl, .blockExpr hss (core_popScope hp)⟩

theorem sound_functionExpr : Rule.Sound .functionExpr := by
  intro lts s vs s1 v s2 h hact
  obtain ⟨_, _, rfl, h1⟩ := h.after.plain rfl
  obtain ⟨_, _, rfl, h2⟩ := h1.opened (.inr rfl)
  obtain ⟨_, _, rfl, h3⟩ := h2.plain rfl
  obtain ⟨ts, ps, _, _, rfl, hps, h4⟩ := h3.nonterminal
  obtain ⟨_, _, rfl, h5⟩ := h4.plain rfl
  obtain ⟨us, f, _, _, rfl, hf, h6⟩ := h5.nonterminal
  obtain ⟨_, _, rfl, h7⟩ := h6.plain rfl
  obtain ⟨ws, ss, _, _, rfl, hss, h8⟩ := h7.nonterminal
  obtain ⟨_, _, rfl, h9⟩ := h8.plain rfl
  obtain ⟨hlts, rfl, rfl⟩ := h9.stop
  obtain ⟨hp, rfl⟩ := popped_eq hact
  exact ⟨_, _, hlts, rfl, .functionExpr hps hf hss (core_popScope hp)⟩

theorem sound_open (hr : r.rhs = []) (hl : r.lhs = .blockOpen ∨ r.lhs = .functionOpen)
    (ha : ∀ s, act r [] s = .ok (.none, s.pushScope)) : r.Sound := by
  intro lts s vs s1 v s2 h hact
  rw [hr] at h
  obtain ⟨rfl, rfl, rfl⟩ := h
  rw [ha] at hact
  cases hact
  rcases hl with hl | hl <;> rw [hl] <;> exact ⟨rfl, rfl⟩

end Sound

/-- **Every production of the machine is one of `Derives`.** -/
theorem rule_sound (r : Rule) : r.Sound := by
  cases r with
  | accept => intro lts s vs s1 v s2 _ _; trivial
  | program =>
      exact .ended (M := .toplevelStmtList) (N := .program) (fun ss => ss) rfl rfl rfl
        (fun _ _ _ => rfl) (fun h => .program h)
  | toplevelNil => exact .empty (N := .toplevelStmtList) _ rfl rfl (fun _ => rfl) .toplevelNil
  | toplevelSnoc =>
      exact .pair (M := .toplevelStmtList) (K := .toplevelStatement) (N := .toplevelStmtList)
        (fun ss st => ss ++ [st]) rfl rfl (fun _ _ _ => rfl) .toplevelSnoc
  | toplevelStatement =>
      exact .unit (M := .statement) (N := .toplevelStatement) some rfl rfl (fun _ _ => rfl)
        .toplevelStatement
  | toplevelBrace => exact sound_toplevelBrace
  | stmtNil => exact .empty (N := .stmtList) _ rfl rfl (fun _ => rfl) .stmtNil
  | stmtSnoc =>
      exact .pair (M := .stmtList) (K := .statement) (N := .stmtList) (fun ss st => ss ++ [st]) rfl rfl
        (fun _ _ _ => rfl) .stmtSnoc
  | statementIf =>
      exact .unit (M := .ifStmt) (N := .statement) (fun st => st) rfl rfl (fun _ _ => rfl) .statementIf
  | statementWhile =>
      exact .unit (M := .whileStmt) (N := .statement) (fun st => st) rfl rfl (fun _ _ => rfl)
        .statementWhile
  | statementPrint =>
      exact .ended (M := .printStmt) (N := .statement) (fun st => st) rfl rfl rfl (fun _ _ _ => rfl)
        (fun h => .statementPrint h)
  | statementReturn =>
      exact .ended (M := .returnStmt) (N := .statement) (fun st => st) rfl rfl rfl (fun _ _ _ => rfl)
        (fun h => .statementReturn h)
  | statementExpr =>
      exact .unit (M := .exprStmt) (N := .statement) (fun st => st) rfl rfl (fun _ _ => rfl)
        .statementExpr
  | statementEmpty =>
      exact .unit (M := .emptyStmt) (N := .statement) (fun st => st) rfl rfl (fun _ _ => rfl)
        .statementEmpty
  -- productions with `error` recover; what they read is not derived without it
  | statementError | ifError | ifParenError | whileError | whileParenError => exact .error (by decide)
  | emptyStmt => exact .single (N := .emptyStmt) _ rfl rfl rfl (fun _ _ => rfl) .emptyStmt
  | exprStmt =>
      exact .ended (M := .expression) (N := .exprStmt) Statement.exprStmt rfl rfl rfl
        (fun _ _ _ => rfl) (fun h => .exprStmt h)
  | ifThen =>
      exact .guarded (N := .ifStmt) (fun c t => Statement.ifStmt c t none) rfl rfl rfl
        (fun _ _ _ _ _ _ => rfl) .ifThen
  | ifThenElse => exact sound_ifThenElse
  | whileStmt =>
      exact .guarded (N := .whileStmt) Statement.whileStmt rfl rfl rfl (fun _ _ _ _ _ _ => rfl)
        .whileStmt
  | printStmt =>
      exact .headed (M := .expression) (N := .printStmt) Statement.printStmt rfl rfl rfl
        (fun _ _ _ => rfl) (fun h => .printStmt h)
  | returnNone => exact .single (N := .returnStmt) _ rfl rfl rfl (fun _ _ => rfl) .returnNone
  | returnSome =>
      exact .headed (M := .expression) (N := .returnStmt) (fun e => Statement.returnStmt (some e)) rfl
        rfl rfl (fun _ _ _ => rfl) (fun h => .returnSome h)
  | expression =>
      exact .unit (M := .assignmentExpr) (N := .expression) (fun e => e) rfl rfl (fun _ _ => rfl)
        .expression
  | assignmentOr =>
      exact .unit (M := .level .or) (N := .assignmentExpr) (fun e => e) rfl rfl (fun _ _ => rfl)
        .assignmentOr
  | assignment => exact sound_assignment
  | operand l => exact sound_operand l
  | binary op => exact sound_binary op
  | unary op => exact sound_unary op
  | postfixPrimary =>
      exact .unit (M := .primary) (N := .postfixExpr) (fun e => e) rfl rfl (fun _ _ => rfl)
        .postfixPrimary
  | postfixCall => exact sound_postfixCall
  | optArgNone => exact .empty (N := .optArgList) _ rfl rfl (fun _ => rfl) .optArgNone
  | optArgSome =>
      exact .unit (M := .argList) (N := .optArgList) (fun es => es) rfl rfl (fun _ _ => rfl) .optArgSome
  | argOne =>
      exact .unit (M := .expression) (N := .argList) (fun e => [e]) rfl rfl (fun _ _ => rfl) .argOne
  | argSnoc => exact sound_argSnoc
  | primaryNumber => exact sound_primaryNumber
  | primaryId => exact sound_primaryId
  | primaryParen => exact sound_primaryParen
  | primaryFunction =>
      exact .unit (M := .functionExpr) (N := .primary) (fun e => e) rfl rfl (fun _ _ => rfl)
        .primaryFunction
  | primaryInput =>
      exact .unit (M := .inputExpr) (N := .primary) (fun e => e) rfl rfl (fun _ _ => rfl) .primaryInput
  | primaryBlock =>
      exact .unit (M := .blockExpr) (N := .primary) (fun e => e) rfl rfl (fun _ _ => rfl) .primaryBlock
  | inputExpr => exact .single (N := .inputExpr) _ rfl rfl rfl (fun _ _ => rfl) .inputExpr
  -- the mid-rule actions read nothing and open a scope
  | blockOpen => exact sound_open rfl (.inl rfl) (fun _ => rfl)
  | blockExpr => exact sound_blockExpr
  | functionOpen => exact sound_open rfl (.inr rfl) (fun _ => rfl)
  | functionExpr => exact sound_functionExpr
  | optParamNone => exact .empty (N := .optParamList) _ rfl rfl (fun _ => rfl) .optParamNone
  | optParamSome =>
      exact .unit (M := .paramList) (N := .optParamList) (fun ps => ps) rfl rfl (fun _ _ => rfl)
        .optParamSome
  | paramOne => exact sound_paramOne
  | paramSnoc => exact sound_paramSnoc
  | funcNameNone => exact .empty (N := .optFuncName) _ rfl rfl (fun _ => rfl) .funcNameNone
  | funcNameSome => exact sound_funcNameSome

/-- Tokens as the lexer hands them to the parser. -/
def Proper (lts : List (Terminal × SemanticValue)) : Prop :=
  ∀ p ∈ lts, ∃ t loc, p = (t.terminal, SemanticValue.token t loc)

theorem located_unique {lts : List (Terminal × SemanticValue)} {ts us : List Token}
    (h : Located lts ts) (h' : Located lts us) : ts = us := by
  induction ts generalizing lts us with
  | nil =>
      obtain rfl := located_nil.mp h
      cases h'
      rfl
  | cons t ts ih =>
      obtain ⟨loc, rest, rfl, hr⟩ := located_cons.mp h
      cases us with
      | nil => cases located_nil.mp h'
      | cons u us =>
          obtain ⟨loc', rest', he, hr'⟩ := located_cons.mp h'
          simp only [List.cons.injEq, Prod.mk.injEq, SemanticValue.token.injEq] at he
          obtain ⟨⟨_, rfl, _⟩, rfl⟩ := he
          rw [ih hr hr']

/-- **What the machine derives, `Derives` derives.** -/
theorem derivedAll_of_reads {L : Type} {lex : L → Except Escape (Lexed × Location × L)}
    {describe : List Terminal → Terminal → String} {β : List (GrammarSymbol Terminal Lhs)}
    {lts : List (Terminal × SemanticValue)} {s s' : MyParser} {vs : List SemanticValue}
    (h : ReadsAll grammar (parserActions lex describe) β lts s vs s') (hp : Proper lts) :
    DerivedAll β lts s vs s' := by
  induction h with
  | nil => exact ⟨rfl, rfl, rfl⟩
  | @terminal β T v lts s s' vs _ ih =>
      obtain ⟨t, loc, he⟩ := hp _ (List.mem_cons_self ..)
      cases he
      refine ⟨[_], lts, _, vs, s, rfl, rfl, ⟨rfl, t, loc, rfl, ?_, rfl⟩,
        ih (fun q hq => hp q (List.mem_cons_of_mem _ hq))⟩
      exact located_cons.mpr ⟨loc, [], rfl, located_nil.mpr rfl⟩
  | @nonterminal β r lts us s s1 s2 s' vs ws v _ ha _ ihr ih =>
      have hr := ihr (fun q hq => hp q (List.mem_append_left _ hq))
      exact ⟨lts, us, v, ws, s2, rfl, rfl, rule_sound r _ _ _ _ _ _ hr ha,
        ih (fun q hq => hp q (List.mem_append_right _ hq))⟩

end ParaCL
