import ParaCL.Parser.Acceptance

/-!
# `Parser.Stack` — what holds of the parser's stack at every point of a parse

Over any lexer and through error recovery: every value on the stack has its symbol's type, and there is
at least one scope more than openings of blocks and functions on the stack (recovery may drop an opening
and keep its scope, never the other way round). So no action throws, and an exception that leaves the
parser comes from the lexer.
-/

namespace ParaCL

open Lib Bison

/-! ## Places in the productions -/

/-- The items that go on with a symbol. -/
def Rule.before (x : GrammarSymbol Terminal Lhs) : List (Item Rule) :=
  Rule.all.flatMap (fun r =>
    ((List.range r.rhs.length).filter (fun d => r.rhs[d]? = some x)).map (Item.mk r))

theorem Rule.mem_before {x : GrammarSymbol Terminal Lhs} {it : Item Rule} (h : grammar.next it = some x) :
    it ∈ Rule.before x := by
  have hlt := (List.getElem?_eq_some_iff.mp h).1
  refine List.mem_flatMap.mpr ⟨it.rule, Rule.mem_all _, List.mem_map.mpr ⟨it.dot, ?_, rfl⟩⟩
  exact List.mem_filter.mpr ⟨List.mem_range.mpr hlt, decide_eq_true h⟩

/-! ## Values of the right type -/

/-- The value has the type of its symbol. -/
inductive Typed : GrammarSymbol Terminal Lhs → SemanticValue → Prop where
  | error {v : SemanticValue} : Typed (.terminal .error) v
  | token {T : Terminal} {t : Token} {loc : Location} (h : t.terminal = T) :
      Typed (.terminal T) (.token t loc)
  | blockOpen : Typed (.nonterminal .blockOpen) .none
  | functionOpen : Typed (.nonterminal .functionOpen) .none
  | of {N : Nonterminal} {x : N.Value} : Typed (.nonterminal (.of N)) (.of N x)

/-- The value of a nonterminal is no token. -/
theorem not_typed_token {a : Lhs} {t : Token} {loc : Location} :
    ¬ Typed (.nonterminal a) (.token t loc) := by
  intro h
  cases h

theorem typed_translate {lexed : Lexed} {loc : Location} :
    Typed (.terminal (translate lexed loc).1) (translate lexed loc).2 := by
  cases lexed <;> exact .token rfl

/-- An identifier token. -/
theorem typed_tokId {v : SemanticValue} (h : Typed (.terminal .tokId) v) :
    ∃ x loc, v = .token (.tokId x) loc := by
  cases h with
  | @token _ t loc ht => cases t <;> first | exact ⟨_, _, rfl⟩ | cases ht

theorem typed_tokNumber {v : SemanticValue} (h : Typed (.terminal .tokNumber) v) :
    ∃ n loc, v = .token (.tokNumber n) loc := by
  cases h with
  | @token _ t loc ht => cases t <;> first | exact ⟨_, _, rfl⟩ | cases ht

/-- The productions whose action uses the scopes or reports an error. -/
def Rule.effectful : Rule → Bool
  | .toplevelBrace | .assignment | .primaryId | .blockOpen | .functionOpen | .blockExpr | .functionExpr
  | .paramOne | .paramSnoc | .funcNameSome => true
  | _ => false

/-- The actions that only build the tree find values of the types they read. -/
theorem build_ok {r : Rule} {vs : List SemanticValue} (h : List.Forall₂ Typed r.rhs vs)
    (hr : r.effectful = false) (ha : r ≠ .accept) :
    ∃ v, build r vs = .ok v ∧ Typed (.nonterminal r.lhs) v := by
  cases r with
  | accept => exact absurd rfl ha
  | toplevelBrace | assignment | primaryId | blockOpen | functionOpen | blockExpr | functionExpr
  | paramOne | paramSnoc | funcNameSome => cases hr
  | primaryNumber =>
      rcases h with _ | ⟨h1, _ | _⟩
      obtain ⟨n, loc, rfl⟩ := typed_tokNumber h1
      exact ⟨_, rfl, .of⟩
  | operand l =>
      rcases h with _ | ⟨h1, _ | _⟩
      cases l <;> (cases h1; exact ⟨_, rfl, .of⟩)
  | binary op =>
      rcases h with _ | ⟨h1, _ | ⟨_, _ | ⟨h3, _ | _⟩⟩⟩
      cases op <;> (cases h1; cases h3; exact ⟨_, rfl, .of⟩)
  | unary op =>
      rcases h with _ | ⟨_, _ | ⟨h2, _ | _⟩⟩
      cases h2
      exact ⟨_, rfl, .of⟩
  | _ =>
      -- the other productions have a fixed right-hand side
      casesm* List.Forall₂ _ _ _
      all_goals
        try casesm* Typed _ _
        all_goals exact ⟨_, rfl, .of⟩

/-! ## What an action does to the scopes -/

/-- Openings push a scope, the productions they belong to pop one, and the others at most declare. -/
def Rule.Moves (r : Rule) (Γ Δ : Layers Name) : Prop :=
  match r with
  | .blockOpen | .functionOpen => Δ = [] :: Γ
  | .blockExpr | .functionExpr => Δ = Γ.tail
  | _ => Layers.Grows Γ Δ

section Scopes

variable {r : Rule} {vs : List SemanticValue} {s s' : MyParser} {v : SemanticValue} {x y : Name}
  {loc : Location}

theorem MyParser.addVarToScope_eq (hs : s.scopes.scopes ≠ []) :
    s.addVarToScope x = .ok (x, { s with scopes := ⟨Layers.declare x s.scopes.scopes⟩ }) := by
  rw [MyParser.addVarToScope, Scope.addVariable_ok hs]

theorem MyParser.assignName_total (hs : s.scopes.scopes ≠ []) : ∃ y s', s.assignName x = .ok (y, s') := by
  unfold MyParser.assignName
  split
  · exact ⟨_, _, rfl⟩
  · exact ⟨_, _, addVarToScope_eq hs⟩

theorem MyParser.useName_total (hs : s.scopes.scopes ≠ []) : ∃ y s', s.useName x loc = .ok (y, s') := by
  unfold MyParser.useName
  split
  · exact ⟨_, _, rfl⟩
  · exact ⟨_, _, addVarToScope_eq hs⟩

theorem MyParser.popScope_eq (hs : s.scopes.scopes ≠ []) :
    s.popScope = .ok { s with scopes := ⟨s.scopes.scopes.tail⟩ } := by
  obtain ⟨⟨Γ⟩, errors, lines⟩ := s
  cases Γ with
  | nil => exact absurd rfl hs
  | cons l ls => rfl

theorem MyParser.addVarToScope_grows (hs : s.scopes.scopes ≠ []) (h : s.addVarToScope x = .ok (y, s')) :
    Layers.Grows s.scopes.scopes s'.scopes.scopes := by
  rw [addVarToScope_eq hs] at h
  cases h
  exact Layers.grows_declare hs

theorem MyParser.assignName_grows (hs : s.scopes.scopes ≠ []) (h : s.assignName x = .ok (y, s')) :
    Layers.Grows s.scopes.scopes s'.scopes.scopes := by
  unfold assignName at h
  split at h
  · cases h
    exact .refl hs
  · exact addVarToScope_grows hs h

theorem MyParser.useName_grows (hs : s.scopes.scopes ≠ []) (h : s.useName x loc = .ok (y, s')) :
    Layers.Grows s.scopes.scopes s'.scopes.scopes := by
  unfold useName at h
  split at h
  · cases h
    exact .refl hs
  · exact addVarToScope_grows (s := s.error loc (.undeclared x)) hs h

theorem withName_ok {N : Nonterminal} {f : Name → N.Value} {res : Except Escape (Name × MyParser)}
    (h : res = .ok (y, s')) : withName N f res = .ok (.of N (f y), s') := by
  rw [h]
  rfl

/-- **No action throws** on values of the right types with a scope to work in. -/
theorem act_ok (h : List.Forall₂ Typed r.rhs vs) (ha : r ≠ .accept) (hs : s.scopes.scopes ≠ []) :
    ∃ v s', act r vs s = .ok (v, s') ∧ Typed (.nonterminal r.lhs) v := by
  cases hr : r.effectful with
  -- actions without effects only build a node from their values
  | false =>
      obtain ⟨v, hv, ht⟩ := build_ok h hr ha
      refine ⟨v, s, ?_, ht⟩
      cases r <;> first
        | exact absurd rfl ha
        | (cases hr; done)
        | (show (build _ vs).map (fun v => (v, s)) = _; rw [hv]; rfl)
  | true =>
      cases r with
      | toplevelBrace =>
          rcases h with _ | ⟨h1, _ | _⟩
          cases h1
          exact ⟨_, _, rfl, .of⟩
      | assignment =>
          rcases h with _ | ⟨h1, _ | ⟨_, _ | ⟨h3, _ | _⟩⟩⟩
          obtain ⟨x, loc, rfl⟩ := typed_tokId h1
          cases h3
          obtain ⟨y, s', hx⟩ := MyParser.assignName_total (x := x) hs
          exact ⟨_, s', withName_ok (N := .assignmentExpr)
            (f := fun y => Expression.assignmentExpr y _) hx, .of⟩
      | primaryId =>
          rcases h with _ | ⟨h1, _ | _⟩
          obtain ⟨x, loc, rfl⟩ := typed_tokId h1
          obtain ⟨y, s', hx⟩ := MyParser.useName_total (x := x) hs
          exact ⟨_, s', withName_ok hx, .of⟩
      | blockOpen => exact ⟨_, _, rfl, .blockOpen⟩
      | functionOpen => exact ⟨_, _, rfl, .functionOpen⟩
      | blockExpr =>
          rcases h with _ | ⟨_, _ | ⟨_, _ | ⟨h3, _ | ⟨_, _ | _⟩⟩⟩⟩
          cases h3
          exact ⟨_, _, by show Except.map _ _ = _; rw [MyParser.popScope_eq hs]; rfl, .of⟩
      -- nine symbols with the mid-rule action: the fourth, sixth and eighth carry values
      | functionExpr =>
          rcases h with _ | ⟨_, _ | ⟨_, _ | ⟨_, _ | ⟨h4, _ | ⟨_, _ | ⟨h6, _ | ⟨_, _ | ⟨h8, _ | ⟨_, _ | _⟩⟩⟩⟩⟩⟩⟩⟩⟩
          cases h4
          cases h6
          cases h8
          exact ⟨_, _, by show Except.map _ _ = _; rw [MyParser.popScope_eq hs]; rfl, .of⟩
      | paramOne =>
          rcases h with _ | ⟨h1, _ | _⟩
          obtain ⟨x, loc, rfl⟩ := typed_tokId h1
          exact ⟨_, _, withName_ok (N := .paramList) (f := fun y => [y]) (MyParser.addVarToScope_eq hs), .of⟩
      | paramSnoc =>
          rcases h with _ | ⟨h1, _ | ⟨_, _ | ⟨h3, _ | _⟩⟩⟩
          obtain ⟨x, loc, rfl⟩ := typed_tokId h3
          cases h1
          exact ⟨_, _, withName_ok (N := .paramList) (f := fun y => _ ++ [y]) (MyParser.addVarToScope_eq hs), .of⟩
      | funcNameSome =>
          rcases h with _ | ⟨_, _ | ⟨h2, _ | _⟩⟩
          obtain ⟨x, loc, rfl⟩ := typed_tokId h2
          exact ⟨_, _, withName_ok (MyParser.addVarToScope_eq hs), .of⟩
      | _ => cases hr

/-- **The scopes after an action.** -/
theorem act_moves (h : act r vs s = .ok (v, s')) (hs : s.scopes.scopes ≠ []) :
    r.Moves s.scopes.scopes s'.scopes.scopes := by
  cases hr : r.effectful with
  | false =>
      have hss : s' = s := by
        cases act_acts h with
        | build => rfl
        | opens h1 | closes h1 => rcases h1 with rfl | rfl <;> cases hr
        | declares h1 => rcases h1 with rfl | rfl | rfl <;> cases hr
        | toplevelBrace | assignment | primaryId => cases hr
      rw [hss]
      cases r <;> first | (cases hr; done) | exact Layers.Grows.refl hs
  | true =>
      cases act_acts h with
      | build hb => cases r <;> first | (cases hr; done) | cases hb
      | toplevelBrace => exact Layers.Grows.refl hs
      | assignment hx => exact (MyParser.assignName_grows hs hx)
      | primaryId hx => exact (MyParser.useName_grows hs hx)
      | opens h1 => rcases h1 with rfl | rfl <;> rfl
      | closes h1 hp =>
          rw [MyParser.popScope_eq hs] at hp
          cases hp
          rcases h1 with rfl | rfl <;> rfl
      | declares h1 hx =>
          have hg := MyParser.addVarToScope_grows hs hx
          rcases h1 with rfl | rfl | rfl <;> exact hg

end Scopes

/-! ## The stack -/

/-- The mid-rule symbol of a block or of a function. -/
def isOpening : GrammarSymbol Terminal Lhs → Bool
  | .nonterminal .blockOpen | .nonterminal .functionOpen => true
  | _ => false

/-- The openings of blocks and functions on a stack. -/
def openings (γ : List (GrammarSymbol Terminal Lhs)) : Nat := γ.countP isOpening

theorem openings_append (γ δ : List (GrammarSymbol Terminal Lhs)) :
    openings (γ ++ δ) = openings γ + openings δ := List.countP_append

theorem openings_cons (x : GrammarSymbol Terminal Lhs) (γ : List (GrammarSymbol Terminal Lhs)) :
    openings (x :: γ) = openings [x] + openings γ := openings_append [x] γ

theorem openings_reverse (γ : List (GrammarSymbol Terminal Lhs)) : openings γ.reverse = openings γ :=
  List.countP_reverse

/-- What a reduction does to the scopes shows in the openings on the stack. -/
theorem Rule.Moves.cases {r : Rule} {Γ Δ : Layers Name} (h : r.Moves Γ Δ) :
    (openings r.rhs = 0 ∧ openings [.nonterminal r.lhs] = 1 ∧ Δ = [] :: Γ) ∨
      (openings r.rhs = 1 ∧ openings [.nonterminal r.lhs] = 0 ∧ Δ = Γ.tail) ∨
      openings r.rhs = 0 ∧ openings [.nonterminal r.lhs] = 0 ∧ Layers.Grows Γ Δ := by
  cases r with
  | blockOpen | functionOpen => exact .inl ⟨rfl, rfl, h⟩
  | blockExpr | functionExpr => exact .inr (.inl ⟨rfl, rfl, h⟩)
  | operand l => cases l <;> exact .inr (.inr ⟨rfl, rfl, h⟩)
  | binary op => cases op <;> exact .inr (.inr ⟨rfl, rfl, h⟩)
  | unary op => cases op <;> exact .inr (.inr ⟨rfl, rfl, h⟩)
  | _ => exact .inr (.inr ⟨rfl, rfl, h⟩)

/-- A reduction changes the number of scopes and of openings alike. -/
theorem Rule.Moves.length {r : Rule} {Γ Δ : Layers Name} (h : r.Moves Γ Δ) (hΓ : Γ ≠ []) :
    Δ.length + openings r.rhs = Γ.length + openings [.nonterminal r.lhs] := by
  have hpos : 0 < Γ.length := List.length_pos_iff.mpr hΓ
  rcases h.cases with ⟨h1, h2, rfl⟩ | ⟨h1, h2, rfl⟩ | ⟨h1, h2, l, m, ls, rfl, rfl, _⟩
  · rw [h1, h2, List.length_cons]
  · rw [h1, h2, List.length_tail]
    omega
  · rw [h1, h2]
    rfl

section Run

variable {L : Type} {lex : L → Except Escape (Lexed × Location × L)}
  {describe : List Terminal → Terminal → String} {c c' : Parse L} {e : Escape}

/-- The parser asks the lexer for a token. -/
def Asks (c : Parse L) : Prop :=
  c.popping = false ∧ c.lookahead = none ∧ ¬ ∃ it, Reduces grammar c it

/-- What holds of the stack at every point of a parse. -/
structure StackOk (c : Parse L) : Prop where
  typed : ∀ x ∈ c.stack, Typed x.1 x.2
  lookahead : ∀ tok ∈ c.lookahead, Typed (.terminal tok.1) tok.2
  scopes : openings (symbols c) < c.state.scopes.scopes.length

theorem StackOk.ne_nil (h : StackOk c) : c.state.scopes.scopes ≠ [] :=
  List.length_pos_iff.mp (Nat.lt_of_le_of_lt (Nat.zero_le _) h.scopes)

/-- The values a reduction takes have the types of its right-hand side. -/
theorem StackOk.values (h : StackOk c) {it : Item Rule} (hr : Reduces grammar c it) :
    List.Forall₂ Typed it.rule.rhs
      ((c.stack.take it.rule.rhs.length).reverse.map Prod.snd) := by
  obtain ⟨_, _, _, hsym, _⟩ := hr.split
  have hsym : (c.stack.take it.rule.rhs.length).reverse.map Prod.fst = it.rule.rhs := hsym
  generalize hes : (c.stack.take it.rule.rhs.length).reverse = es at hsym
  rw [← hsym, List.forall₂_map_left_iff, List.forall₂_map_right_iff, List.forall₂_same]
  intro x hx
  rw [← hes] at hx
  exact h.typed x (List.mem_of_mem_take (List.mem_reverse.mp hx))

theorem StackOk.step (h : StackOk c) (hs : parseStep lex describe c = .inl c') : StackOk c' := by
  obtain ⟨htyped, hlook, hscopes⟩ := h
  cases parseStep_does hs with
  -- popping takes symbols off and leaves the scopes: there are only more of them than needed
  | @pop x stack _ _ hst =>
      refine ⟨fun y hy => htyped y (hst ▸ List.mem_cons_of_mem _ hy), hlook, ?_⟩
      have hle : openings (stack.map Prod.fst) ≤ openings (symbols c) := by
        rw [symbols, hst, List.map_cons, openings_cons]
        exact Nat.le_add_left ..
      exact Nat.lt_of_le_of_lt hle hscopes
  | shiftError =>
      refine ⟨?_, hlook, hscopes⟩
      rintro y (_ | ⟨_, hy⟩)
      · exact .error
      · exact htyped y hy
  | lex _ _ _ hlex =>
      refine ⟨htyped, ?_, hscopes⟩
      rintro tok ⟨⟩
      obtain ⟨_, _, _, rfl⟩ := parser_lex_eq.mp hlex
      exact typed_translate
  | @shift tok _ hl =>
      refine ⟨?_, fun tok h => (by cases h), hscopes⟩
      rintro y (_ | ⟨_, hy⟩)
      · exact hlook tok hl
      · exact htyped y hy
  | @reduce it v s _ hr hst ha =>
      have hok : StackOk c := ⟨htyped, hlook, hscopes⟩
      obtain ⟨v', s', ha', ht⟩ := act_ok (hok.values hr) hst hok.ne_nil
      cases ha'.symm.trans (show act it.rule _ _ = .ok (v, s) from ha)
      refine ⟨?_, hlook, ?_⟩
      · rintro y (_ | ⟨_, hy⟩)
        · exact ht
        · exact htyped y (List.mem_of_mem_drop hy)
      · obtain ⟨γ, hγ, hdrop, _⟩ := hr.split
        have hm := (act_moves ha' hok.ne_nil).length hok.ne_nil
        show openings (_ :: (c.stack.drop _).map Prod.fst) < _
        rw [hγ, openings_append, openings_reverse] at hscopes
        rw [hdrop, openings_cons]
        show openings [.nonterminal it.rule.lhs] + _ < s.scopes.scopes.length
        have hscopes : openings it.rule.rhs + openings γ < c.state.scopes.scopes.length := hscopes
        omega
  | report | retry => exact ⟨htyped, hlook, hscopes⟩
  | discard => exact ⟨htyped, fun tok h => (by cases h), hscopes⟩

/-- **An exception that leaves the parser comes from the lexer.** -/
theorem StackOk.escape (h : StackOk c) (hs : parseStep lex describe c = .inr (.escape e)) :
    Asks c ∧ lex c.lexer = .error e := by
  have hd := step_does (G := grammar) (A := parserActions lex describe) c
  rw [show Bison.step grammar (parserActions lex describe) c = _ from hs] at hd
  cases hd with
  | lexEscape hp hl hno hlex => exact ⟨⟨hp, hl, hno⟩, parser_lex_error.mp hlex⟩
  | reduceEscape _ hr hst ha =>
      obtain ⟨v, s, ha', _⟩ := act_ok (h.values hr) hst h.ne_nil
      cases ha'.symm.trans (show act _ _ _ = .error e from ha)

theorem StackOk.star (h : StackOk c) (hs : Star (parseStep lex describe) c c') : StackOk c' :=
  hs.invariant StackOk.step h

theorem stackOk_start (text : List Char) (n : Nat) : StackOk (parseStart text n) :=
  ⟨fun x hx => (by cases hx), fun tok h => (by cases h), Nat.zero_lt_one⟩

end Run

end ParaCL
