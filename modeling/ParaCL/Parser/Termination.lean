import Mathlib.Algebra.GroupWithZero.Nat
import Mathlib.Data.Prod.Lex
import ParaCL.Parser.ErrorLines

/-!
# `Parser.Termination` — the parser always stops

Between two tokens the parser reduces, recovers from at most one error, and cannot reduce again before
the next token. Reductions are bounded by a weight of the stack that each of them decreases; what an
empty right-hand side adds was put aside as credit with the symbol before it. After the end of the input
has been shifted only a few steps are left.
-/

namespace ParaCL

open Lib Bison

/-! ## Weights -/

/-- More for a right-hand side than for its left one. -/
def symbolWeight : GrammarSymbol Terminal Lhs → Nat
  | .terminal _ => 20
  | .nonterminal .accept | .nonterminal .blockOpen | .nonterminal .functionOpen => 1
  | .nonterminal (.of N) =>
      match N with
      | .program | .toplevelStmtList | .toplevelStatement | .stmtList | .optArgList | .optParamList
      | .optFuncName => 1
      | .statement | .argList | .paramList => 2
      | .emptyStmt | .exprStmt | .ifStmt | .whileStmt | .printStmt | .returnStmt | .expression => 3
      | .assignmentExpr => 4
      | .level .or => 5
      | .level .and => 6
      | .level .bitwiseOp => 7
      | .level .equality => 8
      | .level .relational => 9
      | .level .addSub => 10
      | .level .mulDiv => 11
      | .level .unary => 12
      | .postfixExpr => 13
      | .primary => 14
      | .inputExpr | .blockExpr | .functionExpr => 15

/-- What is put aside for the empty right-hand sides that may follow the top of the stack. -/
def credit : Option (GrammarSymbol Terminal Lhs) → Nat
  | none | some (.nonterminal .blockOpen) | some (.terminal .tokFunc) | some (.terminal .tokLeftParen)
  | some (.terminal .tokRightParen) => 2
  | some (.terminal .tokLeftBrace) => 4
  | _ => 0

def stackWeight (γ : List (GrammarSymbol Terminal Lhs)) : Nat := (γ.map symbolWeight).sum + credit γ.head?

/-- A right-hand side weighs more than its left-hand side, or has been paid for before; and no rule ends in
    `error`. -/
theorem weight_rules :
    (∀ r ∈ Rule.all, r.rhs ≠ [] → symbolWeight (.nonterminal r.lhs) +
        credit (some (.nonterminal r.lhs)) < (r.rhs.map symbolWeight).sum) ∧
      (∀ r ∈ Rule.all, ∀ d ∈ List.range r.rhs.length, 0 < d →
        ∀ b ∈ Lhs.all, r.rhs[d]? = some (.nonterminal b) → ∀ a ∈ Lhs.corners b, ∀ r' ∈ Rule.rules a,
          r'.rhs = [] →
            symbolWeight (.nonterminal a) + credit (some (.nonterminal a)) < credit r.rhs[d - 1]?) ∧
      (∀ a ∈ Lhs.corners (.of .program), ∀ r ∈ Rule.rules a, r.rhs = [] →
        symbolWeight (.nonterminal a) + credit (some (.nonterminal a)) < credit none) ∧
      ∀ r ∈ Rule.all, r.rhs.getLast? ≠ some (.terminal .error) := by
  decide +kernel

section Weights

variable {γ : List (GrammarSymbol Terminal Lhs)} {r : Rule}

/-- An empty right-hand side is paid for by the credit of the top of the stack. -/
theorem credit_of_items (h : ⟨r, 0⟩ ∈ grammar.items γ) (hr : r ≠ .accept) (hnil : r.rhs = []) :
    symbolWeight (.nonterminal r.lhs) + credit (some (.nonterminal r.lhs)) < credit γ.head? := by
  rcases Grammar.mem_closure.mp h with hk | ⟨_, ⟨r', d⟩, hi, b, hb, hc⟩
  · rcases Grammar.dot_pos_of_kernel hk with ⟨he, _⟩ | hpos
    · cases he
      exact absurd rfl hr
    · exact absurd hpos (Nat.lt_irrefl 0)
  · have hb : r'.rhs[d]? = some (.nonterminal b) := hb
    rcases Grammar.dot_pos_of_kernel hi with ⟨he, rfl⟩ | hpos
    · cases he
      cases hb
      exact weight_rules.2.2.1 _ hc r (Rule.mem_rules.mpr rfl) hnil
    · obtain ⟨k, rfl⟩ := Nat.exists_eq_add_one_of_ne_zero (Nat.pos_iff_ne_zero.mp hpos)
      obtain ⟨x, γ', rfl, hx, _⟩ := Grammar.mem_items_succ (Grammar.mem_items_of_kernel hi)
      have hx : r'.rhs[k]? = some x := hx
      have hlt := weight_rules.2.1 r' (Rule.mem_all r') (k + 1)
        (List.mem_range.mpr (List.getElem?_eq_some_iff.mp hb).1) hpos b (Lhs.mem_all b) hb _ hc r
        (Rule.mem_rules.mpr rfl) hnil
      rwa [Nat.add_sub_cancel, hx] at hlt

/-- **A reduction makes the stack lighter.** -/
theorem stackWeight_reduce (h : ⟨r, 0⟩ ∈ grammar.items γ) (hr : r ≠ .accept) :
    stackWeight (.nonterminal r.lhs :: γ) < stackWeight (r.rhs.reverse ++ γ) := by
  rw [stackWeight, stackWeight, List.map_cons, List.sum_cons, List.map_append, List.sum_append,
    List.map_reverse, List.sum_reverse]
  show _ + _ + credit (some (.nonterminal r.lhs)) < _
  by_cases hnil : r.rhs = []
  · have hc := credit_of_items h hr hnil
    rw [hnil]
    show _ < 0 + _ + credit γ.head?
    omega
  · have hw := weight_rules.1 r (Rule.mem_all r) hnil
    omega

/-- Nothing is reduced right after an `error`. -/
theorem complete_error : grammar.complete (.terminal .error :: γ) = none := by
  cases hc : grammar.complete (.terminal .error :: γ) with
  | none => rfl
  | some it =>
      exfalso
      obtain ⟨_, γ', hγ, h0⟩ := Grammar.complete_split hc
      have hlast := weight_rules.2.2.2
      by_cases hnil : it.rule.rhs = []
      · have hγ : GrammarSymbol.terminal Terminal.error :: γ = it.rule.rhs.reverse ++ γ' := hγ
        rw [hnil] at hγ
        obtain rfl : GrammarSymbol.terminal Terminal.error :: γ = γ' := hγ
        have hne : it.rule ≠ .accept := by
          intro he
          rw [he] at hnil
          cases hnil
        exact absurd (credit_of_items h0 hne hnil) (Nat.not_lt_zero _)
      · refine hlast it.rule (Rule.mem_all _) ?_
        have hhead : (it.rule.rhs.reverse ++ γ').head? = some (.terminal .error) := by
          rw [show it.rule.rhs.reverse ++ γ' = _ from hγ.symm]
          rfl
        rwa [List.head?_append_of_ne_nil _ (by simpa using hnil), List.head?_reverse] at hhead

end Weights

/-! ## After the end of the input -/

theorem after_program : grammar.expected [.nonterminal (.of .program)] = [.tokEof] ∧
    grammar.shifts [] .error = false ∧ grammar.shifts [.nonterminal (.of .program)] .error = false := by
  decide +kernel

section Ends

variable {L : Type} {lex : L → Except Escape (Lexed × Location × L)}
  {describe : List Terminal → Terminal → String} {c c' : Parse L}

theorem ends_final (hp : c.popping = false) (hl : c.lookahead = none)
    (hc : symbols c = [.terminal .tokEof, .nonterminal (.of .program)]) :
    ∃ d r, Ends (parseStep lex describe) c d r := by
  refine exists_ends (fun c' hs => ?_)
  have hred : Reduces grammar c ⟨.accept, 2⟩ :=
    ⟨by rw [hc]; exact reduces_final, .inl ⟨hl, by rw [hc]; exact expected_final⟩⟩
  cases parseStep_does hs with
  | pop hp' | shiftError hp' => rw [hp] at hp'; cases hp'
  | lex _ _ hno => exact absurd ⟨_, hred⟩ hno
  | shift _ hl' => rw [hl] at hl'; cases hl'
  | report _ hf | retry _ hf | discard _ hf => exact absurd (hl.symm.trans hf.1) (by simp)
  | reduce _ hr hst =>
      have he := hr.1
      rw [hred.1] at he
      cases he
      exact absurd rfl hst

/-- Unwinding a whole program empties the stack. -/
theorem ends_unwound (hp : c.popping = true) (hc : symbols c = [.nonterminal (.of .program)]) :
    ∃ d r, Ends (parseStep lex describe) c d r := by
  refine exists_ends (fun c' hs => ?_)
  cases parseStep_does hs with
  | shiftError _ he =>
      rw [hc] at he
      exact absurd (after_program.2.2.symm.trans he) Bool.false_ne_true
  | @pop x stack _ _ hst =>
      have hnil : stack = [] := by
        rw [symbols, hst, List.map_cons, List.cons.injEq, List.map_eq_nil_iff] at hc
        exact hc.2
      -- one pop and the stack is empty; there is nothing to shift the error on
      refine exists_ends (fun c'' hs' => ?_)
      cases parseStep_does hs' with
      | shiftError _ he =>
          have he : grammar.shifts (stack.map Prod.fst) .error = true := he
          rw [hnil] at he
          exact absurd (after_program.2.1.symm.trans he) Bool.false_ne_true
      | pop _ _ hst' =>
          have hst' : stack = _ := hst'
          rw [hnil] at hst'
          cases hst'
      | lex hp' | shift hp' | reduce hp' | report hp' | retry hp' | discard hp' =>
          have hp' : c.popping = false := hp'
          rw [hp] at hp'
          cases hp'
  | lex hp' | shift hp' | reduce hp' | report hp' | retry hp' | discard hp' =>
      rw [hp] at hp'
      cases hp'

/-- A whole program with a lookahead is accepted or given up. -/
theorem ends_ahead {tok : Terminal × SemanticValue} (hp : c.popping = false) (hst : c.status ≠ 3)
    (hl : c.lookahead = some tok) (hc : symbols c = [.nonterminal (.of .program)]) :
    ∃ d r, Ends (parseStep lex describe) c d r := by
  refine exists_ends (fun c' hs => ?_)
  cases parseStep_does hs with
  | pop hp' | shiftError hp' => rw [hp] at hp'; cases hp'
  | lex _ hl' => rw [hl] at hl'; cases hl'
  | @shift tok' _ hl' hsh =>
      have hmem : tok'.1 ∈ grammar.expected (symbols c) := Grammar.mem_expected.mpr hsh
      rw [hc, after_program.1, List.mem_singleton] at hmem
      refine ends_final hp rfl ?_
      rw [symbols, List.map_cons, hmem]
      exact congrArg _ hc
  | reduce _ hr =>
      have he := hr.1
      rw [hc, shifts_program.1] at he
      cases he
  | report | retry => exact ends_unwound rfl hc
  | discard _ _ hst' => exact absurd hst' hst

theorem ends_program (hp : c.popping = false) (hst : c.status ≠ 3) (hl : c.lookahead = none)
    (hc : symbols c = [.nonterminal (.of .program)]) : ∃ d r, Ends (parseStep lex describe) c d r := by
  refine exists_ends (fun c' hs => ?_)
  cases parseStep_does hs with
  | pop hp' | shiftError hp' => rw [hp] at hp'; cases hp'
  | lex => exact ends_ahead hp hst rfl hc
  | shift _ hl' => rw [hl] at hl'; cases hl'
  | reduce _ hr =>
      have he := hr.1
      rw [hc, shifts_program.1] at he
      cases he
  | report _ hf | retry _ hf | discard _ hf => exact absurd (hl.symm.trans hf.1) (by simp)

theorem ends_list (hp : c.popping = false) (hst : c.status ≠ 3) (hl : c.lookahead = none)
    (hc : symbols c = [.terminal .tokEof, .nonterminal (.of .toplevelStmtList)]) :
    ∃ d r, Ends (parseStep lex describe) c d r := by
  have hred : Reduces grammar c ⟨.program, 2⟩ :=
    ⟨by rw [hc]; exact reduces_listShifted.1, .inl ⟨hl, by rw [hc]; exact reduces_listShifted.2⟩⟩
  refine exists_ends (fun c' hs => ?_)
  cases parseStep_does hs with
  | pop hp' | shiftError hp' => rw [hp] at hp'; cases hp'
  | lex _ _ hno => exact absurd ⟨_, hred⟩ hno
  | shift _ hl' => rw [hl] at hl'; cases hl'
  | reduce _ hr _ ha =>
      have he := hr.1
      rw [hred.1] at he
      cases he
      refine ends_program hp hst hl ?_
      rw [symbols, List.map_cons, List.map_drop]
      show GrammarSymbol.nonterminal _ :: (symbols c).drop 2 = _
      rw [hc]
      rfl
  | report _ hf | retry _ hf | discard _ hf => exact absurd (hl.symm.trans hf.1) (by simp)

/-- **Once the end of the input is shifted** the parser stops. -/
theorem ends_of_eof {γ : List (GrammarSymbol Terminal Lhs)} (hsh : grammar.shifts γ .tokEof = true)
    (hp : c.popping = false) (hst : c.status ≠ 3) (hl : c.lookahead = none)
    (hc : symbols c = .terminal .tokEof :: γ) : ∃ d r, Ends (parseStep lex describe) c d r := by
  have hclosing := closing_of_shifts hsh
  rw [← hc] at hclosing
  generalize hγ : symbols c = δ at hclosing
  cases hclosing with
  | listShifted => exact ends_list hp hst hl hγ
  | final => exact ends_final hp hl hγ
  | start | list | program => rw [hγ] at hc; cases hc

end Ends

/-! ## The measure -/

section Measure

variable {describe : List Terminal → Terminal → String} {c c' : Parse Lexer}

/-- What holds at every point of a parse: unwinding comes with the status of a fresh error, and so does an
    `error` on top of the stack, until the next token is shifted. -/
structure Settling (c : Parse Lexer) : Prop where
  status : c.status ≤ 3
  popping : c.popping = true → c.status = 3
  error : c.popping = false → c.status = 3 → ∃ γ, symbols c = .terminal .error :: γ

/-- The input left, with the lookahead. -/
def supply (c : Parse Lexer) : Nat :=
  match c.lookahead with
  | none => 2 * c.lexer.input.length + 2
  | some tok => 2 * c.lexer.input.length + if tok.1 = .tokEof then 1 else 3

theorem supply_none (h : c.lookahead = none) : supply c = 2 * c.lexer.input.length + 2 := by
  rw [supply, h]

theorem supply_some {tok : Terminal × SemanticValue} (h : c.lookahead = some tok) :
    supply c = 2 * c.lexer.input.length + if tok.1 = .tokEof then 1 else 3 := by
  rw [supply, h]

/-- Between two tokens: reducing, unwinding, and waiting for a token that fits. -/
def stage (c : Parse Lexer) : Nat := if c.popping then 1 else if c.status = 3 then 0 else 2

def load (c : Parse Lexer) : Nat := if c.popping then c.stack.length else stackWeight (symbols c)

def parseMeasure (c : Parse Lexer) : ℕ ×ₗ ℕ ×ₗ ℕ := toLex (supply c, toLex (stage c, load c))

theorem measure_supply (h : supply c' < supply c) : parseMeasure c' < parseMeasure c :=
  Prod.Lex.toLex_lt_toLex.mpr (.inl h)

theorem measure_stage (h : supply c' = supply c) (hs : stage c' < stage c) :
    parseMeasure c' < parseMeasure c :=
  Prod.Lex.toLex_lt_toLex.mpr (.inr ⟨h, Prod.Lex.toLex_lt_toLex.mpr (.inl hs)⟩)

theorem measure_load (h : supply c' = supply c) (hs : stage c' = stage c) (hl : load c' < load c) :
    parseMeasure c' < parseMeasure c :=
  Prod.Lex.toLex_lt_toLex.mpr (.inr ⟨h, Prod.Lex.toLex_lt_toLex.mpr (.inr ⟨hs, hl⟩)⟩)

/-- A call of `yylex` takes text, or meets its end. -/
theorem yylex_input {L L' : Lexer} {lexed : Lexed} {loc : Location}
    (h : yylex L = .ok (lexed, loc, L')) :
    L'.input.length < L.input.length ∨ L'.input = [] ∧ lexed = .token .tokEof := by
  rcases scanned_of_yylex h with ⟨_, _, _, he, hin⟩ | ⟨gap, p, _, _, hs, _⟩
  · exact .inr ⟨hin, he⟩
  · have hle := hs.length_le
    rw [List.length_append, List.length_singleton] at hle
    exact .inl (by omega)

/-- **A step decreases the measure**, or shifts the end of the input. -/
theorem Settling.step (h : Settling c) (hs : parseStep yylex describe c = .inl c') :
    Settling c' ∧ parseMeasure c' < parseMeasure c ∨
      ∃ d r, Ends (parseStep yylex describe) c' d r := by
  obtain ⟨hle, hpopping, herror⟩ := h
  cases parseStep_does hs with
  | @pop x stack hp _ hst =>
      refine .inl ⟨⟨hle, hpopping, fun hp' => ?_⟩, measure_load rfl rfl ?_⟩
      · exact absurd (hp.symm.trans hp') (by simp)
      · simp [load, hp, hst]
  | shiftError hp =>
      refine .inl ⟨⟨hle, fun hp' => (by cases hp'), fun _ _ => ⟨_, rfl⟩⟩, measure_stage rfl ?_⟩
      simp [stage, hp, hpopping hp]
  | @lex tok L' hp hl _ hlex =>
      obtain ⟨lexed, loc, hcall, rfl⟩ := parser_lex_eq.mp hlex
      refine .inl ⟨⟨hle, hpopping, herror⟩, measure_supply ?_⟩
      rcases yylex_input hcall with hlt | ⟨hin, rfl⟩
      · rw [supply_none hl, supply_some rfl]
        show 2 * L'.input.length + _ < _
        split <;> omega
      · rw [supply_none hl, supply_some rfl]
        show 2 * L'.input.length + 1 < _
        rw [hin, List.length_nil]
        omega
  | @shift tok hp hl hsh =>
      have hst : c.status - 1 ≠ 3 := by omega
      by_cases ht : tok.1 = .tokEof
      · refine .inr (ends_of_eof (γ := symbols c) (ht ▸ hsh) hp hst rfl ?_)
        rw [symbols, List.map_cons, ht]
      · refine .inl ⟨⟨by show c.status - 1 ≤ 3; omega, fun hp' => ?_, fun _ h3 => absurd h3 hst⟩,
          measure_supply ?_⟩
        · exact absurd (hp.symm.trans hp') (by simp)
        · rw [supply_none rfl, supply_some hl, if_neg ht]
          exact Nat.lt_succ_self _
  | @reduce it v s hp hr hst ha =>
      obtain ⟨γ, hγ, hdrop, _, h0⟩ := hr.split
      -- after an `error` nothing is reduced, so the status is not that of a fresh one
      have h3 : c.status ≠ 3 := by
        intro h3
        obtain ⟨δ, hδ⟩ := herror hp h3
        have hcomp := hr.1
        rw [hδ, complete_error] at hcomp
        cases hcomp
      have hst' : (if yyerrok it.rule then 0 else c.status) ≤ 3 ∧
          (if yyerrok it.rule then 0 else c.status) ≠ 3 := by split <;> omega
      refine .inl ⟨⟨hst'.1, fun hp' => ?_, fun _ h3' => absurd h3' hst'.2⟩, measure_load rfl ?_ ?_⟩
      · exact absurd (hp.symm.trans hp') (by simp)
      · show (if c.popping then 1 else if (if yyerrok it.rule then 0 else c.status) = 3 then 0 else 2) = _
        rw [stage, hp, if_neg hst'.2, if_neg h3]
      · show (if c.popping then _ else stackWeight (_ :: (c.stack.drop _).map Prod.fst)) < _
        rw [load, hp, hdrop, hγ]
        exact stackWeight_reduce h0 hst
  | report hp _ h0 =>
      refine .inl ⟨⟨Nat.le_refl _, fun _ => rfl, fun hp' => (by cases hp')⟩, measure_stage rfl ?_⟩
      simp [stage, hp, h0]
  | retry hp _ _ h3 =>
      refine .inl ⟨⟨Nat.le_refl _, fun _ => rfl, fun hp' => (by cases hp')⟩, measure_stage rfl ?_⟩
      simp [stage, hp, h3]
  | @discard tok hp hf h3 ht =>
      refine .inl ⟨⟨hle, fun _ => h3, fun hp' => (by cases hp')⟩, measure_supply ?_⟩
      rw [supply_none rfl, supply_some hf.1, if_neg (show tok.1 ≠ .tokEof from ht)]
      exact Nat.lt_succ_self _

theorem settling_start (text : List Char) (n : Nat) : Settling (parseStart text n) :=
  ⟨Nat.zero_le _, fun h => (by cases h), fun _ h => (by cases h)⟩

/-- **The parser stops** on every text. -/
theorem parse_ends (text : List Char) (n : Nat) :
    ∃ c r, Ends (parseStep yylex describe) (parseStart text n) c r :=
  exists_ends_of_measure parseMeasure Settling.step (settling_start text n)

end Measure

end ParaCL
