import ParaCL.Lib.Items
import ParaCL.Lib.Machine

/-!
# `Lib.Bison` — the parser Bison's C++ skeleton runs

The machine is the loop of the skeleton over the LR(0) item sets of `Lib.Items`, for a grammar in which no
state has two complete items: shift where the lookahead can be shifted, otherwise reduce by the complete
item (every state with a reduction has a default one), otherwise recover. A state that can shift nothing
reduces without asking for a lookahead. Recovery reports unless it is within three tokens of the last
error, gives up the lookahead if it was already tried, pops until the `error` token can be shifted, and
aborts at the end of the input or on an empty stack.

Values and user state are parameters, and so are the actions, the error report and the lexer. An action
or the lexer may throw; the exception leaves the parser. `Does` lists what one step can do.
-/

namespace Lib

/-- What the machine calls: the lexer, the actions, which of them say `yyerrok`, and the report of a syntax
    error, which is given the terminals expected and the lookahead. -/
structure Actions (T R V S L E : Type) where
  lex : L → Except E ((T × V) × L)
  act : R → List V → S → Except E (V × S)
  yyerrok : R → Bool
  report : List T → T × V → S → S
  eof : T
  error : T
  errorValue : V

/-- `status` is `yyerrstatus_`; `popping` marks the loop that unwinds the stack. -/
structure ParseConfig (T N V S L : Type) where
  stack : List (GrammarSymbol T N × V)
  lookahead : Option (T × V)
  lexer : L
  status : Nat
  popping : Bool
  state : S

/-- How `parse` ends: it returns 0, it returns 1, or an exception leaves it. -/
inductive ParseResult (E : Type) where
  | accept
  | abort
  | escape (e : E)
  deriving DecidableEq

namespace Bison

variable {T N R V S L E : Type} [DecidableEq T] [DecidableEq N] [DecidableEq R]

/-- The symbols on the stack. -/
abbrev symbols (c : ParseConfig T N V S L) : List (GrammarSymbol T N) := c.stack.map Prod.fst

/-- The configuration `parse` starts in. -/
def start (lexer : L) (state : S) : ParseConfig T N V S L := ⟨[], none, lexer, 0, false, state⟩

variable (G : Grammar T N R) (A : Actions T R V S L E)

/-- Reduce by a production, or accept the input. -/
def reduce (r : R) (c : ParseConfig T N V S L) : ParseConfig T N V S L ⊕ ParseResult E :=
  if r = G.start then .inr .accept
  else
    let n := (G.rhs r).length
    match A.act r ((c.stack.take n).reverse.map Prod.snd) c.state with
    | .error e => .inr (.escape e)
    | .ok (v, state) =>
        .inl { c with
          stack := (.nonterminal (G.lhs r), v) :: c.stack.drop n
          status := if A.yyerrok r then 0 else c.status
          state }

/-- Enter the recovery from an error at the lookahead. -/
def recover (tok : T × V) (c : ParseConfig T N V S L) : ParseConfig T N V S L ⊕ ParseResult E :=
  let state := if c.status = 0 then A.report (G.expected (symbols c)) tok c.state else c.state
  if c.status = 3 then
    if tok.1 = A.eof then .inr .abort
    else .inl { c with lookahead := none, popping := true, state }
  else .inl { c with status := 3, popping := true, state }

/-- One turn of the loop that unwinds the stack. -/
def unwind (c : ParseConfig T N V S L) : ParseConfig T N V S L ⊕ ParseResult E :=
  if G.shifts (symbols c) A.error then
    .inl { c with stack := (.terminal A.error, A.errorValue) :: c.stack, popping := false }
  else
    match c.stack with
    | [] => .inr .abort
    | _ :: stack => .inl { c with stack }

/-- One step of the parser. -/
def step (c : ParseConfig T N V S L) : ParseConfig T N V S L ⊕ ParseResult E :=
  if c.popping then unwind G A c
  else
    match c.lookahead with
    | none =>
        match G.expected (symbols c), G.complete (symbols c) with
        | [], some it => reduce G A it.rule c
        | _, _ =>
            match A.lex c.lexer with
            | .error e => .inr (.escape e)
            | .ok (tok, lexer) => .inl { c with lookahead := some tok, lexer }
    | some tok =>
        if G.shifts (symbols c) tok.1 then
          .inl { c with
            stack := (.terminal tok.1, tok.2) :: c.stack, lookahead := none, status := c.status - 1 }
        else
          match G.complete (symbols c) with
          | some it => reduce G A it.rule c
          | none => recover G A tok c

/-! ## What a step does -/

/-- The parser reduces: it asked for no lookahead, or cannot shift the one it has. -/
def Reduces (c : ParseConfig T N V S L) (it : Item R) : Prop :=
  G.complete (symbols c) = some it ∧
    (c.lookahead = none ∧ G.expected (symbols c) = [] ∨
      ∃ tok, c.lookahead = some tok ∧ G.shifts (symbols c) tok.1 = false)

/-- The parser meets an error: the lookahead can neither be shifted nor decide a reduction. -/
def Fails (c : ParseConfig T N V S L) (tok : T × V) : Prop :=
  c.lookahead = some tok ∧ G.shifts (symbols c) tok.1 = false ∧ G.complete (symbols c) = none

/-- The cases of a step. -/
inductive Does (c : ParseConfig T N V S L) : ParseConfig T N V S L ⊕ ParseResult E → Prop where
  | pop {x : GrammarSymbol T N × V} {stack : List (GrammarSymbol T N × V)} (hp : c.popping = true)
      (he : G.shifts (symbols c) A.error = false) (hst : c.stack = x :: stack) :
      Does c (.inl { c with stack })
  | empty (hp : c.popping = true) (he : G.shifts (symbols c) A.error = false) (hst : c.stack = []) :
      Does c (.inr .abort)
  | shiftError (hp : c.popping = true) (he : G.shifts (symbols c) A.error = true) :
      Does c (.inl { c with stack := (.terminal A.error, A.errorValue) :: c.stack, popping := false })
  | lex {tok : T × V} {lexer : L} (hp : c.popping = false) (hl : c.lookahead = none)
      (hc : ¬ ∃ it, Reduces G c it) (h : A.lex c.lexer = .ok (tok, lexer)) :
      Does c (.inl { c with lookahead := some tok, lexer })
  | lexEscape {e : E} (hp : c.popping = false) (hl : c.lookahead = none)
      (hc : ¬ ∃ it, Reduces G c it) (h : A.lex c.lexer = .error e) : Does c (.inr (.escape e))
  | shift {tok : T × V} (hp : c.popping = false) (hl : c.lookahead = some tok)
      (hs : G.shifts (symbols c) tok.1 = true) :
      Does c (.inl { c with
        stack := (.terminal tok.1, tok.2) :: c.stack, lookahead := none, status := c.status - 1 })
  | accept {it : Item R} (hp : c.popping = false) (hr : Reduces G c it) (hst : it.rule = G.start) :
      Does c (.inr .accept)
  | reduce {it : Item R} {v : V} {state : S} (hp : c.popping = false) (hr : Reduces G c it)
      (hst : it.rule ≠ G.start)
      (ha : A.act it.rule ((c.stack.take (G.rhs it.rule).length).reverse.map Prod.snd) c.state =
        .ok (v, state)) :
      Does c (.inl { c with
        stack := (.nonterminal (G.lhs it.rule), v) :: c.stack.drop (G.rhs it.rule).length
        status := if A.yyerrok it.rule then 0 else c.status
        state })
  | reduceEscape {it : Item R} {e : E} (hp : c.popping = false) (hr : Reduces G c it)
      (hst : it.rule ≠ G.start)
      (ha : A.act it.rule ((c.stack.take (G.rhs it.rule).length).reverse.map Prod.snd) c.state =
        .error e) :
      Does c (.inr (.escape e))
  | report {tok : T × V} (hp : c.popping = false) (hf : Fails G c tok) (hst : c.status = 0) :
      Does c (.inl { c with
        status := 3, popping := true, state := A.report (G.expected (symbols c)) tok c.state })
  | retry {tok : T × V} (hp : c.popping = false) (hf : Fails G c tok) (hst : c.status ≠ 0)
      (hst' : c.status ≠ 3) : Does c (.inl { c with status := 3, popping := true })
  | discard {tok : T × V} (hp : c.popping = false) (hf : Fails G c tok) (hst : c.status = 3)
      (ht : tok.1 ≠ A.eof) : Does c (.inl { c with lookahead := none, popping := true })
  | giveUp {tok : T × V} (hp : c.popping = false) (hf : Fails G c tok) (hst : c.status = 3)
      (ht : tok.1 = A.eof) : Does c (.inr .abort)

variable {G A} {c : ParseConfig T N V S L}

omit [DecidableEq R] in
/-- The right-hand side of a reduction is on top of the stack. -/
theorem Reduces.split {it : Item R} (h : Reduces G c it) :
    ∃ γ, symbols c = (G.rhs it.rule).reverse ++ γ ∧
      (c.stack.drop (G.rhs it.rule).length).map Prod.fst = γ ∧
      (c.stack.take (G.rhs it.rule).length).reverse.map Prod.fst = G.rhs it.rule ∧
      ⟨it.rule, 0⟩ ∈ G.items γ := by
  obtain ⟨_, γ, hγ, h0⟩ := Grammar.complete_split h.1
  have hlen : (G.rhs it.rule).reverse.length = (G.rhs it.rule).length := List.length_reverse
  refine ⟨γ, hγ, ?_, ?_, h0⟩
  · rw [List.map_drop]
    show (symbols c).drop _ = γ
    rw [hγ, List.drop_left' hlen]
  · rw [List.map_reverse, List.map_take]
    show ((symbols c).take _).reverse = _
    rw [hγ, List.take_left' hlen, List.reverse_reverse]

theorem reduce_does {it : Item R} (hp : c.popping = false) (hr : Reduces G c it) :
    Does G A c (reduce G A it.rule c) := by
  unfold reduce
  split
  · exact .accept hp hr ‹_›
  · simp only
    split
    · exact .reduceEscape hp hr ‹_› ‹_›
    · exact .reduce hp hr ‹_› ‹_›

omit [DecidableEq R] in
theorem recover_does {tok : T × V} (hp : c.popping = false) (hf : Fails G c tok) :
    Does G A c (recover G A tok c) := by
  unfold recover
  by_cases h3 : c.status = 3
  · have h0 : c.status ≠ 0 := by omega
    simp only [h3, if_true]
    split
    · exact .giveUp hp hf h3 ‹_›
    · have hd := Does.discard (A := A) hp hf h3 ‹_›
      simpa [h3] using hd
  · simp only [h3, if_false]
    by_cases h0 : c.status = 0
    · simp only [h0, if_true]
      exact .report hp hf h0
    · simp only [h0, if_false]
      exact .retry hp hf h0 h3

omit [DecidableEq R] in
theorem unwind_does (hp : c.popping = true) : Does G A c (unwind G A c) := by
  unfold unwind
  split
  · exact .shiftError hp ‹_›
  · have he : G.shifts (symbols c) A.error = false := eq_false_of_ne_true ‹_›
    split
    · exact .empty hp he ‹_›
    · exact .pop hp he ‹_›

/-- **The cases of a step.** -/
theorem step_does (c : ParseConfig T N V S L) : Does G A c (step G A c) := by
  unfold step
  by_cases hp : c.popping
  · rw [if_pos hp]
    exact unwind_does hp
  · rw [if_neg hp]
    have hp : c.popping = false := by simpa using hp
    cases hl : c.lookahead with
    | none =>
        simp only
        split
        · rename_i it hx hc
          exact reduce_does hp ⟨hc, .inl ⟨hl, hx⟩⟩
        · rename_i hno
          -- no default reduction, so the lexer is asked
          have hc : ¬ ∃ it, Reduces G c it := by
            rintro ⟨it, hc, ⟨_, hx⟩ | ⟨tok, ht, _⟩⟩
            · exact hno it hx hc
            · rw [hl] at ht
              cases ht
          split
          · exact .lexEscape hp hl hc ‹_›
          · exact .lex hp hl hc ‹_›
    | some tok =>
        simp only
        split
        · exact .shift hp hl ‹_›
        · have hs : G.shifts (symbols c) tok.1 = false := eq_false_of_ne_true ‹_›
          split
          · exact reduce_does hp ⟨‹_›, .inr ⟨tok, hl, hs⟩⟩
          · exact recover_does hp ⟨hl, hs, ‹_›⟩

/-- **The stack stays a viable prefix**, also while it is unwound. -/
theorem viable_step {c' : ParseConfig T N V S L} (hv : G.Viable (symbols c))
    (h : step G A c = .inl c') : G.Viable (symbols c') := by
  have hd := step_does (G := G) (A := A) c
  rw [h] at hd
  cases hd with
  | lex | report | retry | discard => exact hv
  | pop _ _ hst =>
      rw [symbols, hst, List.map_cons] at hv
      exact hv.tail
  | shiftError _ hs | shift _ _ hs =>
      obtain ⟨it, hit, hn⟩ := Grammar.shifts_iff.mp hs
      exact Grammar.viable_cons hit hn
  | reduce _ hr hst =>
      obtain ⟨γ, _, hdrop, _, h0⟩ := hr.split
      obtain ⟨it, hit, hn⟩ := Grammar.awaited h0 hst
      rw [symbols, List.map_cons, hdrop]
      exact Grammar.viable_cons hit hn

end Bison

end Lib
