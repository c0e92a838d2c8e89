import ParaCL.Parser.Stack

/-!
# `Parser.Recovery` — the scopes through error recovery

A scope is pushed by the mid-rule action of a block or a function and popped by its final action.
Recovery pops the stack to a state that can shift `error`. Inside a body that is the list of statements
right above the opening, so no opening is lost there; in the header of a function it is below, and the
scope pushed for the function stays.

`ScopedRun` follows the parser together with the scopes each opening on the stack was pushed onto. As long as
no syntax error is met in the header of a function, the scopes are those and the one on top of them.
-/

namespace ParaCL

open Lib Bison

/-! ## Stacks of scopes -/

/-- What each scope but the global one was pushed onto, the innermost first. -/
def outerScopes : Layers Name → List (Layers Name)
  | _ :: l :: Γ => (l :: Γ) :: outerScopes (l :: Γ)
  | _ => []

section Outer

variable {Γ Δ : Layers Name}

theorem outer_opened (h : Γ ≠ []) : outerScopes ([] :: Γ) = Γ :: outerScopes Γ := by
  cases Γ with
  | nil => exact absurd rfl h
  | cons l Γ => rfl

theorem outer_tail : outerScopes Γ.tail = (outerScopes Γ).tail := by
  cases Γ with
  | nil => rfl
  | cons l Γ => cases Γ <;> rfl

theorem outer_head (h : outerScopes Γ ≠ []) : (outerScopes Γ).head? = some Γ.tail := by
  cases Γ with
  | nil => exact absurd rfl h
  | cons l Γ =>
      cases Γ with
      | nil => exact absurd rfl h
      | cons m Γ => rfl

theorem outer_grows (h : Layers.Grows Γ Δ) : outerScopes Δ = outerScopes Γ := by
  obtain ⟨l, m, ls, rfl, rfl, _⟩ := h
  cases ls <;> rfl

theorem length_outer (h : Γ ≠ []) : Γ.length = 1 + (outerScopes Γ).length := by
  induction Γ with
  | nil => exact absurd rfl h
  | cons l Γ ih =>
      cases Γ with
      | nil => rfl
      | cons m Γ =>
          rw [List.length_cons, ih (List.cons_ne_nil _ _), outerScopes, List.length_cons]
          omega

end Outer

/-! ## Around the braces -/

/-- The header of a function is under way: its opening is on the stack, the brace of its body is not. -/
def headerOpen (γ : List (GrammarSymbol Terminal Lhs)) : Bool :=
  (γ.takeWhile (· ≠ .terminal .tokLeftBrace)).contains (.nonterminal .functionOpen)

/-- The top of the stack is neither a brace nor the opening of a block. -/
def pastBrace : List (GrammarSymbol Terminal Lhs) → Bool
  | .terminal .tokLeftBrace :: _ | .nonterminal .blockOpen :: _ => false
  | _ => true

theorem before_brace :
    Rule.before (.terminal .tokLeftBrace) = [⟨.blockExpr, 0⟩, ⟨.functionExpr, 6⟩] := by decide

theorem before_blockOpen : Rule.before (.nonterminal .blockOpen) = [⟨.blockExpr, 1⟩] := by decide

section Braces

variable {γ : List (GrammarSymbol Terminal Lhs)} {x : GrammarSymbol Terminal Lhs}

/-- What the items with a brace or the opening of a block before their dot go on with. -/
theorem kernel_brace {i : Item Rule} (h : pastBrace γ = false) (hi : i ∈ grammar.kernel γ) :
    grammar.next i = some (.nonterminal .blockOpen) ∨
      grammar.next i = some (.nonterminal (.of .stmtList)) := by
  unfold pastBrace at h
  split at h
  · obtain ⟨i', _, hn, rfl⟩ := Grammar.mem_goto.mp hi
    have hb := Rule.mem_before hn
    rw [before_brace, List.mem_cons, List.mem_singleton] at hb
    rcases hb with rfl | rfl
    · exact .inl rfl
    · exact .inr rfl
  · obtain ⟨i', _, hn, rfl⟩ := Grammar.mem_goto.mp hi
    have hb := Rule.mem_before hn
    rw [before_blockOpen, List.mem_singleton] at hb
    subst hb
    exact .inr rfl
  · cases h

/-- After a brace or the opening of a block the parser reduces at once. -/
theorem complete_of_brace (hv : grammar.Viable γ) (h : pastBrace γ = false) :
    grammar.complete γ ≠ none := by
  obtain ⟨i, hi⟩ := hv.kernel
  have hit := Grammar.mem_items_of_kernel hi
  rcases kernel_brace h hi with hn | hn
  · exact Grammar.complete_ne_none (Grammar.begin_mem (r := Rule.blockOpen) hit hn) rfl
  · exact Grammar.complete_ne_none (Grammar.begin_mem (r := Rule.stmtNil) hit hn) rfl

/-- The list of statements is what comes after them. -/
theorem above_brace (hv : grammar.Viable (x :: γ)) (h : pastBrace γ = false)
    (hx : pastBrace (x :: γ) = true) : x = .nonterminal (.of .stmtList) := by
  have hne : x ≠ .nonterminal .blockOpen := by
    rintro rfl
    cases hx
  obtain ⟨it, hit, hn⟩ := hv.top
  -- the symbol is expected by an item of the kernel or begins something that is
  rcases Grammar.mem_closure.mp hit with hk | ⟨hd, i, hi, b, hb, hc⟩
  · rcases kernel_brace h hk with he | he
    · exact absurd (Option.some.inj (hn.symm.trans he)) hne
    · exact Option.some.inj (hn.symm.trans he)
  · -- nothing begins with a list of statements or an opening but themselves
    have hfirst : ∀ b : Lhs, b = .blockOpen ∨ b = .of .stmtList → ∀ a ∈ Lhs.corners b,
        ∀ r ∈ Rule.rules a, ∀ y, r.rhs[0]? = some y → y = .nonterminal (.of .stmtList) := by
      rintro b (rfl | rfl) <;> decide
    obtain ⟨r, d⟩ := it
    obtain rfl : d = 0 := hd
    refine hfirst b ?_ _ hc r (Rule.mem_rules.mpr rfl) x hn
    rcases kernel_brace h hi with he | he
    · rw [hb] at he
      cases he
      exact .inl rfl
    · rw [hb] at he
      cases he
      exact .inr rfl

/-- An error is shifted onto a list of statements. -/
theorem shifts_error_stmtList (hv : grammar.Viable (.nonterminal (.of .stmtList) :: γ)) :
    grammar.shifts (.nonterminal (.of .stmtList) :: γ) .error = true := by
  obtain ⟨it, hit, hn⟩ := hv.top
  have hbegin : ⟨.stmtSnoc, 0⟩ ∈ grammar.items γ := Grammar.begin_mem (r := Rule.stmtSnoc) hit hn
  have hsnoc := Grammar.advance_mem hbegin (x := .nonterminal (.of .stmtList)) rfl
  have herr : ⟨.statementError, 0⟩ ∈ grammar.items (.nonterminal (.of .stmtList) :: γ) :=
    Grammar.begin_mem (r := Rule.statementError) hsnoc rfl
  exact Grammar.shifts_iff.mpr ⟨_, herr, rfl⟩

/-- Unwinding from here drops no opening. -/
structure Guarded (γ : List (GrammarSymbol Terminal Lhs)) : Prop where
  header : headerOpen γ = false
  brace : pastBrace γ = true

/-- **A turn of the unwinding** drops no opening, and the next one will not either. -/
theorem Guarded.pop (h : Guarded (x :: γ)) (hv : grammar.Viable (x :: γ))
    (he : grammar.shifts (x :: γ) .error = false) :
    Guarded γ ∧ openings (x :: γ) = openings γ := by
  obtain ⟨hheader, hbrace⟩ := h
  have hx : x ≠ .terminal .tokLeftBrace := by
    rintro rfl
    cases hbrace
  have htake : (x :: γ).takeWhile (· ≠ .terminal .tokLeftBrace) =
      x :: γ.takeWhile (· ≠ .terminal .tokLeftBrace) := List.takeWhile_cons_of_pos (by simpa using hx)
  rw [headerOpen, htake, List.contains_cons, Bool.or_eq_false_iff] at hheader
  refine ⟨⟨hheader.2, ?_⟩, ?_⟩
  -- were the brace lost, a list of statements was popped, and there the error can be shifted
  · refine eq_true_of_ne_false (fun hb => ?_)
    obtain rfl := above_brace hv hb hbrace
    rw [shifts_error_stmtList hv] at he
    cases he
  · have hopen : isOpening x = false := by
      unfold isOpening
      split
      · cases hbrace
      · simp at hheader
      · rfl
    rw [openings, List.countP_cons, hopen]
    rfl

end Braces

/-! ## Runs -/

section Run

variable {L : Type} {lex : L → Except Escape (Lexed × Location × L)}
  {describe : List Terminal → Terminal → String} {c c' : Parse L} {Γs : List (Layers Name)}
  {P : Parse L → Prop}

/-- The scopes the openings on the stack were pushed onto, after one more step. -/
def followed (c c' : Parse L) (Γs : List (Layers Name)) : List (Layers Name) :=
  if openings (symbols c) < openings (symbols c') then c.state.scopes.scopes :: Γs
  else Γs.drop (openings (symbols c) - openings (symbols c'))

/-- A run whose steps are all taken from configurations with `P`, and the scopes that the openings on its
    stack were pushed onto. -/
inductive ScopedRun (lex : L → Except Escape (Lexed × Location × L))
    (describe : List Terminal → Terminal → String) (P : Parse L → Prop) :
    Parse L → List (Layers Name) → Prop where
  | start (l : L) (text : List Char) : ScopedRun lex describe P (start l (.init text)) []
  | step {c c' : Parse L} {Γs : List (Layers Name)} (h : ScopedRun lex describe P c Γs) (hP : P c)
      (hs : parseStep lex describe c = .inl c') : ScopedRun lex describe P c' (followed c c' Γs)

/-- A syntax error is met in the header of a function. -/
def FailsInHeader (c : Parse L) : Prop :=
  c.popping = false ∧ (∃ tok, Fails grammar c tok) ∧ headerOpen (symbols c) = true

instance (c : Parse L) : Decidable (FailsInHeader c) :=
  decidable_of_iff (c.popping = false ∧ (c.lookahead.any (fun tok =>
      grammar.shifts (symbols c) tok.1 = false ∧ grammar.complete (symbols c) = none) = true) ∧
      headerOpen (symbols c) = true) (by
    simp only [FailsInHeader, Fails, Option.any_eq_true, decide_eq_true_eq])

/-- The run of some steps, if every one is taken from a configuration with `P`. -/
def runFor (lex : L → Except Escape (Lexed × Location × L))
    (describe : List Terminal → Terminal → String) (P : Parse L → Prop) [DecidablePred P] :
    Nat → Parse L → List (Layers Name) → Option (Parse L × List (Layers Name))
  | 0, c, Γs => some (c, Γs)
  | n + 1, c, Γs =>
      match parseStep lex describe c with
      | .inl c' => if P c then runFor lex describe P n c' (followed c c' Γs) else none
      | .inr _ => none

theorem ScopedRun.of_runFor [DecidablePred P] {n : Nat} {Γs' : List (Layers Name)}
    (h : ScopedRun lex describe P c Γs) (hn : runFor lex describe P n c Γs = some (c', Γs')) :
    ScopedRun lex describe P c' Γs' := by
  induction n generalizing c Γs with
  | zero =>
      cases hn
      exact h
  | succ n ih =>
      rw [runFor] at hn
      split at hn
      · split at hn
        · exact ih (h.step ‹_› ‹_›) hn
        · cases hn
      · cases hn

/-- What holds at every point of a run without such an error. -/
structure InBalance (c : Parse L) (Γs : List (Layers Name)) : Prop where
  ok : StackOk c
  viable : grammar.Viable (symbols c)
  outer : outerScopes c.state.scopes.scopes = Γs
  count : Γs.length = openings (symbols c)
  popping : c.popping = true → Guarded (symbols c)

theorem followed_same (h : openings (symbols c') = openings (symbols c)) : followed c c' Γs = Γs := by
  rw [followed, if_neg (by omega), h, Nat.sub_self, List.drop_zero]

/-- A step that keeps the openings and the scopes. -/
theorem InBalance.keep (h : InBalance c Γs) (hs : parseStep lex describe c = .inl c')
    (ho : openings (symbols c') = openings (symbols c))
    (hst : outerScopes c'.state.scopes.scopes = outerScopes c.state.scopes.scopes)
    (hp : c'.popping = true → Guarded (symbols c')) : InBalance c' (followed c c' Γs) := by
  rw [followed_same ho]
  exact ⟨h.ok.step hs, viable_step h.viable hs, hst.trans h.outer, by rw [h.count, ho], hp⟩

/-- A step that opens a block or a function. -/
theorem InBalance.opens (h : InBalance c Γs) (hs : parseStep lex describe c = .inl c')
    (ho : openings (symbols c') = openings (symbols c) + 1)
    (hst : c'.state.scopes.scopes = [] :: c.state.scopes.scopes) (hp : c'.popping = false) :
    InBalance c' (followed c c' Γs) := by
  rw [followed, if_pos (by omega)]
  refine ⟨h.ok.step hs, viable_step h.viable hs, ?_, by rw [List.length_cons, h.count, ho], ?_⟩
  · rw [hst, outer_opened h.ok.ne_nil, h.outer]
  · rw [hp]
    exact fun hp' => absurd hp' Bool.false_ne_true

/-- A step that closes one. -/
theorem InBalance.closes (h : InBalance c Γs) (hs : parseStep lex describe c = .inl c')
    (ho : openings (symbols c) = openings (symbols c') + 1)
    (hst : c'.state.scopes.scopes = c.state.scopes.scopes.tail) (hp : c'.popping = false) :
    InBalance c' (followed c c' Γs) := by
  rw [followed, if_neg (by omega), ho, Nat.add_sub_cancel_left, List.drop_one]
  refine ⟨h.ok.step hs, viable_step h.viable hs, ?_, by rw [List.length_tail, h.count]; omega, ?_⟩
  · rw [hst, outer_tail, h.outer]
  · rw [hp]
    exact fun hp' => absurd hp' Bool.false_ne_true

/-- **A step keeps the balance**, unless it meets an error in the header of a function. -/
theorem InBalance.step (h : InBalance c Γs) (hP : ¬ FailsInHeader c)
    (hs : parseStep lex describe c = .inl c') : InBalance c' (followed c c' Γs) := by
  -- an error found outside a function header leaves every open brace its action
  have hguarded : ∀ {tok}, c.popping = false → Fails grammar c tok → Guarded (symbols c) := by
    intro tok hp hf
    refine ⟨eq_false_of_ne_true (fun hh => hP ⟨hp, ⟨tok, hf⟩, hh⟩), eq_true_of_ne_false (fun hb => ?_)⟩
    exact complete_of_brace h.viable hb hf.2.2
  cases parseStep_does hs with
  | @pop x stack hp he hst =>
      have hg := h.popping hp
      have hv := h.viable
      have hsym : symbols c = x.1 :: stack.map Prod.fst := by rw [symbols, hst, List.map_cons]
      rw [hsym] at hg hv
      have he : grammar.shifts (symbols c) .error = false := he
      rw [hsym] at he
      obtain ⟨hg', ho⟩ := hg.pop hv he
      exact h.keep hs (by rw [hsym]; exact ho.symm) rfl (fun _ => hg')
  | shiftError hp => exact h.keep hs rfl rfl (fun hp' => (by cases hp'))
  | lex hp | shift hp => exact h.keep hs rfl rfl (fun hp' => (by rw [hp] at hp'; cases hp'))
  | report hp hf => exact h.keep hs rfl rfl (fun _ => hguarded hp hf)
  | retry hp hf | discard hp hf => exact h.keep hs rfl rfl (fun _ => hguarded hp hf)
  | @reduce it v s hp hr hst ha =>
      obtain ⟨γ, hγ, hdrop, _⟩ := hr.split
      have ha : act it.rule _ c.state = .ok (v, s) := ha
      have hbefore : openings (symbols c) = openings it.rule.rhs + openings γ := by
        rw [hγ, openings_append, openings_reverse]
        rfl
      have hafter : openings (.nonterminal it.rule.lhs :: (c.stack.drop it.rule.rhs.length).map Prod.fst) =
          openings [.nonterminal it.rule.lhs] + openings γ := by
        rw [show (c.stack.drop it.rule.rhs.length).map Prod.fst = γ from hdrop, openings_cons]
      -- the action opens a scope, closes one, or works in the one on top
      rcases (act_moves ha h.ok.ne_nil).cases with ⟨h1, h2, hΔ⟩ | ⟨h1, h2, hΔ⟩ | ⟨h1, h2, hg⟩
      · exact h.opens hs (hafter.trans (by omega)) hΔ hp
      · have hone : openings (symbols c) = openings
            (.nonterminal it.rule.lhs :: (c.stack.drop it.rule.rhs.length).map Prod.fst) + 1 := by omega
        exact h.closes hs hone hΔ hp
      · refine h.keep hs (hafter.trans (by omega)) (outer_grows hg) (fun hp' => ?_)
        exact absurd (hp.symm.trans hp') Bool.false_ne_true

theorem inBalance_start (l : L) (text : List Char) : InBalance (start l (.init text)) [] where
  ok := ⟨fun x hx => (by cases hx), fun tok h => (by cases h), Nat.zero_lt_one⟩
  viable := Grammar.viable_nil
  outer := rfl
  count := rfl
  popping h := by cases h

theorem ScopedRun.inBalance (h : ScopedRun lex describe (fun c => ¬ FailsInHeader c) c Γs) :
    InBalance c Γs := by
  induction h with
  | start l text => exact inBalance_start l text
  | step _ hP hs ih => exact ih.step hP hs

/-- The scopes are balanced here, and if the next step takes an opening off the stack the scopes are those
    its block or function was opened in: a name that was not visible there is undeclared. -/
structure KeepsScopes (lex : L → Except Escape (Lexed × Location × L))
    (describe : List Terminal → Terminal → String) (c : Parse L) (Γs : List (Layers Name)) : Prop where
  length : c.state.scopes.scopes.length = 1 + openings (symbols c)
  closes : ∀ c', parseStep lex describe c = .inl c' → openings (symbols c') < openings (symbols c) →
    ∃ Γ, Γs.head? = some Γ ∧ c'.state.scopes.scopes = Γ ∧
      ∀ x loc, ¬ Layers.Visible x Γ → ∃ s, c'.state.useName x loc = .ok (x, s) ∧
        s.errors =
          c'.state.errors ++ [⟨loc, .undeclared x, c'.state.getLineContent loc.beginLine⟩]

/-- A read of a name that no scope holds is reported. -/
theorem useName_undeclared {s : MyParser} {x : Name} {loc : Location}
    (hx : ¬ Layers.Visible x s.scopes.scopes) (hne : s.scopes.scopes ≠ []) :
    ∃ s', s.useName x loc = .ok (x, s') ∧
      s'.errors = s.errors ++ [⟨loc, .undeclared x, s.getLineContent loc.beginLine⟩] := by
  unfold MyParser.useName
  rw [Scope.lookup_eq_none.mpr hx]
  exact ⟨_, MyParser.addVarToScope_eq (s := s.error loc (.undeclared x)) hne, rfl⟩

/-- A step that takes an opening off the stack is a final action, unless an error in a header has lost
    one before. -/
theorem InBalance.closing (h : InBalance c Γs) (hs : parseStep lex describe c = .inl c')
    (ho : openings (symbols c') < openings (symbols c)) :
    c'.state.scopes.scopes = c.state.scopes.scopes.tail := by
  cases parseStep_does hs with
  | @pop x stack hp he hst =>
      have hg := h.popping hp
      have hv := h.viable
      have he : grammar.shifts (symbols c) .error = false := he
      have hsym : symbols c = x.1 :: stack.map Prod.fst := by rw [symbols, hst, List.map_cons]
      rw [hsym] at hg hv he ho
      rw [(hg.pop hv he).2] at ho
      exact absurd ho (Nat.lt_irrefl _)
  | shiftError | lex | shift | report | retry | discard => exact absurd ho (Nat.lt_irrefl _)
  | @reduce it v s hp hr hst ha =>
      obtain ⟨γ, hγ, hdrop, _⟩ := hr.split
      have ha : act it.rule _ c.state = .ok (v, s) := ha
      have ho : openings (.nonterminal it.rule.lhs :: (c.stack.drop it.rule.rhs.length).map Prod.fst) <
          openings (symbols c) := ho
      rw [hγ, openings_append, openings_reverse,
        show (c.stack.drop it.rule.rhs.length).map Prod.fst = γ from hdrop, openings_cons] at ho
      have ho : openings [.nonterminal it.rule.lhs] + openings γ < openings it.rule.rhs + openings γ := ho
      -- by counting, the action is one that closes
      rcases (act_moves ha h.ok.ne_nil).cases with ⟨h1, h2, _⟩ | ⟨_, _, hΔ⟩ | ⟨h1, h2, _⟩
      · omega
      · exact hΔ
      · omega

/-- **Scopes stay balanced** as long as no syntax error is met in the header of a function. -/
theorem scopes_balanced (h : ScopedRun lex describe (fun c => ¬ FailsInHeader c) c Γs) :
    KeepsScopes lex describe c Γs := by
  have hb := h.inBalance
  refine ⟨?_, ?_⟩
  · rw [length_outer hb.ok.ne_nil, hb.outer, hb.count]
  · intro c' hs ho
    have htail := hb.closing hs ho
    have hne : outerScopes c.state.scopes.scopes ≠ [] := by
      rw [hb.outer]
      refine List.length_pos_iff.mp ?_
      rw [hb.count]
      omega
    refine ⟨_, hb.outer ▸ outer_head hne, htail, fun x loc hx => ?_⟩
    exact useName_undeclared (htail ▸ hx) (hb.ok.step hs).ne_nil

/-- The body of a block with an error in it: the error is recovered from and the block closed. -/
theorem scopes_balanced_errorInBlock : ∃ (c : Parse Lexer) (Γs : List (Layers Name)),
    ScopedRun yylex (fun _ _ => "") (fun c => ¬ FailsInHeader c) c Γs ∧ c.state.hasErrors = true ∧
      KeepsScopes yylex (fun _ _ => "") c Γs := by
  have hrun : ((runFor yylex (fun _ _ => "") (fun c => ¬ FailsInHeader c) 15
      (parseStart "\x7b ) ; \x7d".toList 0) []).any (fun p => p.1.state.hasErrors)) = true := by decide +kernel
  obtain ⟨⟨c, Γs⟩, hc, he⟩ := (Option.any_eq_true _ _).mp hrun
  have h := ScopedRun.of_runFor (.start _ _) hc
  exact ⟨c, Γs, h, he, scopes_balanced h⟩

/-- The header of `func;` leaves its scope behind, and the brace that ends the block pops that one. -/
theorem scopes_unbalanced : ¬ ∀ (c : Parse Lexer) (Γs : List (Layers Name)),
    ScopedRun yylex (fun _ _ => "") (fun _ => True) c Γs → KeepsScopes yylex (fun _ _ => "") c Γs := by
  have hrun : ((runFor yylex (fun _ _ => "") (fun _ => True) 43
      (parseStart "\x7b x = 1; func; \x7d".toList 0) []).any
        (fun p => p.1.state.scopes.scopes.length = 2 ∧ openings (symbols p.1) = 0)) = true := by
    decide +kernel
  obtain ⟨⟨c, Γs⟩, hc, he⟩ := (Option.any_eq_true _ _).mp hrun
  obtain ⟨hlen, hopen⟩ : c.state.scopes.scopes.length = 2 ∧ openings (symbols c) = 0 := by
    simpa using he
  intro hall
  have h := (hall c Γs (ScopedRun.of_runFor (.start _ _) hc)).length
  rw [hlen, hopen] at h
  cases h

end Run

end ParaCL
