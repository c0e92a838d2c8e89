import ParaCL.Lib.Bison
import ParaCL.Lib.Slr

/-!
# `Lib.BisonCorrect` — the parser reads what the grammar derives

`ReadsAll G A β ts s vs s'` is a derivation with its actions: the symbols `β` derive the tokens `ts`, their
values are `vs`, and the actions, run bottom up and from left to right, take `s` to `s'`.

`accepts_of_reads`: for a grammar that needs one terminal of lookahead the parser follows every derivation,
reports nothing and accepts. `reads_of_accepts`: an accepting run that ends in a state without reports has
built a derivation of the tokens it was given. Being deterministic, the parser then derives every input in
at most one way.
-/

namespace Lib

namespace Bison

variable {T N R V S L E : Type} [DecidableEq T] [DecidableEq N] [DecidableEq R]

section Derivations

variable (G : Grammar T N R) (A : Actions T R V S L E)

omit [DecidableEq T] [DecidableEq N] [DecidableEq R] in
/-- Derivations with their actions. -/
inductive ReadsAll : List (GrammarSymbol T N) → List (T × V) → S → List V → S → Prop where
  | nil {s : S} : ReadsAll [] [] s [] s
  | terminal {β : List (GrammarSymbol T N)} {t : T} {v : V} {ts : List (T × V)} {s s' : S} {vs : List V}
      (h : ReadsAll β ts s vs s') : ReadsAll (.terminal t :: β) ((t, v) :: ts) s (v :: vs) s'
  | nonterminal {β : List (GrammarSymbol T N)} {r : R} {ts us : List (T × V)} {s s1 s2 s' : S}
      {vs ws : List V} {v : V} (hr : ReadsAll (G.rhs r) ts s vs s1) (ha : A.act r vs s1 = .ok (v, s2))
      (h : ReadsAll β us s2 ws s') :
      ReadsAll (.nonterminal (G.lhs r) :: β) (ts ++ us) s (v :: ws) s'

/-- The lexer hands out these tokens one after the other. -/
inductive Delivers : L → List (T × V) → L → Prop where
  | nil {l : L} : Delivers l [] l
  | cons {l l1 l' : L} {tok : T × V} {ts : List (T × V)} (h : A.lex l = .ok (tok, l1))
      (hs : Delivers l1 ts l') : Delivers l (tok :: ts) l'

/-- What the parser has before it: the lookahead, if it holds one, and what the lexer hands out. -/
inductive Supplies : Option (T × V) → L → List (T × V) → Prop where
  | ahead {l l' : L} {tok : T × V} {ts : List (T × V)} (h : Delivers A l ts l') :
      Supplies (some tok) l (tok :: ts)
  | lexer {l l' : L} {ts : List (T × V)} (h : Delivers A l ts l') : Supplies none l ts

end Derivations

variable {G : Grammar T N R} {A : Actions T R V S L E}

omit [DecidableEq T] [DecidableEq N] [DecidableEq R] in
theorem Delivers.append {l l1 l' : L} {ts us : List (T × V)} (h : Delivers A l ts l1)
    (h' : Delivers A l1 us l') : Delivers A l (ts ++ us) l' := by
  induction h with
  | nil => exact h'
  | cons hl _ ih => exact .cons hl (ih h')

omit [DecidableEq T] [DecidableEq N] [DecidableEq R] in
theorem Delivers.split {l l' : L} {ts us : List (T × V)} (h : Delivers A l (ts ++ us) l') :
    ∃ l1, Delivers A l ts l1 ∧ Delivers A l1 us l' := by
  induction ts generalizing l with
  | nil => exact ⟨l, .nil, h⟩
  | cons t ts ih =>
      cases h with
      | cons hl hs =>
          obtain ⟨l1, h1, h2⟩ := ih hs
          exact ⟨l1, .cons hl h1, h2⟩

omit [DecidableEq T] [DecidableEq N] [DecidableEq R] in
/-- Of two runs of the lexer one goes on with the other. -/
theorem Delivers.compare {l l1 l' : L} {ts us : List (T × V)} (h : Delivers A l ts l1)
    (h' : Delivers A l us l') :
    (∃ vs, us = ts ++ vs ∧ Delivers A l1 vs l') ∨ ∃ vs, ts = us ++ vs ∧ Delivers A l' vs l1 := by
  induction h generalizing us with
  | nil => exact .inl ⟨us, rfl, h'⟩
  | cons hl hs ih =>
      cases h' with
      | nil => exact .inr ⟨_, rfl, .cons hl hs⟩
      | cons hl' hs' =>
          rw [hl] at hl'
          cases hl'
          rcases ih hs' with ⟨vs, rfl, hd⟩ | ⟨vs, rfl, hd⟩
          · exact .inl ⟨vs, rfl, hd⟩
          · exact .inr ⟨vs, rfl, hd⟩

omit [DecidableEq T] [DecidableEq N] [DecidableEq R] in
theorem ReadsAll.append {β δ : List (GrammarSymbol T N)} {ts us : List (T × V)} {s s1 s' : S}
    {vs ws : List V} (h : ReadsAll G A β ts s vs s1) (h' : ReadsAll G A δ us s1 ws s') :
    ReadsAll G A (β ++ δ) (ts ++ us) s (vs ++ ws) s' := by
  induction h with
  | nil => exact h'
  | terminal _ ih => exact .terminal (ih h')
  | nonterminal hr ha _ _ ih =>
      rw [List.append_assoc]
      exact .nonterminal hr ha (ih h')

omit [DecidableEq T] [DecidableEq N] [DecidableEq R] in
theorem ReadsAll.length {β : List (GrammarSymbol T N)} {ts : List (T × V)} {s s' : S} {vs : List V}
    (h : ReadsAll G A β ts s vs s') : vs.length = β.length := by
  induction h with
  | nil => rfl
  | terminal _ ih => rw [List.length_cons, List.length_cons, ih]
  | nonterminal _ _ _ _ ih => rw [List.length_cons, List.length_cons, ih]

omit [DecidableEq T] [DecidableEq N] [DecidableEq R] in
/-- What a derivation begins with, or it is empty and its symbols can be. -/
theorem ReadsAll.first (C : G.Lookaheads) {β : List (GrammarSymbol T N)} {ts : List (T × V)} {s s' : S}
    {vs : List V} (h : ReadsAll G A β ts s vs s') :
    (ts = [] ∧ Grammar.allNullable C.nullable β = true) ∨
      ∃ tok us, ts = tok :: us ∧ tok.1 ∈ Grammar.firstOf C.nullable C.first β := by
  induction h with
  | nil => exact .inl ⟨rfl, rfl⟩
  | terminal _ _ => exact .inr ⟨_, _, rfl, List.mem_singleton.mpr rfl⟩
  | @nonterminal β r ts us s s1 s2 s' vs ws v _ _ _ ihr ih =>
      rcases ihr with ⟨rfl, hn⟩ | ⟨tok, us', rfl, hf⟩
      · have hnull : C.nullable (G.lhs r) = true := C.nullable_rule r hn
        rcases ih with ⟨rfl, hn'⟩ | ⟨tok, us', rfl, hf⟩
        · exact .inl ⟨rfl, by rw [Grammar.allNullable, hnull, hn']; rfl⟩
        · refine .inr ⟨tok, us', rfl, ?_⟩
          rw [Grammar.firstOf, hnull]
          exact List.mem_append_right _ hf
      · refine .inr ⟨tok, us' ++ us, rfl, ?_⟩
        rw [Grammar.firstOf]
        exact List.mem_append_left _ (C.first_rule r _ hf)

/-! ## From derivations to runs -/

/-- The parser is reading, and has met no error within the last three tokens. -/
structure Calm (c : ParseConfig T N V S L) : Prop where
  popping : c.popping = false
  status : c.status = 0

section Follows

variable {c : ParseConfig T N V S L} {tok : T × V} {ts : List (T × V)} {it : Item R}

theorem step_shift (hp : c.popping = false) (hl : c.lookahead = some tok)
    (hs : G.shifts (symbols c) tok.1 = true) :
    step G A c = .inl { c with
      stack := (.terminal tok.1, tok.2) :: c.stack, lookahead := none, status := c.status - 1 } := by
  simp [step, hp, hl, hs]

theorem step_lex {lexer : L} (hp : c.popping = false) (hl : c.lookahead = none)
    (hno : ¬ ∃ it, Reduces G c it) (h : A.lex c.lexer = .ok (tok, lexer)) :
    step G A c = .inl { c with lookahead := some tok, lexer } := by
  simp only [step, hp, hl, Bool.false_eq_true, if_false]
  split
  · rename_i it hx hc
    exact absurd ⟨it, hc, .inl ⟨hl, hx⟩⟩ hno
  · rw [h]

theorem step_lexEscape {e : E} (hp : c.popping = false) (hl : c.lookahead = none)
    (hno : ¬ ∃ it, Reduces G c it) (h : A.lex c.lexer = .error e) :
    step G A c = .inr (.escape e) := by
  simp only [step, hp, hl, Bool.false_eq_true, if_false]
  split
  · rename_i it hx hc
    exact absurd ⟨it, hc, .inl ⟨hl, hx⟩⟩ hno
  · rw [h]

theorem step_reduce (hp : c.popping = false) (hr : Reduces G c it) :
    step G A c = reduce G A it.rule c := by
  obtain ⟨hc, ⟨hl, hx⟩ | ⟨tok, hl, hs⟩⟩ := hr
  · simp [step, hp, hl, hx, hc]
  · simp [step, hp, hl, hs, hc]

omit [DecidableEq R] in
theorem expected_ne_nil {γ : List (GrammarSymbol T N)} {t : T} (h : G.shifts γ t = true) :
    G.expected γ ≠ [] := List.ne_nil_of_mem (Grammar.mem_expected.mpr h)

/-- Unless the parser reduces at once it has the next token ahead, or asks for it. -/
theorem ahead_star (hc : Calm c) (hin : Supplies A c.lookahead c.lexer (tok :: ts))
    (hno : ¬ ∃ it, Reduces G c it) :
    ∃ lexer l', Star (step G A) c { c with lookahead := some tok, lexer } ∧ Delivers A lexer ts l' := by
  obtain ⟨stack, lookahead, lexer, status, popping, state⟩ := c
  cases hin with
  | ahead h => exact ⟨lexer, _, .refl _, h⟩
  | lexer h =>
      cases h with
      | cons hlex hs => exact ⟨_, _, .one (step_lex hc.popping rfl hno hlex), hs⟩

/-- The token ahead is shifted. -/
theorem shift_star (hc : Calm c) (hin : Supplies A c.lookahead c.lexer (tok :: ts))
    (hs : G.shifts (symbols c) tok.1 = true) :
    ∃ c', Star (step G A) c c' ∧ c'.stack = (.terminal tok.1, tok.2) :: c.stack ∧
      c'.state = c.state ∧ Calm c' ∧ Supplies A c'.lookahead c'.lexer ts := by
  by_cases hr : ∃ it, Reduces G c it
  · -- a token that can be shifted is the lookahead already, or the parser would ask for it
    obtain ⟨it, _, ⟨_, hx⟩ | ⟨tok', hl, hs'⟩⟩ := hr
    · exact absurd hx (expected_ne_nil hs)
    · rw [hl] at hin
      cases hin with
      | ahead h => rw [hs] at hs'; cases hs'
  · obtain ⟨lexer, l', hstar, hdel⟩ := ahead_star (G := G) hc hin hr
    refine ⟨_, hstar.trans (.one (step_shift hc.popping rfl hs)), rfl, rfl, ⟨hc.popping, ?_⟩, .lexer hdel⟩
    show c.status - 1 = 0
    rw [hc.status]

/-- A complete right-hand side is reduced, unless the token ahead can be shifted. -/
theorem reduce_star {β : List (GrammarSymbol T N)} {vs : List V} {st : List (GrammarSymbol T N × V)} {v : V}
    {s : S} {r : R} (hc : Calm c) (hin : Supplies A c.lookahead c.lexer (tok :: ts))
    (hcomp : G.complete (symbols c) = some it) (hr : it.rule = r) (hne : r ≠ G.start)
    (hs : G.shifts (symbols c) tok.1 = false) (hβ : G.rhs r = β)
    (hst : c.stack = (β.zip vs).reverse ++ st) (hlen : vs.length = β.length)
    (ha : A.act r vs c.state = .ok (v, s)) :
    ∃ c', Star (step G A) c c' ∧ c'.stack = (.nonterminal (G.lhs r), v) :: st ∧ c'.state = s ∧
      Calm c' ∧ Supplies A c'.lookahead c'.lexer (tok :: ts) := by
  subst hβ hr
  have hzip : ((G.rhs it.rule).zip vs).reverse.length = (G.rhs it.rule).length := by
    rw [List.length_reverse, List.length_zip, hlen, Nat.min_self]
  have htake : (c.stack.take (G.rhs it.rule).length).reverse.map Prod.snd = vs := by
    rw [hst, List.take_left' hzip, List.reverse_reverse]
    exact List.map_snd_zip (Nat.le_of_eq hlen)
  have hdrop : c.stack.drop (G.rhs it.rule).length = st := by rw [hst, List.drop_left' hzip]
  -- both ways of reducing lead to the same stack
  have hred : ∀ d : ParseConfig T N V S L, d.stack = c.stack → d.state = c.state → Calm d →
      Reduces G d it → ∃ c', Star (step G A) d c' ∧
        c'.stack = (.nonterminal (G.lhs it.rule), v) :: st ∧ c'.state = s ∧ Calm c' ∧
        c'.lookahead = d.lookahead ∧ c'.lexer = d.lexer := by
    intro d hstack hstate hd hr
    have hstep : step G A d =
        .inl { d with
          stack := (.nonterminal (G.lhs it.rule), v) :: st
          status := if A.yyerrok it.rule then 0 else d.status
          state := s } := by
      rw [step_reduce hd.popping hr, reduce, if_neg hne]
      simp only [hstack, hstate, htake, hdrop, ha]
    exact ⟨_, .one hstep, rfl, rfl, ⟨hd.popping, by rw [hd.status, ite_self]⟩, rfl, rfl⟩
  by_cases hr : ∃ it, Reduces G c it
  · obtain ⟨it', hr⟩ := hr
    obtain rfl : it' = it := Option.some.inj (hr.1.symm.trans hcomp)
    obtain ⟨c', hstar, hst', hstate, hcalm, hl, hx⟩ := hred c rfl rfl hc hr
    exact ⟨c', hstar, hst', hstate, hcalm, by rw [hl, hx]; exact hin⟩
  · obtain ⟨lexer, l', hstar, hdel⟩ := ahead_star (G := G) hc hin hr
    obtain ⟨c', hstar', hst', hstate, hcalm, hl, hx⟩ :=
      hred { c with lookahead := some tok, lexer } rfl rfl ⟨hc.popping, hc.status⟩
        ⟨hcomp, .inr ⟨tok, rfl, hs⟩⟩
    refine ⟨c', hstar.trans hstar', hst', hstate, hcalm, ?_⟩
    rw [hl, hx]
    exact .ahead hdel

/-- The parser follows a derivation of what an item has left to read, where the token after it may follow
    the item's left-hand side. -/
theorem follow_star (C : G.Slr) {β : List (GrammarSymbol T N)} {ts : List (T × V)} {s s' : S} {vs : List V}
    (h : ReadsAll G A β ts s vs s') :
    ∀ {c : ParseConfig T N V S L} {r0 : R} {d : Nat} {tok : T × V} {rest : List (T × V)}, Calm c →
      c.state = s → ⟨r0, d⟩ ∈ G.items (symbols c) → (G.rhs r0).drop d = β →
      tok.1 ∈ C.follow (G.lhs r0) → Supplies A c.lookahead c.lexer (ts ++ tok :: rest) →
      ∃ c', Star (step G A) c c' ∧ c'.stack = (β.zip vs).reverse ++ c.stack ∧ c'.state = s' ∧
        Calm c' ∧ Supplies A c'.lookahead c'.lexer (tok :: rest) ∧
        ⟨r0, d + β.length⟩ ∈ G.items (symbols c') := by
  induction h with
  | nil =>
      intro c r0 d tok rest hc hs hit _ _ hin
      exact ⟨c, .refl _, rfl, hs, hc, hin, hit⟩
  | @terminal β t v ts s s' vs h ih =>
      intro c r0 d tok rest hc hs hit hβ ht hin
      have hnext : G.next ⟨r0, d⟩ = some (.terminal t) := by
        rw [Grammar.next, ← List.head?_drop, hβ]
        rfl
      have hdrop : (G.rhs r0).drop (d + 1) = β := by
        rw [← List.drop_drop, hβ]
        rfl
      obtain ⟨c1, hstar, hst, hstate, hc1, hin1⟩ :=
        shift_star hc hin (Grammar.shifts_iff.mpr ⟨_, hit, hnext⟩)
      have hit1 : ⟨r0, d + 1⟩ ∈ G.items (symbols c1) := by
        rw [symbols, hst]
        exact Grammar.advance_mem hit hnext
      obtain ⟨c2, hstar2, hst2, hs2, hc2, hin2, hit2⟩ := ih hc1 (hstate.trans hs) hit1 hdrop ht hin1
      refine ⟨c2, hstar.trans hstar2, ?_, hs2, hc2, hin2, ?_⟩
      · rw [hst2, hst, List.zip_cons_cons, List.reverse_cons, List.append_assoc]
        rfl
      · rw [List.length_cons, Nat.add_comm β.length, ← Nat.add_assoc]
        exact hit2
  | @nonterminal β r ts us s s1 s2 s' vs ws v hr ha h ihr ih =>
      intro c r0 d tok rest hc hs hit hβ ht hin
      have hnext : G.next ⟨r0, d⟩ = some (.nonterminal (G.lhs r)) := by
        rw [Grammar.next, ← List.head?_drop, hβ]
        rfl
      have hdrop : (G.rhs r0).drop (d + 1) = β := by
        rw [← List.drop_drop, hβ]
        rfl
      have hne : r ≠ G.start := by
        rintro rfl
        exact G.start_fresh r0 (List.mem_of_getElem? hnext)
      -- the token after the nonterminal may follow it
      obtain ⟨u, us', hu, huf⟩ : ∃ u us', us ++ tok :: rest = u :: us' ∧ u.1 ∈ C.follow (G.lhs r) := by
        rcases h.first C.toLookaheads with ⟨rfl, hn⟩ | ⟨u, us', rfl, hf⟩
        · exact ⟨tok, rest, rfl, C.follow_rule r0 d _ hnext (by rw [hdrop]; exact hn) _ ht⟩
        · exact ⟨u, us' ++ tok :: rest, rfl, C.follow_first r0 d _ hnext _ (by rw [hdrop]; exact hf)⟩
      rw [List.append_assoc, hu] at hin
      obtain ⟨c1, hstar1, hst1, hs1, hc1, hin1, hit1⟩ :=
        ihr hc hs (Grammar.begin_mem hit hnext) rfl huf hin
      -- the right-hand side is on the stack and gives way to the nonterminal
      have hfull : G.next ⟨r, 0 + (G.rhs r).length⟩ = none := by
        rw [Grammar.next, Nat.zero_add]
        exact List.getElem?_eq_none_iff.mpr (Nat.le_refl _)
      have hcomp := C.complete_eq hit1 hfull
      have hno := C.not_shifts hit1 hfull huf
      obtain ⟨c2, hstar2, hst2, hs2, hc2, hin2⟩ :=
        reduce_star hc1 hin1 hcomp rfl hne hno rfl hst1 hr.length (by rw [hs1]; exact ha)
      have hit2 : ⟨r0, d + 1⟩ ∈ G.items (symbols c2) := by
        rw [symbols, hst2]
        exact Grammar.advance_mem hit hnext
      rw [← hu] at hin2
      obtain ⟨c3, hstar3, hst3, hs3, hc3, hin3, hit3⟩ := ih hc2 hs2 hit2 hdrop ht hin2
      refine ⟨c3, (hstar1.trans hstar2).trans hstar3, ?_, hs3, hc3, hin3, ?_⟩
      · rw [hst3, hst2, List.zip_cons_cons, List.reverse_cons, List.append_assoc]
        rfl
      · rw [List.length_cons, Nat.add_comm β.length, ← Nat.add_assoc]
        exact hit3

/-- **What is derived is accepted**, with the values and the state of the derivation. -/
theorem accepts_of_reads (C : G.Slr) {a : N} {e : T}
    (hrhs : G.rhs G.start = [.nonterminal a, .terminal e])
    (hfinal : G.expected [.terminal e, .nonterminal a] = []) (he : e ∈ C.follow a)
    {ts : List (T × V)} {s s' : S} {vs : List V} (h : ReadsAll G A (G.rhs G.start) ts s vs s')
    {l l' : L} (hl : Delivers A l ts l') :
    ∃ c, Ends (step G A) (start l s) c .accept ∧ c.state = s' ∧ c.stack.map Prod.snd = vs.reverse := by
  rw [hrhs] at h
  generalize hβ : [GrammarSymbol.nonterminal a, GrammarSymbol.terminal e] = β at h
  cases h with
  | nil => cases hβ
  | terminal => cases hβ
  | @nonterminal δ r ts us _ s1 s2 _ vs ws v hr ha h =>
      injection hβ with hlhs hδ
      subst hδ
      injection hlhs with hlhs
      cases h with
      | @terminal _ _ w ts' _ _ ws h =>
          cases h
          have hne : r ≠ G.start := by
            rintro rfl
            refine G.start_fresh G.start ?_
            rw [hrhs, hlhs]
            exact List.mem_cons_self ..
          have hstart : (⟨G.start, 0⟩ : Item R) ∈ G.items [] :=
            Grammar.mem_items_of_kernel (List.mem_singleton.mpr rfl)
          have hnext : G.next ⟨G.start, 0⟩ = some (.nonterminal (G.lhs r)) := by
            rw [Grammar.next, hrhs, hlhs]
            rfl
          have hc0 : Calm (start (T := T) (N := N) (V := V) l s) := ⟨rfl, rfl⟩
          obtain ⟨c1, hstar1, hst1, hs1, hc1, hin1, hit1⟩ :=
            follow_star C hr (d := 0) hc0 rfl
              (Grammar.begin_mem hstart hnext) rfl (by rw [← hlhs]; exact he) (.lexer hl)
          have hfull : G.next ⟨r, 0 + (G.rhs r).length⟩ = none := by
            rw [Grammar.next, Nat.zero_add]
            exact List.getElem?_eq_none_iff.mpr (Nat.le_refl _)
          obtain ⟨c2, hstar2, hst2, hs2, hc2, hin2⟩ :=
            reduce_star hc1 hin1 (C.complete_eq hit1 hfull) rfl hne
              (C.not_shifts hit1 hfull (by rw [← hlhs]; exact he)) rfl hst1 hr.length
              (by rw [hs1]; exact ha)
          -- the end of the input is shifted, and nothing is left to read
          have hst2' : c2.stack = [(.nonterminal (G.lhs r), v)] := by rw [hst2]; rfl
          have hit2 : (⟨G.start, 1⟩ : Item R) ∈ G.items (symbols c2) := by
            rw [symbols, hst2']
            exact Grammar.advance_mem hstart hnext
          have hnext2 : G.next ⟨G.start, 1⟩ = some (.terminal e) := by
            rw [Grammar.next, hrhs]
            rfl
          obtain ⟨c3, hstar3, hst3, hs3, hc3, hin3⟩ :=
            shift_star hc2 hin2 (Grammar.shifts_iff.mpr ⟨_, hit2, hnext2⟩)
          have hst3' : c3.stack = [(.terminal e, w), (.nonterminal a, v)] := by
            rw [hst3, hst2', hlhs]
          have hit3 : (⟨G.start, 2⟩ : Item R) ∈ G.items (symbols c3) := by
            rw [symbols, hst3]
            exact Grammar.advance_mem hit2 hnext2
          have hcomp : G.complete (symbols c3) = some ⟨G.start, 2⟩ := by
            refine C.complete_eq hit3 ?_
            rw [Grammar.next, hrhs]
            rfl
          have hnone : c3.lookahead = none := by
            generalize hla : c3.lookahead = la at hin3
            generalize hts : ([] : List (T × V)) = us at hin3
            cases hin3 with
            | ahead => cases hts
            | lexer => rfl
          have hred : Reduces G c3 ⟨G.start, 2⟩ :=
            ⟨hcomp, .inl ⟨hnone, by rw [symbols, hst3']; exact hfinal⟩⟩
          refine ⟨c3, ⟨(hstar1.trans hstar2).trans hstar3, ?_⟩, ?_, ?_⟩
          · rw [step_reduce hc3.popping hred, reduce, if_pos rfl]
          · rw [hs3, hs2]
          · rw [hst3']
            rfl

end Follows

/-! ## From runs to derivations -/

section Builds

variable (G A) in
omit [DecidableEq T] [DecidableEq N] [DecidableEq R] in
/-- The stack holds derivations of the tokens read so far. -/
inductive Spelled (s0 : S) : List (GrammarSymbol T N × V) → List (T × V) → S → Prop where
  | nil : Spelled s0 [] [] s0
  | terminal {st : List (GrammarSymbol T N × V)} {ts : List (T × V)} {s : S} {t : T} {v : V}
      (h : Spelled s0 st ts s) : Spelled s0 ((.terminal t, v) :: st) (ts ++ [(t, v)]) s
  | nonterminal {st : List (GrammarSymbol T N × V)} {ts us : List (T × V)} {s s1 s2 : S} {r : R}
      {vs : List V} {v : V} (h : Spelled s0 st ts s) (hr : ReadsAll G A (G.rhs r) us s vs s1)
      (ha : A.act r vs s1 = .ok (v, s2)) :
      Spelled s0 ((.nonterminal (G.lhs r), v) :: st) (ts ++ us) s2

omit [DecidableEq T] [DecidableEq N] [DecidableEq R] in
/-- The top of the stack is a derivation, and what is under it spells the tokens before. -/
theorem Spelled.split {s0 s : S} {es st : List (GrammarSymbol T N × V)} {ts : List (T × V)}
    (h : Spelled G A s0 (es ++ st) ts s) :
    ∃ us ws s1, ts = us ++ ws ∧ Spelled G A s0 st us s1 ∧
      ReadsAll G A (es.reverse.map Prod.fst) ws s1 (es.reverse.map Prod.snd) s := by
  induction es generalizing ts s with
  | nil => exact ⟨ts, [], s, (List.append_nil _).symm, h, .nil⟩
  | cons e es ih =>
      cases h with
      | terminal h =>
          obtain ⟨us, ws, s1, rfl, hst, hr⟩ := ih h
          refine ⟨us, ws ++ [_], s1, List.append_assoc .., hst, ?_⟩
          rw [List.reverse_cons, List.map_append, List.map_append]
          exact hr.append (.terminal .nil)
      | @nonterminal _ ts us _ s1 _ r vs v h hr ha =>
          obtain ⟨us', ws, s1, rfl, hst, hr'⟩ := ih h
          refine ⟨us', ws ++ us, s1, List.append_assoc .., hst, ?_⟩
          rw [List.reverse_cons, List.map_append, List.map_append]
          refine hr'.append ?_
          have hone := ReadsAll.nonterminal hr ha (.nil (s := s))
          rwa [List.append_nil] at hone

/-- A state without reports has only such states before it. -/
structure Reports (A : Actions T R V S L E) (Clean : S → Prop) : Prop where
  act : ∀ {r : R} {vs : List V} {s s' : S} {v : V}, A.act r vs s = .ok (v, s') → Clean s' → Clean s
  report : ∀ {es : List T} {tok : T × V} {s : S}, ¬ Clean (A.report es tok s)

/-- What holds of a run from `start l s0` that has reported nothing. -/
structure Building (G : Grammar T N R) (A : Actions T R V S L E) (l : L) (s0 : S)
    (c : ParseConfig T N V S L) : Prop where
  calm : Calm c
  spelled : ∃ ts, Spelled G A s0 c.stack ts c.state ∧ Delivers A l (ts ++ c.lookahead.toList) c.lexer

variable {Clean : S → Prop} {l : L} {s0 : S} {c c' : ParseConfig T N V S L}

theorem clean_of_step (hA : Reports A Clean) (h : step G A c = .inl c') (hc : Clean c'.state) :
    Clean c.state := by
  have hd := step_does (G := G) (A := A) c
  rw [h] at hd
  cases hd with
  | reduce _ _ _ ha => exact hA.act ha hc
  | report => exact absurd hc hA.report
  | pop | shiftError | lex | shift | retry | discard => exact hc

theorem clean_of_star (hA : Reports A Clean) (h : Star (step G A) c c') (hc : Clean c'.state) :
    Clean c.state := by
  obtain ⟨n, h⟩ := h
  induction h with
  | refl => exact hc
  | head hs _ ih => exact clean_of_step hA hs (ih hc)

/-- A step that reports nothing goes on building. -/
theorem Building.step (hA : Reports A Clean) (hb : Building G A l s0 c) (h : step G A c = .inl c')
    (hc : Clean c'.state) : Building G A l s0 c' := by
  obtain ⟨⟨hp, hst⟩, ts, hsp, hdel⟩ := hb
  have hd := step_does (G := G) (A := A) c
  rw [h] at hd
  cases hd with
  | pop hp' | shiftError hp' => rw [hp] at hp'; cases hp'
  | lex _ hl _ hlex =>
      refine ⟨⟨hp, hst⟩, ts, hsp, ?_⟩
      rw [hl, Option.toList_none, List.append_nil] at hdel
      exact hdel.append (.cons hlex .nil)
  | @shift tok _ hl _ =>
      refine ⟨⟨hp, by show c.status - 1 = 0; rw [hst]⟩, ts ++ [tok], .terminal hsp, ?_⟩
      rw [hl] at hdel
      simpa using hdel
  -- the top of the stack is the right side; its trees become one
  | @reduce it v s _ hr _ ha =>
      refine ⟨⟨hp, by rw [hst, ite_self]⟩, ?_⟩
      obtain ⟨_, _, _, hlen, _⟩ := hr.split
      rw [← List.take_append_drop (G.rhs it.rule).length c.stack] at hsp
      obtain ⟨us, ws, s1, rfl, hrest, hread⟩ := hsp.split
      rw [hlen] at hread
      exact ⟨us ++ ws, .nonterminal hrest hread ha, hdel⟩
  | report => exact absurd hc hA.report
  | retry _ _ hst' | discard _ _ hst' => rw [hst] at hst'; first | cases hst' | exact absurd rfl hst'

/-- **What is accepted without a report is derived**, from the tokens the lexer handed out. -/
theorem reads_of_accepts (hA : Reports A Clean) {s0 : S}
    (h : Ends (step G A) (start l s0) c .accept) (hc : Clean c.state) :
    ∃ ts vs, ReadsAll G A (G.rhs G.start) ts s0 vs c.state ∧
      Delivers A l (ts ++ c.lookahead.toList) c.lexer ∧ c.stack.map Prod.snd = vs.reverse := by
  obtain ⟨⟨n, hrun⟩, hacc⟩ := h
  -- nothing is reported on the way, so the stack is a forest over the tokens read
  have hbuild : Building G A l s0 c := by
    have hbase : Building G A l s0 (start (T := T) (N := N) (V := V) l s0) :=
      ⟨⟨rfl, rfl⟩, [], .nil, .nil⟩
    generalize start (T := T) (N := N) (V := V) l s0 = a at hrun hbase
    induction hrun with
    | refl => exact hbase
    | head hs hrest ih => exact ih hc hacc (hbase.step hA hs (clean_of_star hA ⟨_, hrest⟩ hc))
  obtain ⟨_, ts, hsp, hdel⟩ := hbuild
  have hd := step_does (G := G) (A := A) c
  rw [hacc] at hd
  cases hd with
  | @accept it _ hr hst =>
      obtain ⟨_, γ', hγ, h0⟩ := Grammar.complete_split hr.1
      rw [hst] at hγ h0
      obtain rfl := Grammar.eq_nil_of_start h0
      rw [List.append_nil] at hγ
      have hsp' : Spelled G A s0 (c.stack ++ []) ts c.state := by rwa [List.append_nil]
      obtain ⟨us, ws, s1, rfl, hnil, hread⟩ := hsp'.split
      cases hnil
      refine ⟨ws, c.stack.reverse.map Prod.snd, ?_, hdel, by rw [List.map_reverse, List.reverse_reverse]⟩
      -- at the end the stack spells the right side of the start rule
      have hsyms : c.stack.reverse.map Prod.fst = G.rhs G.start := by
        rw [List.map_reverse]
        show (symbols c).reverse = _
        rw [hγ, List.reverse_reverse]
      rwa [hsyms] at hread

end Builds

end Bison

end Lib
