import ParaCL.Parser.Lexer

/-!
# `Parser.Scanning` — where the scanner says a token is

A text is cut into pieces, one for each match (`Scanned`). `Shown ps` is what the two counters have seen
of the pieces `ps`: all of them but block comments and unexpected characters. After any number of calls
the counters are the line and the column of the end of that text (`Reached.counters`).

A location is built from the line before a call and the counters after it. `location_exact_iff` says when
it is the place of the token: no newline was skipped in the call, and the token stands in the source where
it would stand without the pieces the counters do not see.
-/

namespace ParaCL

open Lib

/-! ## Pieces -/

/-- The text starts with these pieces, each the match of the rules there. -/
inductive Scanned : List Char → List Piece → List Char → Prop where
  | nil {w : List Char} : Scanned w [] w
  | cons {w v u : List Char} {p : Piece} {ps : List Piece} (h : nextPiece w = some (p, v))
      (hs : Scanned v ps u) : Scanned w (p :: ps) u

/-- The pieces the counters see. -/
def LexAction.counted : LexAction → Bool
  | .skip | .unknown => false
  | _ => true

section Pieces

variable {w v u : List Char} {p q : Piece} {ps qs : List Piece}

theorem Scanned.append (h : Scanned w ps v) (hs : Scanned v qs u) : Scanned w (ps ++ qs) u := by
  induction h with
  | nil => exact hs
  | cons hp _ ih => exact .cons hp (ih hs)

theorem Scanned.snoc (h : Scanned w ps v) (hp : nextPiece v = some (p, u)) :
    Scanned w (ps ++ [p]) u :=
  h.append (.cons hp .nil)

theorem Scanned.split (h : Scanned w (ps ++ qs) u) : ∃ v, Scanned w ps v ∧ Scanned v qs u := by
  induction ps generalizing w with
  | nil => exact ⟨w, .nil, h⟩
  | cons p ps ih =>
      cases h with
      | cons hp hs =>
          obtain ⟨v, h1, h2⟩ := ih hs
          exact ⟨v, .cons hp h1, h2⟩

/-- A rule of the list, and a prefix in the language of its pattern. -/
theorem nextPiece_rule (h : nextPiece w = some (p, v)) :
    w = p.lexeme ++ v ∧ ∃ rule ∈ lexerRules, rule.action = p.action ∧ rule.pattern.Matches p.lexeme := by
  unfold nextPiece at h
  obtain ⟨⟨rule, n⟩, hs, hp⟩ := Option.map_eq_some_iff.mp h
  obtain ⟨hr, _, hm⟩ := scan_sound hs
  cases hp
  exact ⟨(List.take_append_drop n w).symm, rule, hr, rfl, hm⟩

theorem nextPiece_text (h : nextPiece w = some (p, v)) : w = p.lexeme ++ v := (nextPiece_rule h).1

theorem lexerRules_not_nullable : ∀ rule ∈ lexerRules, rule.pattern.nullable = false := by decide

theorem lexeme_ne_nil (h : nextPiece w = some (p, v)) : p.lexeme ≠ [] := by
  obtain ⟨_, rule, hr, _, hm⟩ := nextPiece_rule h
  intro hp
  rw [hp] at hm
  have hn := lexerRules_not_nullable rule hr
  rw [Regex.nullable_iff.mpr hm] at hn
  cases hn

theorem lexerRules_newline : ∀ rule ∈ lexerRules,
    rule.action = .newline ∨ rule.action = .skip ∨ rule.pattern.avoids '\n' = true := by decide

theorem lexerRules_newline_pattern : ∀ rule ∈ lexerRules, rule.action = .newline →
    rule.pattern = Patterns.newline := by
  simp [lexerRules, fixedTokens, fixedRule]

theorem newline_lexeme (h : nextPiece w = some (p, v)) (hp : p.action = .newline) :
    p.lexeme = ['\n'] := by
  obtain ⟨_, rule, hr, ha, hm⟩ := nextPiece_rule h
  rw [lexerRules_newline_pattern rule hr (ha.trans hp)] at hm
  obtain ⟨c, hc, hw⟩ := Regex.matches_char.mp hm
  have hcn : c = '\n' := by simpa using hc
  rw [hw, hcn]

/-- Only the newline rule and block comments take a newline. -/
theorem newline_not_mem (h : nextPiece w = some (p, v)) (hn : p.action ≠ .newline)
    (hs : p.action ≠ .skip) : '\n' ∉ p.lexeme := by
  obtain ⟨_, rule, hr, ha, hm⟩ := nextPiece_rule h
  rcases lexerRules_newline rule hr with h1 | h1 | h1
  · exact absurd (ha.symm.trans h1) hn
  · exact absurd (ha.symm.trans h1) hs
  · exact Regex.not_mem_of_avoids h1 hm

/-- Some rule matches every character, so that only the end of the text stops the scanner. -/
theorem nextPiece_eq_none : nextPiece w = none ↔ w = [] := by
  constructor
  · intro h
    cases w with
    | nil => rfl
    | cons c cs =>
        exfalso
        have hone : ∃ rule ∈ lexerRules, rule.pattern.Matches [c] := by
          by_cases hc : c = '\n'
          · exact ⟨⟨Patterns.newline, .newline⟩, by simp [lexerRules], .char (by simp [hc])⟩
          · exact ⟨⟨.char Patterns.any, .unknown⟩, by simp [lexerRules], .char (by simp [Patterns.any, hc])⟩
        obtain ⟨rule, hr, hm⟩ := hone
        obtain ⟨found, n, hf, _⟩ := scan_max (w := c :: cs) (m := 1) hr (by simp) (by simpa using hm)
        rw [nextPiece, hf] at h
        cases h
  · rintro rfl
    cases hn : nextPiece [] with
    | none => rfl
    | some r =>
        obtain ⟨p, v⟩ := r
        exact absurd (List.append_eq_nil_iff.mp (nextPiece_text hn).symm).1 (lexeme_ne_nil hn)

theorem nextPiece_length (h : nextPiece w = some (p, v)) : v.length < w.length := by
  have hpos := List.length_pos_of_ne_nil (lexeme_ne_nil h)
  rw [nextPiece_text h, List.length_append]
  omega

/-- The text is its pieces and what is left. -/
theorem Scanned.text (h : Scanned w ps v) : w = ps.flatMap Piece.lexeme ++ v := by
  induction h with
  | nil => rfl
  | cons hp _ ih => rw [nextPiece_text hp, List.flatMap_cons, List.append_assoc, ← ih]

/-- Of two scans from one place, one goes on where the other stops. -/
theorem Scanned.compare (h : Scanned w ps v) (h' : Scanned w qs u) :
    (∃ rs, qs = ps ++ rs ∧ Scanned v rs u) ∨ ∃ rs, ps = qs ++ rs ∧ Scanned u rs v := by
  induction h generalizing qs with
  | nil => exact .inl ⟨qs, rfl, h'⟩
  | cons hp hs ih =>
      cases h' with
      | nil => exact .inr ⟨_, rfl, .cons hp hs⟩
      | cons hp' hs' =>
          rw [hp] at hp'
          cases hp'
          rcases ih hs' with ⟨rs, rfl, hr⟩ | ⟨rs, rfl, hr⟩
          · exact .inl ⟨rs, rfl, hr⟩
          · exact .inr ⟨rs, rfl, hr⟩

/-- Every step of a scan takes a character. -/
theorem Scanned.length_le (h : Scanned w ps v) : ps.length + v.length ≤ w.length := by
  induction h with
  | nil => simp
  | cons hp _ ih =>
      have := nextPiece_length hp
      rw [List.length_cons]
      omega

/-- Two scans that leave the same text took the same pieces. -/
theorem Scanned.unique (h : Scanned w ps v) (h' : Scanned w qs v) : ps = qs := by
  rcases h.compare h' with ⟨rs, rfl, hr⟩ | ⟨rs, rfl, hr⟩ <;>
  · have := hr.length_le
    obtain rfl : rs = [] := List.length_eq_zero_iff.mp (by omega)
    rw [List.append_nil]

end Pieces

/-! ## Calls of the scanner -/

/-- The actions of several matches. -/
def Lexer.applyAll (L : Lexer) : List Piece → List Char → Lexer
  | [], _ => L
  | p :: ps, rest => (L.apply p (ps.flatMap Piece.lexeme ++ rest)).applyAll ps rest

/-- A separator: its action does not return. -/
def Piece.Separates (p : Piece) : Prop := p.action.code = none

instance (p : Piece) : Decidable p.Separates := inferInstanceAs (Decidable (_ = none))

/-- What one call does: separators, and then the end of the text or a piece that returns. -/
inductive Called (L : Lexer) : LexCode → Lexer → Prop where
  | eof {gap : List Piece} (hgap : ∀ p ∈ gap, p.Separates) (hs : Scanned L.input gap []) :
      Called L .eof { L.applyAll gap [] with yytext := [], yyleng := (L.applyAll gap []).endLeng }
  | piece {gap : List Piece} {p : Piece} {v : List Char} {code : LexCode}
      (hgap : ∀ p ∈ gap, p.Separates) (hs : Scanned L.input (gap ++ [p]) v)
      (hc : p.action.code = some code) : Called L code (L.applyAll (gap ++ [p]) v)

@[simp] theorem apply_input (L : Lexer) (p : Piece) (v : List Char) : (L.apply p v).input = v := by
  unfold Lexer.apply
  cases p.action <;> rfl

@[simp] theorem apply_yytext (L : Lexer) (p : Piece) (v : List Char) :
    (L.apply p v).yytext = p.lexeme := by
  unfold Lexer.apply
  cases p.action <;> rfl

@[simp] theorem apply_yyleng (L : Lexer) (p : Piece) (v : List Char) :
    (L.apply p v).yyleng = p.lexeme.length := by
  unfold Lexer.apply
  cases p.action <;> rfl

theorem applyAll_append (L : Lexer) (ps qs : List Piece) (v : List Char) :
    L.applyAll (ps ++ qs) v = (L.applyAll ps (qs.flatMap Piece.lexeme ++ v)).applyAll qs v := by
  induction ps generalizing L with
  | nil => rfl
  | cons p ps ih =>
      rw [List.cons_append, Lexer.applyAll, Lexer.applyAll, List.flatMap_append, List.append_assoc, ih]

/-- A separator before a call is part of it. -/
theorem Called.separator {L L' : Lexer} {p : Piece} {v : List Char} {code : LexCode}
    (hp : nextPiece L.input = some (p, v)) (hn : p.Separates) (h : Called (L.apply p v) code L') :
    Called L code L' := by
  have htext : ∀ {qs u}, Scanned (L.apply p v).input qs u →
      (L.apply p v).applyAll qs u = L.applyAll (p :: qs) u := by
    intro qs u hs
    rw [Lexer.applyAll, ← hs.text, apply_input]
  have hscan : ∀ {qs u}, Scanned (L.apply p v).input qs u → Scanned L.input (p :: qs) u := by
    intro qs u hs
    rw [apply_input] at hs
    exact .cons hp hs
  have hgaps : ∀ {gap : List Piece}, (∀ q ∈ gap, q.Separates) → ∀ q ∈ p :: gap, q.Separates := by
    intro gap hgap q hq
    rcases List.mem_cons.mp hq with rfl | hq
    · exact hn
    · exact hgap q hq
  cases h with
  | eof hgap hs =>
      rw [htext hs]
      exact .eof (hgaps hgap) (hscan hs)
  | piece hgap hs hc =>
      rw [htext hs, ← List.cons_append]
      exact .piece (hgaps hgap) (hscan hs) hc

theorem yylexLoop_called (n : Nat) (L : Lexer) (h : L.input.length < n) :
    Called L (Lexer.yylexLoop n L).1 (Lexer.yylexLoop n L).2 := by
  induction n generalizing L with
  | zero => omega
  | succ n ih =>
      rw [Lexer.yylexLoop]
      cases hp : nextPiece L.input with
      | none =>
          have hnil : Scanned L.input [] [] := by
            rw [nextPiece_eq_none.mp hp]
            exact .nil
          exact .eof (by simp) hnil
      | some r =>
          obtain ⟨p, v⟩ := r
          cases hc : p.action.code with
          | some code =>
              simp only [hc]
              have hone : Scanned L.input ([] ++ [p]) v := .cons hp .nil
              exact .piece (by simp) hone hc
          | none =>
              simp only [hc]
              refine .separator hp hc (ih (L.apply p v) ?_)
              have := nextPiece_length hp
              rw [apply_input]
              omega

theorem yylex_called (L : Lexer) : Called L L.yylex.1 L.yylex.2 :=
  yylexLoop_called _ L (Nat.lt_succ_self _)

/-! ## The counters -/

/-- The text the counters have seen. -/
def Shown (ps : List Piece) : List Char := (ps.filter (·.action.counted)).flatMap Piece.lexeme

/-- The line of the end of a text, from 1. -/
def lineOf (w : List Char) : Nat := w.count '\n' + 1

/-- The column of the end of a text, from 1. -/
def columnOf (w : List Char) : Nat := (w.reverse.takeWhile (· ≠ '\n')).length + 1

section Counters

variable {w v text : List Char} {p : Piece} {ps qs gap : List Piece} {L L' : Lexer}

@[simp] theorem shown_append : Shown (ps ++ qs) = Shown ps ++ Shown qs := by
  simp [Shown]

theorem shown_of_counted (h : p.action.counted = true) : Shown [p] = p.lexeme := by
  simp [Shown, h]

theorem shown_of_not_counted (h : p.action.counted = false) : Shown [p] = [] := by
  simp [Shown, h]

theorem lineOf_append (h : '\n' ∉ v) : lineOf (w ++ v) = lineOf w := by
  rw [lineOf, List.count_append, List.count_eq_zero_of_not_mem h, Nat.add_zero, lineOf]

theorem columnOf_append (h : '\n' ∉ v) : columnOf (w ++ v) = columnOf w + v.length := by
  have hall : ∀ c ∈ v.reverse, decide (c ≠ '\n') = true := by
    intro c hc
    rw [List.mem_reverse] at hc
    exact decide_eq_true (fun he => h (he ▸ hc))
  rw [columnOf, List.reverse_append, List.takeWhile_append_of_pos hall, List.length_append,
    List.length_reverse, columnOf]
  omega

@[simp] theorem lineOf_newline : lineOf (w ++ ['\n']) = lineOf w + 1 := by
  simp [lineOf]

@[simp] theorem columnOf_newline : columnOf (w ++ ['\n']) = 1 := by
  simp [columnOf]

/-- The counters are at the end of the text `w`. -/
structure Lexer.CountersAt (L : Lexer) (w : List Char) : Prop where
  line : L.yylineno = lineOf w
  column : L.yycolumn = columnOf w

theorem Lexer.CountersAt.apply (h : L.CountersAt w) (hp : nextPiece L.input = some (p, v)) :
    (L.apply p v).CountersAt (w ++ Shown [p]) := by
  have hadvance : p.action.counted = true → p.action ≠ .newline →
      (L.apply p v).yylineno = L.yylineno → (L.apply p v).yycolumn = L.yycolumn + p.lexeme.length →
      (L.apply p v).CountersAt (w ++ Shown [p]) := by
    intro hc hn hl hcol
    have hno := newline_not_mem hp hn (by intro hs; rw [hs] at hc; cases hc)
    rw [shown_of_counted hc]
    refine ⟨?_, ?_⟩
    · rw [hl, h.line, lineOf_append hno]
    · rw [hcol, h.column, columnOf_append hno]
      rfl
  cases ha : p.action with
  | newline =>
      rw [shown_of_counted (by rw [ha]; rfl), newline_lexeme hp ha]
      refine ⟨?_, ?_⟩
      · rw [lineOf_newline, ← h.line]
        simp [Lexer.apply, ha]
      · rw [columnOf_newline]
        simp [Lexer.apply, ha]
  | skip | unknown =>
      rw [shown_of_not_counted (by rw [ha]; rfl), List.append_nil]
      exact ⟨by simpa [Lexer.apply, ha] using h.line, by simpa [Lexer.apply, ha] using h.column⟩
  | advance | token | number | id =>
      exact hadvance (by rw [ha]; rfl) (by rw [ha]; simp) (by simp [Lexer.apply, ha])
        (by simp [Lexer.apply, ha])

theorem Lexer.CountersAt.applyAll (h : L.CountersAt w) (hs : Scanned L.input ps v) :
    (L.applyAll ps v).CountersAt (w ++ Shown ps) := by
  induction ps generalizing L w with
  | nil => simpa [Lexer.applyAll, Shown] using h
  | cons p ps ih =>
      cases hs with
      | cons hp hrest =>
          rw [Lexer.applyAll, ← hrest.text]
          have hstep := ih (h.apply hp) (by rwa [apply_input])
          rwa [List.append_assoc, ← shown_append] at hstep

/-- Without a newline among them the pieces leave the line where it is, and the other way round. -/
theorem lineOf_shown_iff (hs : Scanned w ps v) (u : List Char) :
    lineOf (u ++ Shown ps) = lineOf u ↔ ∀ p ∈ ps, p.action ≠ .newline := by
  induction hs generalizing u with
  | nil => simp [Shown]
  | @cons w v' v p ps hp hrest ih =>
      have hcons : Shown (p :: ps) = Shown [p] ++ Shown ps := by
        rw [← shown_append, List.singleton_append]
      have hmono : ∀ x y : List Char, lineOf x ≤ lineOf (x ++ y) := by
        intro x y
        simp [lineOf, List.count_append]
      rw [hcons, ← List.append_assoc, List.forall_mem_cons]
      by_cases hn : p.action = .newline
      · have hline : lineOf (u ++ Shown [p]) = lineOf u + 1 := by
          rw [shown_of_counted (by rw [hn]; rfl), newline_lexeme hp hn, lineOf_newline]
        -- once past a newline the line cannot come back
        have := hmono (u ++ Shown [p]) (Shown ps)
        simp only [hn, ne_eq, not_true_eq_false, false_and, iff_false]
        omega
      · have hline : lineOf (u ++ Shown [p]) = lineOf u := by
          by_cases hc : p.action.counted = true
          · rw [shown_of_counted hc]
            refine lineOf_append (newline_not_mem hp hn ?_)
            intro hs
            rw [hs] at hc
            cases hc
          · rw [shown_of_not_counted (by simpa using hc), List.append_nil]
        rw [← hline]
        simp only [hn, ne_eq, not_false_eq_true, true_and]
        exact ih _

end Counters

/-! ## Runs of `yylex` -/

/-- The scanner after some calls of `yylex` on a text. -/
inductive Reached (text : List Char) (n : Nat) : Lexer → Prop where
  | init : Reached text n (.init text n)
  | call {L L' : Lexer} {lexed : Lexed} {loc : Location} (hL : Reached text n L)
      (h : yylex L = .ok (lexed, loc, L')) : Reached text n L'

section Runs

variable {text : List Char} {n : Nat} {L L' : Lexer} {lexed : Lexed} {loc : Location}

theorem applyAll_input {ps : List Piece} {v : List Char} (hs : Scanned L.input ps v) :
    (L.applyAll ps v).input = v := by
  induction ps generalizing L with
  | nil => cases hs; rfl
  | cons p ps ih =>
      cases hs with
      | cons hp hrest =>
          rw [Lexer.applyAll, ← hrest.text]
          exact ih (by rwa [apply_input])

/-- How the wrapper uses the call it makes. -/
theorem yylex_ok (h : yylex L = .ok (lexed, loc, L')) :
    L' = L.yylex.2 ∧
      loc = ⟨L.yylineno, L'.yycolumn - L'.yyleng, L'.yylineno, L'.yycolumn⟩ ∧
      (L.yylex.1 = .eof → lexed = .token .tokEof) ∧ (L.yylex.1 = .unknown → lexed = .unknown) := by
  unfold yylex at h
  cases hc : L.yylex.1 with
  | number =>
      simp only [hc] at h
      cases hn : stoi L.yylex.2.yytext with
      | error e => rw [hn] at h; cases h
      | ok v => rw [hn] at h; cases h; exact ⟨rfl, rfl, by simp⟩
  | id | token | eof | unknown =>
      simp only [hc] at h
      cases h
      exact ⟨rfl, rfl, by simp⟩

/-- One call takes separators and one more piece, unless it meets the end of the text. -/
theorem yylex_piece (h : yylex L = .ok (lexed, loc, L')) (hne : lexed ≠ .token .tokEof) :
    ∃ gap p, (∀ q ∈ gap, q.Separates) ∧ ¬ p.Separates ∧ (p.action = .unknown → lexed = .unknown) ∧
      Scanned L.input (gap ++ [p]) L'.input ∧ L' = L.applyAll (gap ++ [p]) L'.input ∧
      L'.yytext = p.lexeme ∧ L'.yyleng = p.lexeme.length := by
  obtain ⟨rfl, _, heof, hunknown⟩ := yylex_ok h
  have hcall := yylex_called L
  generalize L.yylex.1 = code at hcall heof hunknown
  generalize L.yylex.2 = L' at hcall
  cases hcall with
  | eof => exact absurd (heof rfl) hne
  | @piece gap p v code hgap hs hc =>
      have hin : (L.applyAll (gap ++ [p]) v).input = v := applyAll_input hs
      refine ⟨gap, p, hgap, ?_, ?_, by rwa [hin], by rw [hin], ?_, ?_⟩
      · intro hp
        rw [Piece.Separates, hc] at hp
        cases hp
      · intro hp
        rw [hp] at hc
        cases hc
        exact hunknown rfl
      · rw [applyAll_append, Lexer.applyAll, Lexer.applyAll, apply_yytext]
      · rw [applyAll_append, Lexer.applyAll, Lexer.applyAll, apply_yyleng]

/-- Whatever it returns, a call scans the text on and keeps the counters with it. -/
theorem yylex_scanned (h : yylex L = .ok (lexed, loc, L')) :
    ∃ ps, Scanned L.input ps L'.input ∧
      ∀ w, L.CountersAt w → L'.CountersAt (w ++ Shown ps) := by
  obtain ⟨rfl, _⟩ := yylex_ok h
  have hcall := yylex_called L
  generalize L.yylex.1 = code at hcall
  generalize L.yylex.2 = L' at hcall
  cases hcall with
  | @eof gap hgap hs =>
      refine ⟨gap, ?_, fun w hw => ?_⟩
      · show Scanned L.input gap (L.applyAll gap []).input
        rwa [applyAll_input hs]
      · exact ⟨(hw.applyAll hs).line, (hw.applyAll hs).column⟩
  | @piece gap p v code hgap hs hc =>
      exact ⟨_, by rwa [applyAll_input hs], fun w hw => hw.applyAll hs⟩

/-- **The counters.** After any calls they are at the end of what they have seen. -/
theorem Reached.counters (h : Reached text n L) :
    ∃ ps, Scanned text ps L.input ∧ L.CountersAt (Shown ps) := by
  induction h with
  | init => exact ⟨[], .nil, rfl, rfl⟩
  | call _ hcall ih =>
      obtain ⟨ps, hs, hc⟩ := ih
      obtain ⟨qs, hs', hc'⟩ := yylex_scanned hcall
      refine ⟨ps ++ qs, hs.append hs', ?_⟩
      rw [shown_append]
      exact hc' _ hc

end Runs

/-! ## Source lines -/

/-- `source_lines_`: the lines `std::getline` reads. A newline at the end starts no line. -/
def sourceLines : List Char → List (List Char)
  | [] => []
  | c :: cs =>
      if c = '\n' then [] :: sourceLines cs
      else match sourceLines cs with
        | [] => [[c]]
        | line :: lines => (c :: line) :: lines

/-- The characters of a line from column `b`, counted from 1, up to column `e`. -/
def cut (line : List Char) (b e : Int) : List Char := (line.drop (b - 1).toNat).take (e - b).toNat

/-- The location is the place of the lexeme: one line, and the lexeme from column to column of it. -/
def LocationExact (text : List Char) (loc : Location) (lexeme : List Char) : Prop :=
  loc.endLine = loc.beginLine ∧ 1 ≤ loc.beginColumn ∧
    ∃ line, (sourceLines text)[loc.beginLine - 1]? = some line ∧
      cut line loc.beginColumn loc.endColumn = lexeme

/-- The source shows the lexeme at the line and column of the end of `w`. -/
def ShownAt (text w lexeme : List Char) : Prop :=
  ∃ line, (sourceLines text)[lineOf w - 1]? = some line ∧
    (line.drop (columnOf w - 1)).take lexeme.length = lexeme

section Lines

variable {u v w x lexeme : List Char}

theorem sourceLines_newline : sourceLines ('\n' :: v) = [] :: sourceLines v := by simp [sourceLines]

theorem sourceLines_cons {c : Char} (hc : c ≠ '\n') {line : List Char} {lines : List (List Char)}
    (h : sourceLines v = line :: lines) : sourceLines (c :: v) = (c :: line) :: lines := by
  rw [sourceLines, if_neg hc, h]

theorem sourceLines_ne_nil (h : v ≠ []) : sourceLines v ≠ [] := by
  cases v with
  | nil => exact absurd rfl h
  | cons c cs =>
      rw [sourceLines]
      split
      · exact List.cons_ne_nil _ _
      · split <;> exact List.cons_ne_nil _ _

/-- A newline ends a line, whatever comes after it. -/
theorem sourceLines_append_newline :
    sourceLines (u ++ '\n' :: v) = sourceLines (u ++ ['\n']) ++ sourceLines v := by
  induction u with
  | nil => rw [List.nil_append, List.nil_append, sourceLines_newline, sourceLines_newline]; rfl
  | cons c cs ih =>
      rw [List.cons_append, List.cons_append]
      by_cases hc : c = '\n'
      · rw [hc, sourceLines_newline, sourceLines_newline, ih]
        rfl
      · obtain ⟨line, lines, hl⟩ :=
          List.exists_cons_of_ne_nil (sourceLines_ne_nil (v := cs ++ ['\n']) (by simp))
        rw [hl] at ih
        rw [sourceLines_cons hc ih, sourceLines_cons hc hl]
        rfl

theorem sourceLines_length : (sourceLines (u ++ ['\n'])).length = u.count '\n' + 1 := by
  induction u with
  | nil => rfl
  | cons c cs ih =>
      rw [List.cons_append]
      by_cases hc : c = '\n'
      · rw [hc, sourceLines_newline, List.length_cons, ih, List.count_cons_self]
      · obtain ⟨line, lines, hl⟩ :=
          List.exists_cons_of_ne_nil (sourceLines_ne_nil (v := cs ++ ['\n']) (by simp))
        rw [sourceLines_cons hc hl, List.count_cons_of_ne hc, ← ih, hl]
        rfl

/-- What stands before the first newline heads the first line. -/
theorem sourceLines_head (hx : x ≠ []) (hn : '\n' ∉ x) :
    ∃ y lines, sourceLines (x ++ v) = (x ++ y) :: lines := by
  induction x with
  | nil => exact absurd rfl hx
  | cons c cs ih =>
      rw [List.mem_cons, not_or] at hn
      have hc : c ≠ '\n' := fun h => hn.1 h.symm
      by_cases hcs : cs = []
      · subst hcs
        cases hl : sourceLines v with
        | nil => exact ⟨[], [], by simp [sourceLines, hc, hl]⟩
        | cons line lines => exact ⟨line, lines, sourceLines_cons hc hl⟩
      · obtain ⟨y, lines, hl⟩ := ih hcs hn.2
        exact ⟨y, lines, sourceLines_cons hc hl⟩

/-- A text is whole lines and the beginning of one. -/
theorem exists_lines (w : List Char) :
    ∃ u x, w = u ++ x ∧ '\n' ∉ x ∧ (u = [] ∨ ∃ t, u = t ++ ['\n']) := by
  induction w using List.reverseRecOn with
  | nil => exact ⟨[], [], rfl, by simp, .inl rfl⟩
  | append_singleton w c ih =>
      by_cases hc : c = '\n'
      · exact ⟨w ++ ['\n'], [], by rw [hc, List.append_nil], by simp, .inr ⟨w, rfl⟩⟩
      · obtain ⟨u, x, rfl, hx, hu⟩ := ih
        refine ⟨u, x ++ [c], List.append_assoc .., ?_, hu⟩
        rw [List.mem_append, not_or, List.mem_singleton]
        exact ⟨hx, fun h => hc h.symm⟩

/-- The line that a text stops in, where it goes on. -/
theorem sourceLines_at (hx : x ≠ []) (hn : '\n' ∉ x) (hu : u = [] ∨ ∃ t, u = t ++ ['\n']) :
    ∃ y, (sourceLines (u ++ x ++ v))[u.count '\n']? = some (x ++ y) := by
  obtain ⟨y, lines, hl⟩ := sourceLines_head (v := v) hx hn
  refine ⟨y, ?_⟩
  rcases hu with rfl | ⟨t, rfl⟩
  · rw [List.nil_append, hl]
    rfl
  · have hsplit : t ++ ['\n'] ++ x ++ v = t ++ '\n' :: (x ++ v) := by simp
    rw [hsplit, sourceLines_append_newline, hl, List.count_append, List.count_singleton_self,
      ← sourceLines_length, List.getElem?_append_right (Nat.le_refl _), Nat.sub_self]
    rfl

/-- **There is a line for every place with text after it.** -/
theorem lineOf_le (h : v ≠ []) : lineOf w ≤ (sourceLines (w ++ v)).length := by
  obtain ⟨u, x, rfl, hx, hu⟩ := exists_lines w
  rw [lineOf_append hx, lineOf]
  rcases hu with rfl | ⟨t, rfl⟩
  · exact List.length_pos_of_ne_nil (sourceLines_ne_nil (by simp [h]))
  · have hsplit : t ++ ['\n'] ++ x ++ v = t ++ '\n' :: (x ++ v) := by simp
    have hpos := List.length_pos_of_ne_nil (sourceLines_ne_nil (v := x ++ v) (by simp [h]))
    rw [hsplit, sourceLines_append_newline, List.length_append, sourceLines_length,
      List.count_append, List.count_singleton_self]
    omega

/-- A lexeme stands at the end of the text before it. -/
theorem shownAt_self (hl : lexeme ≠ []) (hn : '\n' ∉ lexeme) : ShownAt (w ++ lexeme ++ v) w lexeme := by
  obtain ⟨u, x, rfl, hx, hu⟩ := exists_lines w
  have hxl : x ++ lexeme ≠ [] := by simp [hl]
  have hnl : '\n' ∉ x ++ lexeme := by simp [hx, hn]
  obtain ⟨y, hy⟩ := sourceLines_at (v := v) hxl hnl hu
  have hcol : columnOf (u ++ x) = x.length + 1 := by
    have hbase : columnOf u = 1 := by
      rcases hu with rfl | ⟨t, rfl⟩
      · rfl
      · exact columnOf_newline
    rw [columnOf_append hx, hbase, Nat.add_comm]
  refine ⟨x ++ lexeme ++ y, ?_, ?_⟩
  · have hassoc : u ++ x ++ lexeme ++ v = u ++ (x ++ lexeme) ++ v := by simp
    rw [lineOf_append hx, lineOf, Nat.add_sub_cancel, hassoc, hy]
  · rw [hcol, Nat.add_sub_cancel, List.append_assoc, List.drop_left, List.take_left]

end Lines

/-! ## Exact locations -/

section Exact

variable {text : List Char} {n : Nat} {L L' : Lexer} {t : Token} {loc : Location}

/-- The pieces before a token that keep its place from being what the counters say: `gap` are those of
    its own call, `done` the earlier ones. -/
def WellPlaced (text : List Char) (done gap : List Piece) (lexeme : List Char) : Prop :=
  (∀ p ∈ gap, p.action ≠ .newline) ∧ ShownAt text (Shown (done ++ gap)) lexeme

/-- What a call that returns a token does to the scanner, and the location it builds. -/
theorem token_location (hL : Reached text n L) (h : yylex L = .ok (.token t, loc, L'))
    (ht : t ≠ .tokEof) :
    ∃ done gap p, Scanned text done L.input ∧ Scanned L.input (gap ++ [p]) L'.input ∧
      L'.yytext = p.lexeme ∧
      loc = ⟨lineOf (Shown done), columnOf (Shown (done ++ gap)), lineOf (Shown (done ++ gap)),
        columnOf (Shown (done ++ gap)) + p.lexeme.length⟩ := by
  obtain ⟨done, hdone, hcount⟩ := hL.counters
  obtain ⟨gap, p, _, hp, hknown, hs, hL', htext, hleng⟩ := yylex_piece h (by simp [ht])
  obtain ⟨_, rfl, _⟩ := yylex_ok h
  have hafter := hcount.applyAll hs
  rw [← hL', shown_append, ← List.append_assoc, ← shown_append] at hafter
  -- the token itself is on one line and moves the column by its length
  have hcounted : p.action.counted = true := by
    cases ha : p.action with
    | unknown => cases hknown ha
    | skip => exact absurd (show p.Separates by rw [Piece.Separates, ha]; rfl) hp
    | advance | newline | token | number | id => rfl
  obtain ⟨v, hgap, hlast⟩ := hs.split
  have hpv : nextPiece v = some (p, L'.input) := by
    cases hlast with
    | cons hpv hnil => cases hnil; exact hpv
  have hno : '\n' ∉ p.lexeme := by
    refine newline_not_mem hpv ?_ ?_
    · intro ha
      exact hp (show p.action.code = none by rw [ha]; rfl)
    · intro ha
      exact hp (show p.action.code = none by rw [ha]; rfl)
  rw [shown_of_counted hcounted] at hafter
  refine ⟨done, gap, p, hdone, hs, htext, ?_⟩
  rw [hcount.line, hafter.line, hafter.column, hleng, lineOf_append hno, columnOf_append hno]
  simp only [Location.mk.injEq, true_and]
  omega

/-- **When a location is exact.** -/
theorem location_exact_iff (hL : Reached text n L) (h : yylex L = .ok (.token t, loc, L'))
    (ht : t ≠ .tokEof) :
    LocationExact text loc L'.yytext ↔ ∃ done gap p, Scanned text done L.input ∧
      Scanned L.input (gap ++ [p]) L'.input ∧ WellPlaced text done gap p.lexeme := by
  obtain ⟨done, gap, p, hdone, hs, htext, rfl⟩ := token_location hL h ht
  obtain ⟨v, hgap, _⟩ := hs.split
  -- the scan decides the pieces, so that there is only one place to speak of
  have hplaced : (∃ done gap p, Scanned text done L.input ∧ Scanned L.input (gap ++ [p]) L'.input ∧
      WellPlaced text done gap p.lexeme) ↔ WellPlaced text done gap p.lexeme := by
    constructor
    · rintro ⟨done', gap', p', hdone', hs', hw⟩
      obtain rfl := hdone.unique hdone'
      obtain ⟨rfl, hp⟩ := List.append_inj' (hs.unique hs') rfl
      cases hp
      exact hw
    · exact fun hw => ⟨done, gap, p, hdone, hs, hw⟩
  have hline : lineOf (Shown (done ++ gap)) = lineOf (Shown done) ↔ ∀ q ∈ gap, q.action ≠ .newline := by
    rw [shown_append]
    exact lineOf_shown_iff hgap _
  have hcol : 1 ≤ columnOf (Shown (done ++ gap)) := Nat.le_add_left 1 _
  have hcut : ∀ line, cut line (columnOf (Shown (done ++ gap)))
      (columnOf (Shown (done ++ gap)) + p.lexeme.length) =
        (line.drop (columnOf (Shown (done ++ gap)) - 1)).take p.lexeme.length := by
    intro line
    unfold cut
    congr 1
    · omega
    · congr 1
      omega
  rw [hplaced, WellPlaced, ← hline, LocationExact, ShownAt, htext]
  simp only [hcut]
  constructor
  · rintro ⟨he, _, line, hl, hc⟩
    exact ⟨he, line, by rw [he]; exact hl, hc⟩
  · rintro ⟨he, line, hl, hc⟩
    exact ⟨he, by exact_mod_cast hcol, line, by rw [← he]; exact hl, hc⟩

/-- The number in `a = 12;`, after two calls. -/
theorem location_exact_iff_number :
    LocationExact "a = 12;".toList ⟨1, 5, 1, 7⟩ ['1', '2'] ∧
      ∃ done gap p, Scanned "a = 12;".toList done " 12;".toList ∧
        Scanned " 12;".toList (gap ++ [p]) [';'] ∧ WellPlaced "a = 12;".toList done gap p.lexeme := by
  have hfirst : Reached "a = 12;".toList 0 ⟨" = 12;".toList, ['a'], 1, 1, 2, 0⟩ := .call .init rfl
  have hsecond : Reached "a = 12;".toList 0 ⟨" 12;".toList, ['='], 1, 1, 4, 0⟩ := .call hfirst rfl
  have hexact : LocationExact "a = 12;".toList ⟨1, 5, 1, 7⟩ ['1', '2'] :=
    ⟨rfl, by decide, "a = 12;".toList, rfl, rfl⟩
  have hnumber : yylex ⟨" 12;".toList, ['='], 1, 1, 4, 0⟩ =
      .ok (.token (.tokNumber 12), ⟨1, 5, 1, 7⟩, ⟨[';'], ['1', '2'], 2, 1, 7, 0⟩) := rfl
  exact ⟨hexact, (location_exact_iff hsecond hnumber (by simp)).mp hexact⟩

/-- The second token of two lines is said to be on the first one. -/
theorem location_not_exact : ¬ ∀ (text : List Char) (n : Nat) (L L' : Lexer) (t : Token)
    (loc : Location), Reached text n L → yylex L = .ok (.token t, loc, L') → t ≠ .tokEof →
      LocationExact text loc L'.yytext := by
  intro hall
  have hfirst : Reached [';', '\n', ';'] 0 ⟨['\n', ';'], [';'], 1, 1, 2, 0⟩ :=
    .call .init rfl
  have hexact := hall _ 0 _ ⟨[], [';'], 1, 2, 2, 0⟩ .tokSemicolon ⟨1, 1, 2, 2⟩ hfirst rfl (by simp)
  cases hexact.1

/-- Without block comments and unexpected characters only a skipped newline can spoil a location. -/
theorem wellPlaced_of_counted {done gap : List Piece} {p : Piece} {w v : List Char}
    (hdone : Scanned text (done ++ gap) w) (hp : nextPiece w = some (p, v)) (hn : '\n' ∉ p.lexeme)
    (hgap : ∀ q ∈ gap, q.action ≠ .newline) (hall : ∀ q ∈ done ++ gap, q.action.counted = true) :
    WellPlaced text done gap p.lexeme := by
  refine ⟨hgap, ?_⟩
  have hshown : Shown (done ++ gap) = (done ++ gap).flatMap Piece.lexeme := by
    rw [Shown, List.filter_eq_self.mpr hall]
  have htext : text = Shown (done ++ gap) ++ p.lexeme ++ v := by
    rw [hshown, List.append_assoc, ← nextPiece_text hp]
    exact hdone.text
  have hself := shownAt_self (w := Shown (done ++ gap)) (v := v) (lexeme_ne_nil hp) hn
  rwa [← htext] at hself

end Exact

end ParaCL
