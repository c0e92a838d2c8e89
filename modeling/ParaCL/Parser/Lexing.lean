import ParaCL.Parser.Scanning

/-!
# `Parser.Lexing` — what the calls of `yylex` hand out

A call takes the separators before it and one more piece, or meets the end of the text. What it returns is
a function of that piece (`yylex_of_piece`), so that the tokens of any number of calls are those of the
pieces the text is cut into (`tokensOf`).
-/

namespace ParaCL

open Lib

/-- What a piece is handed out as. Separators are not. -/
def Piece.lexed (p : Piece) : Except Escape Lexed :=
  match p.action with
  | .token t => .ok (.token t)
  | .number => (stoi p.lexeme).map (fun n => .token (.tokNumber n))
  | .id => .ok (.token (.tokId (String.ofList p.lexeme)))
  | .unknown | .advance | .newline | .skip => .ok .unknown

/-- The tokens of a text's pieces, if every piece is a separator or a token. -/
def tokensOf : List Piece → Option (List Token)
  | [] => some []
  | p :: ps =>
      if p.Separates then tokensOf ps
      else match p.lexed with
        | .ok (.token t) => (tokensOf ps).map (t :: ·)
        | _ => none

/-! ## One call -/

section Call

variable {L L' : Lexer} {gap gap' : List Piece} {p q : Piece} {v u w : List Char} {lexed : Lexed}
  {loc : Location}

/-- The location a call stores. -/
def locationOf (L L' : Lexer) : Location :=
  ⟨L.yylineno, L'.yycolumn - L'.yyleng, L'.yylineno, L'.yycolumn⟩

/-- A call either reads to the end of the text or stops at a piece. -/
inductive CallTakes (L : Lexer) : Prop where
  | eof {gap : List Piece} (hgap : ∀ p ∈ gap, p.Separates) (hs : Scanned L.input gap [])
  | piece {gap : List Piece} {p : Piece} {v : List Char} (hgap : ∀ p ∈ gap, p.Separates)
      (hp : ¬ p.Separates) (hs : Scanned L.input (gap ++ [p]) v)

theorem callTakes (L : Lexer) : CallTakes L := by
  have hcall := yylex_called L
  generalize L.yylex.1 = code at hcall
  generalize L.yylex.2 = L' at hcall
  cases hcall with
  | eof hgap hs => exact .eof hgap hs
  | piece hgap hs hc =>
      refine .piece hgap (fun hp => ?_) hs
      rw [Piece.Separates, hc] at hp
      cases hp

/-- The first pieces that are no separators coincide. -/
theorem gap_unique {ps qs : List Piece} (hgap : ∀ g ∈ gap, g.Separates)
    (hgap' : ∀ g ∈ gap', g.Separates) (hp : ¬ p.Separates) (hq : ¬ q.Separates)
    (h : gap ++ p :: ps = gap' ++ q :: qs) : gap = gap' ∧ p = q ∧ ps = qs := by
  induction gap generalizing gap' with
  | nil =>
      cases gap' with
      | nil => cases h; exact ⟨rfl, rfl, rfl⟩
      | cons g gap' =>
          cases h
          exact absurd (hgap' _ (List.mem_cons_self ..)) hp
  | cons g gap ih =>
      cases gap' with
      | nil =>
          cases h
          exact absurd (hgap _ (List.mem_cons_self ..)) hq
      | cons g' gap' =>
          injection h with hg h
          obtain ⟨rfl, hpq⟩ := ih (fun x hx => hgap x (List.mem_cons_of_mem _ hx))
            (fun x hx => hgap' x (List.mem_cons_of_mem _ hx)) h
          exact ⟨by rw [hg], hpq⟩

/-- Two scans to a first piece that is no separator are one. -/
theorem first_piece_unique (hgap : ∀ g ∈ gap, g.Separates) (hgap' : ∀ g ∈ gap', g.Separates)
    (hp : ¬ p.Separates) (hq : ¬ q.Separates) (h : Scanned w (gap ++ [p]) v)
    (h' : Scanned w (gap' ++ [q]) u) : gap = gap' ∧ p = q ∧ v = u := by
  rcases h.compare h' with ⟨rs, he, hr⟩ | ⟨rs, he, hr⟩ <;>
  · rw [List.append_assoc] at he
    obtain ⟨rfl, rfl, hrs⟩ := gap_unique (by assumption) (by assumption) (by assumption)
      (by assumption) he
    obtain rfl : rs = [] := hrs.symm
    cases hr
    exact ⟨rfl, rfl, rfl⟩

/-- A text of separators has no other piece. -/
theorem not_piece_of_eof (hgap : ∀ g ∈ gap, g.Separates) (h : Scanned w gap []) (hp : ¬ p.Separates)
    (h' : Scanned w (gap' ++ [p]) v) : False := by
  have hmem : p ∈ gap := by
    rcases h'.compare h with ⟨rs, rfl, _⟩ | ⟨rs, he, hr⟩
    · simp
    · cases hr with
      | nil =>
          rw [List.append_nil] at he
          rw [← he]
          simp
      | cons hn => exact absurd (nextPiece_eq_none.mpr rfl) (by rw [hn]; exact Option.some_ne_none _)
  exact hp (hgap p hmem)

/-- **A call that stops at a piece** hands it out. -/
theorem yylex_of_piece (hgap : ∀ g ∈ gap, g.Separates) (hp : ¬ p.Separates)
    (hs : Scanned L.input (gap ++ [p]) v) :
    yylex L = p.lexed.map (fun lexed =>
      (lexed, locationOf L (L.applyAll (gap ++ [p]) v), L.applyAll (gap ++ [p]) v)) := by
  obtain ⟨code, hcode⟩ := Option.ne_none_iff_exists'.mp hp
  have hyylex : L.yylex = (code, L.applyAll (gap ++ [p]) v) := by
    have hcall := yylex_called L
    generalize hc : L.yylex.1 = code' at hcall
    generalize hL : L.yylex.2 = L' at hcall
    cases hcall with
    | eof hgap' hs' => exact absurd hs (fun h => not_piece_of_eof hgap' hs' hp h)
    | @piece gap' q u _ hgap' hs' hq =>
        have hq' : ¬ q.Separates := by
          intro hn
          rw [Piece.Separates, hq] at hn
          cases hn
        -- both readings skip separators up to the first piece that is none
        obtain ⟨rfl, rfl, rfl⟩ := first_piece_unique hgap' hgap hq' hp hs' hs
        rw [hq] at hcode
        cases hcode
        exact Prod.ext hc hL
  have htext : (L.applyAll (gap ++ [p]) v).yytext = p.lexeme := by
    rw [applyAll_append, Lexer.applyAll, Lexer.applyAll, apply_yytext]
  unfold yylex
  rw [hyylex]
  simp only [htext]
  unfold Piece.lexed
  cases ha : p.action with
  | number =>
      rw [ha] at hcode
      cases hcode
      cases stoi p.lexeme <;> rfl
  | token | id | unknown =>
      rw [ha] at hcode
      cases hcode
      rfl
  | advance | newline | skip => rw [ha] at hcode; cases hcode

/-- **A call that meets the end of the text.** -/
theorem yylex_of_eof (hgap : ∀ g ∈ gap, g.Separates) (hs : Scanned L.input gap []) :
    ∃ L', yylex L = .ok (.token .tokEof, locationOf L L', L') ∧ L'.input = [] := by
  have hcall : L.yylex.1 = .eof ∧ L.yylex.2.input = [] := by
    have hcall := yylex_called L
    generalize L.yylex.1 = code at hcall
    generalize L.yylex.2 = L' at hcall
    cases hcall with
    | eof _ hs' => exact ⟨rfl, applyAll_input hs'⟩
    | @piece gap' q u _ hgap' hs' hq =>
        refine absurd hs' (fun h => not_piece_of_eof hgap hs ?_ h)
        intro hn
        rw [Piece.Separates, hq] at hn
        cases hn
  refine ⟨L.yylex.2, ?_, hcall.2⟩
  unfold yylex
  rw [show L.yylex = (.eof, L.yylex.2) from Prod.ext hcall.1 rfl]
  rfl

end Call

/-! ## The tokens of a text -/

section Tokens

variable {gap ps qs : List Piece} {p : Piece} {t : Token} {ts us : List Token}

theorem tokensOf_separator (hp : p.Separates) : tokensOf (p :: ps) = tokensOf ps := by
  rw [tokensOf, if_pos hp]

theorem tokensOf_token (hp : ¬ p.Separates) (ht : p.lexed = .ok (.token t)) :
    tokensOf (p :: ps) = (tokensOf ps).map (t :: ·) := by
  rw [tokensOf, if_neg hp, ht]

theorem tokensOf_gap (hgap : ∀ g ∈ gap, g.Separates) : tokensOf (gap ++ ps) = tokensOf ps := by
  induction gap with
  | nil => rfl
  | cons g gap ih =>
      rw [List.cons_append, tokensOf_separator (hgap g (List.mem_cons_self ..))]
      exact ih (fun x hx => hgap x (List.mem_cons_of_mem _ hx))

theorem tokensOf_cons (h : tokensOf (p :: ps) = some ts) :
    (p.Separates ∧ tokensOf ps = some ts) ∨
      (¬ p.Separates ∧ ∃ t us, p.lexed = .ok (.token t) ∧ tokensOf ps = some us ∧ ts = t :: us) := by
  rw [tokensOf] at h
  split at h
  · exact .inl ⟨‹_›, h⟩
  · split at h
    · rename_i t ht
      obtain ⟨us, hus, rfl⟩ := Option.map_eq_some_iff.mp h
      exact .inr ⟨‹_›, t, us, ht, hus, rfl⟩
    · cases h

theorem tokensOf_append (h : tokensOf ps = some ts) :
    tokensOf (ps ++ qs) = (tokensOf qs).map (ts ++ ·) := by
  induction ps generalizing ts with
  | nil =>
      cases h
      simp
  | cons p ps ih =>
      rcases tokensOf_cons h with ⟨hp, hps⟩ | ⟨hp, t, us, ht, hps, rfl⟩
      · rw [List.cons_append, tokensOf_separator hp, ih hps]
      · rw [List.cons_append, tokensOf_token hp ht, ih hps, Option.map_map]
        rfl

/-- Only separators. -/
theorem separates_of_tokensOf_nil (h : tokensOf ps = some []) : ∀ p ∈ ps, p.Separates := by
  induction ps with
  | nil => intro p hp; cases hp
  | cons p ps ih =>
      rcases tokensOf_cons h with ⟨hp, h⟩ | ⟨_, _, _, _, _, h⟩
      · intro q hq
        rcases List.mem_cons.mp hq with rfl | hq
        · exact hp
        · exact ih h q hq
      · cases h

/-- The first token and the pieces around it. -/
theorem tokensOf_first (h : tokensOf ps = some (t :: ts)) :
    ∃ gap p qs, ps = gap ++ p :: qs ∧ (∀ g ∈ gap, g.Separates) ∧ ¬ p.Separates ∧
      p.lexed = .ok (.token t) ∧ tokensOf qs = some ts := by
  induction ps with
  | nil => cases h
  | cons p ps ih =>
      rcases tokensOf_cons h with ⟨hp, h⟩ | ⟨hp, _, _, ht, h, he⟩
      · obtain ⟨gap, q, qs, rfl, hgap, hq⟩ := ih h
        refine ⟨p :: gap, q, qs, rfl, ?_, hq⟩
        intro x hx
        rcases List.mem_cons.mp hx with rfl | hx
        · exact hp
        · exact hgap x hx
      · cases he
        exact ⟨[], p, ps, rfl, by simp, hp, ht, h⟩

/-- An unexpected character is no token. -/
theorem tokensOf_unknown (hp : p ∈ ps) (hu : p.action = .unknown) : tokensOf ps = none := by
  cases h : tokensOf ps with
  | none => rfl
  | some ts =>
      exfalso
      induction ps generalizing ts with
      | nil => cases hp
      | cons q ps ih =>
          rcases tokensOf_cons h with ⟨hq, h⟩ | ⟨_, t, us, ht, h, _⟩ <;>
            rcases List.mem_cons.mp hp with rfl | hp
          · rw [Piece.Separates, hu] at hq
            cases hq
          · exact ih hp _ h
          · rw [Piece.lexed, hu] at ht
            cases ht
          · exact ih hp _ h

end Tokens

end ParaCL
