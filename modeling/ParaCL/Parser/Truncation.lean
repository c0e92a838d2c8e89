import ParaCL.Parser.Acceptance
import ParaCL.Parser.Lexing

/-!
# `Parser.Truncation` — which texts the driver goes on with

The driver runs or compiles what the parser built when `parse` returns 0 and no error was collected. An
unexpected character is handed to the parser as -1, which Bison takes for the end of the input, so that a
text is also accepted when the tokens before such a character are a program and no token follows it.
-/

namespace ParaCL

open Lib Bison

/-- The driver goes on to the simulator or the code generator. -/
def GoesOn (describe : List Terminal → Terminal → String) (text : List Char) (n : Nat) : Prop :=
  ∃ c, Ends (parseStep yylex describe) (parseStart text n) c .accept ∧ c.state.hasErrors = false

/-- The text, up to its end, is cut into separators and tokens, and `program` derives the tokens. -/
def WholeText (text : List Char) : Prop :=
  ∃ ps ts ss s, Scanned text ps [] ∧ tokensOf ps = some ts ∧
    Derives false .program (ts ++ [.tokEof]) .init ss s

/-- The tokens are a program without an error. -/
def ErrorFree (ts : List Token) : Prop :=
  ∃ ss s, Derives false .program (ts ++ [.tokEof]) .init ss s ∧ s.errors = []

/-- After some separators comes a token. -/
def TokenNext (text : List Char) : Prop :=
  ∃ gap p v, (∀ g ∈ gap, g.Separates) ∧ ¬ p.Separates ∧ p.action ≠ .unknown ∧
    Scanned text (gap ++ [p]) v

section Calls

variable {describe : List Terminal → Terminal → String} {L L' : Lexer} {text v : List Char}
  {ps gap : List Piece} {p : Piece} {ts : List Token} {n : Nat}

theorem parser_lex {lexed : Lexed} {loc : Location} (h : yylex L = .ok (lexed, loc, L')) :
    (parserActions yylex describe).lex L = .ok (translate lexed loc, L') :=
  parser_lex_eq.mpr ⟨lexed, loc, h, rfl⟩

/-- The tokens of a text's pieces are handed out one after the other. -/
theorem delivers_of_scanned (hs : Scanned L.input ps v) (ht : tokensOf ps = some ts) :
    ∃ lts L' gap, Delivers (parserActions yylex describe) L lts L' ∧ Located lts ts ∧
      (∀ g ∈ gap, g.Separates) ∧ Scanned L'.input gap v := by
  induction ts generalizing L ps with
  | nil => exact ⟨[], L, ps, .nil, located_nil.mpr rfl, separates_of_tokensOf_nil ht, hs⟩
  | cons t ts ih =>
      obtain ⟨gap, p, qs, rfl, hgap, hp, hlexed, hqs⟩ := tokensOf_first ht
      rw [List.append_cons] at hs
      obtain ⟨u, hs1, hs2⟩ := hs.split
      have hcall := yylex_of_piece hgap hp hs1
      rw [hlexed] at hcall
      obtain ⟨lts, L', gap', hdel, hloc, hgap', hs'⟩ :=
        ih (L := L.applyAll (gap ++ [p]) u) (by rwa [applyAll_input hs1]) hqs
      exact ⟨_, L', gap', .cons (parser_lex hcall) hdel, located_cons.mpr ⟨_, lts, rfl, hloc⟩, hgap', hs'⟩

/-- What a call that returned has scanned. -/
theorem scanned_of_yylex {lexed : Lexed} {loc : Location} (h : yylex L = .ok (lexed, loc, L')) :
    (∃ gap, (∀ g ∈ gap, g.Separates) ∧ Scanned L.input gap [] ∧ lexed = .token .tokEof ∧
        L'.input = []) ∨
      ∃ gap p, (∀ g ∈ gap, g.Separates) ∧ ¬ p.Separates ∧ Scanned L.input (gap ++ [p]) L'.input ∧
        p.lexed = .ok lexed := by
  cases callTakes L with
  | @eof gap hgap hs =>
      obtain ⟨L1, hcall, hin⟩ := yylex_of_eof hgap hs
      rw [hcall] at h
      cases h
      exact .inl ⟨gap, hgap, hs, rfl, hin⟩
  | @piece gap p v hgap hp hs =>
      rw [yylex_of_piece hgap hp hs] at h
      have hin : (L.applyAll (gap ++ [p]) v).input = v := applyAll_input hs
      cases hl : p.lexed with
      | error e => rw [hl] at h; cases h
      | ok lexed' =>
          rw [hl] at h
          cases h
          exact .inr ⟨gap, p, hgap, hp, by rwa [hin], hl⟩

/-- A call that hands out a token has scanned to its piece. -/
theorem piece_of_lex {t : Token} {loc : Location} (ht : t ≠ .tokEof)
    (h : (parserActions yylex describe).lex L = .ok ((t.terminal, .token t loc), L')) :
    ∃ gap p, (∀ g ∈ gap, g.Separates) ∧ ¬ p.Separates ∧ p.lexed = .ok (.token t) ∧
      Scanned L.input (gap ++ [p]) L'.input := by
  obtain ⟨lexed, loc', hcall, htok⟩ := parser_lex_eq.mp h
  have hlexed : lexed = .token t := by
    cases lexed with
    | token u =>
        simp only [translate, Prod.mk.injEq, SemanticValue.token.injEq] at htok
        rw [htok.2.1]
    | unknown =>
        simp only [translate, Prod.mk.injEq, SemanticValue.token.injEq] at htok
        exact absurd htok.2.1.symm ht
  subst hlexed
  rcases scanned_of_yylex hcall with ⟨_, _, _, he, _⟩ | ⟨gap, p, hgap, hp, hs, hl⟩
  · cases he
    exact absurd rfl ht
  · exact ⟨gap, p, hgap, hp, hl, hs⟩

theorem scanned_of_delivers {lts : List (Terminal × SemanticValue)}
    (hdel : Delivers (parserActions yylex describe) L lts L') (hloc : Located lts ts)
    (heof : .tokEof ∉ ts) : ∃ ps, Scanned L.input ps L'.input ∧ tokensOf ps = some ts := by
  induction hdel generalizing ts with
  | nil =>
      cases ts with
      | nil => exact ⟨[], .nil, rfl⟩
      | cons t ts =>
          obtain ⟨_, _, h, _⟩ := located_cons.mp hloc
          cases h
  | @cons L L1 L' tok lts hlex _ ih =>
      cases ts with
      | nil => cases located_nil.mp hloc
      | cons t ts =>
          obtain ⟨loc, rest, he, hrest⟩ := located_cons.mp hloc
          cases he
          rw [List.mem_cons, not_or] at heof
          obtain ⟨gap, p, hgap, hp, hlexed, hs⟩ := piece_of_lex (Ne.symm heof.1) hlex
          obtain ⟨ps, hs', hps⟩ := ih hrest heof.2
          refine ⟨gap ++ [p] ++ ps, hs.append hs', ?_⟩
          rw [List.append_assoc, tokensOf_gap hgap, List.singleton_append, tokensOf_token hp hlexed, hps]
          rfl

theorem lexerRules_not_eof : ∀ rule ∈ lexerRules, rule.action ≠ .token .tokEof := by
  simp [lexerRules, fixedTokens, fixedRule]

/-- No piece is handed out as the end of the input. -/
theorem lexed_ne_eof (h : Scanned text (ps ++ [p]) v) : p.lexed ≠ .ok (.token .tokEof) := by
  obtain ⟨u, _, hs⟩ := h.split
  cases hs with
  | cons hp _ =>
      obtain ⟨_, rule, hr, ha, _⟩ := nextPiece_rule hp
      have hne := lexerRules_not_eof rule hr
      intro hl
      unfold Piece.lexed at hl
      cases hact : p.action with
      | token t =>
          rw [hact] at hl
          cases hl
          exact hne (ha.trans hact)
      | number =>
          rw [hact] at hl
          cases hn : stoi p.lexeme with
          | error e => simp [hn, Except.map] at hl
          | ok n => simp [hn, Except.map] at hl
      | _ => rw [hact] at hl; cases hl

/-- What the parser takes for the end of the input: the end of the text, or an unexpected character. -/
theorem end_of_lex {w : SemanticValue}
    (h : (parserActions yylex describe).lex L = .ok ((.tokEof, w), L')) :
    ∃ gap, (∀ g ∈ gap, g.Separates) ∧
      (Scanned L.input gap [] ∨ ∃ p, p.action = .unknown ∧ Scanned L.input (gap ++ [p]) L'.input) := by
  obtain ⟨lexed, loc, hcall, htok⟩ := parser_lex_eq.mp h
  rcases scanned_of_yylex hcall with ⟨gap, hgap, hs, _⟩ | ⟨gap, p, hgap, hp, hs, hl⟩
  · exact ⟨gap, hgap, .inl hs⟩
  · refine ⟨gap, hgap, .inr ⟨p, ?_, hs⟩⟩
    cases lexed with
    | token t =>
        have ht : t.terminal = .tokEof := (Prod.mk.inj htok).1
        obtain rfl := plain_token ht rfl
        exact absurd hl (lexed_ne_eof hs)
    | unknown =>
        unfold Piece.lexed at hl
        unfold Piece.Separates at hp
        cases hact : p.action with
        | unknown => rfl
        | number =>
            rw [hact] at hl
            cases hn : stoi p.lexeme with
            | error e => simp [hn, Except.map] at hl
            | ok n => simp [hn, Except.map] at hl
        | token | id => rw [hact] at hl; cases hl
        | advance | newline | skip => rw [hact] at hp; exact absurd rfl hp

end Calls

/-! ## The end of the input in a derivation -/

theorem operators_ne_eof {l : Level} {t : Token} {op : BinaryOperators} (h : (t, op) ∈ l.operators) :
    .tokEof ≠ t := by
  have hall : ∀ p ∈ l.operators, Token.tokEof ≠ p.1 := by cases l <;> decide
  exact hall _ h

theorem unaryOperators_ne_eof {t : Token} {op : UnaryOperators} (h : (t, op) ∈ unaryOperators) :
    .tokEof ≠ t := by
  have hall : ∀ p ∈ unaryOperators, Token.tokEof ≠ p.1 := by decide
  exact hall _ h

/-- Only `program` has the end of the input. -/
theorem Derives.eof_not_mem {N : Nonterminal} {ts : List Token} {s s' : ParserState} {v : N.Value}
    (h : Derives false N ts s v s') : N = .program ∨ .tokEof ∉ ts := by
  induction h with
  | program => exact .inl rfl
  | levelOperator hm hop _ _ iha ihb => simpa [operators_ne_eof hop] using And.intro iha ihb
  | unaryOperator hop _ ih => simpa [unaryOperators_ne_eof hop] using ih
  | _ => simp_all

theorem Derives.program_inv {ts : List Token} {s s' : ParserState} {ss : List (Option Statement)}
    (h : Derives false .program ts s ss s') : ∃ us, ts = us ++ [.tokEof] ∧ .tokEof ∉ us := by
  cases h with
  | program h =>
      rcases h.eof_not_mem with hN | hno
      · cases hN
      · exact ⟨_, rfl, hno⟩

/-! ## Acceptance of texts -/

section Texts

variable {describe : List Terminal → Terminal → String} {text rest : List Char} {n : Nat}
  {ps : List Piece} {p : Piece} {ts : List Token}

theorem clean_iff {s : MyParser} : s.hasErrors = false ↔ s.Clean := by
  simp [MyParser.hasErrors, MyParser.Clean]

/-- What the lexer hands out when the driver goes on. -/
theorem goesOn_iff : GoesOn describe text n ↔
    ∃ lts ts w1 w2 L', Delivers (parserActions yylex describe) (.init text n)
        (lts ++ [(.tokEof, w1), (.tokEof, w2)]) L' ∧
      Located lts ts ∧ .tokEof ∉ ts ∧ ErrorFree ts := by
  constructor
  · rintro ⟨c, hends, hc⟩
    obtain ⟨all, us, w, _, ss, L', hdel, hloc, hd, _⟩ := derives_of_accepts hends (clean_iff.mp hc)
    obtain ⟨ts, rfl, hno⟩ := hd.program_inv
    obtain ⟨lts, last, rfl, hlts, hlast⟩ := located_append.mp hloc
    obtain ⟨loc, _, rfl, hnil⟩ := located_cons.mp hlast
    obtain rfl := located_nil.mp hnil
    refine ⟨lts, ts, _, w, L', by rwa [List.append_assoc] at hdel, hlts, hno, ss, _, hd, ?_⟩
    show c.state.errors.map ErrorInfo.error = []
    rw [clean_iff.mp hc]
    rfl
  · rintro ⟨lts, ts, w1, w2, L', hdel, hlts, _, ss, s, hd, he⟩
    -- the last value is the end of the input with some location
    obtain ⟨t, loc, htok⟩ := delivers_proper hdel (.tokEof, w1) (by simp)
    obtain ⟨ht, rfl⟩ := Prod.mk.inj htok
    obtain rfl := plain_token ht.symm rfl
    have hloc : Located (lts ++ [(.tokEof, .token .tokEof loc)]) (ts ++ [.tokEof]) :=
      located_append.mpr ⟨lts, _, rfl, hlts, located_cons.mpr ⟨loc, [], rfl, located_nil.mpr rfl⟩⟩
    rw [List.append_cons] at hdel
    obtain ⟨c, hends, hc, _⟩ := accepts_of_derives (s := .init text) hd hloc hdel
    have herrors : c.state.errors.map ErrorInfo.error = [] := by
      show c.state.core.errors = []
      rw [hc]
      exact he
    exact ⟨c, hends, clean_iff.mpr (List.map_eq_nil_iff.mp herrors)⟩

/-- Every unexpected character with a program before it has a token after it. -/
def NothingCut (text : List Char) : Prop :=
  ∀ ps p rest ts, Scanned text (ps ++ [p]) rest → p.action = .unknown → tokensOf ps = some ts →
    ErrorFree ts → TokenNext rest

/-- After the separators comes one piece only. -/
theorem not_tokenNext_of_end {w : SemanticValue} {L L' : Lexer} (hin : L.input = rest)
    (h : (parserActions yylex describe).lex L = .ok ((.tokEof, w), L')) : ¬ TokenNext rest := by
  rintro ⟨gap, q, v, hgap, hq, hne, hs⟩
  rw [← hin] at hs
  obtain ⟨gap', hgap', hs' | ⟨p, hp, hs'⟩⟩ := end_of_lex h
  · exact not_piece_of_eof hgap' hs' hq hs
  · have hps : ¬ p.Separates := by
      rw [Piece.Separates, hp]
      exact Option.some_ne_none _
    obtain ⟨_, rfl, _⟩ := first_piece_unique hgap hgap' hq hps hs hs'
    exact hne hp

/-- Where no token is next the parser is handed an end of input. -/
theorem end_of_not_tokenNext {L : Lexer} (h : ¬ TokenNext L.input) :
    ∃ w L', (parserActions yylex describe).lex L = .ok ((.tokEof, w), L') := by
  cases callTakes L with
  | eof hgap hs =>
      obtain ⟨L', hcall, _⟩ := yylex_of_eof hgap hs
      exact ⟨_, _, parser_lex hcall⟩
  | @piece gap p v hgap hp hs =>
      have hu : p.action = .unknown := by
        by_contra hne
        exact h ⟨gap, p, v, hgap, hp, hne, hs⟩
      have hcall := yylex_of_piece hgap hp hs
      rw [show p.lexed = .ok .unknown by rw [Piece.lexed, hu]] at hcall
      exact ⟨_, _, parser_lex hcall⟩

/-- A scan of the whole text goes through every piece. -/
theorem Scanned.mem_of_whole {qs : List Piece} (h : Scanned text (ps ++ [p]) rest)
    (hw : Scanned text qs []) : p ∈ qs := by
  rcases h.compare hw with ⟨rs, rfl, _⟩ | ⟨rs, he, hr⟩
  · simp
  · have hnil : rs = [] := by
      cases hr with
      | nil => rfl
      | cons hn _ => rw [nextPiece_eq_none.mpr rfl] at hn; cases hn
    rw [hnil, List.append_nil] at he
    rw [← he]
    simp

/-- **No silent truncation.** The driver goes on only with whole texts exactly where no unexpected
    character cuts off the rest of a text. -/
theorem truncation_iff (describe : List Terminal → Terminal → String) (text : List Char) (n : Nat) :
    (GoesOn describe text n → WholeText text) ↔ NothingCut text := by
  constructor
  · intro hwhole ps p rest ts hs hu ht hfree
    -- the lexer takes the unexpected character for the end of the text, so the driver goes on
    by_contra hno
    obtain ⟨v, hps, hp⟩ := hs.split
    obtain ⟨lts, L1, gap, hdel, hlts, hgap, hgaps⟩ :=
      delivers_of_scanned (L := .init text n) hps ht
    have hsep : ¬ p.Separates := by
      rw [Piece.Separates, hu]
      exact Option.some_ne_none _
    have hend1 := yylex_of_piece hgap hsep (hgaps.append hp)
    rw [show p.lexed = .ok .unknown by rw [Piece.lexed, hu]] at hend1
    have hin : (L1.applyAll (gap ++ [p]) rest).input = rest := applyAll_input (hgaps.append hp)
    obtain ⟨w2, L2, hend2⟩ := end_of_not_tokenNext (hin ▸ hno)
    have heof : .tokEof ∉ ts := by
      obtain ⟨_, _, hd, _⟩ := hfree
      obtain ⟨us, he, hno⟩ := hd.program_inv
      exact (List.append_inj' he rfl).1 ▸ hno
    -- but the whole text does not lex, as the character is in it
    obtain ⟨qs, us, _, _, hqs, hus, _⟩ := hwhole (goesOn_iff.mpr ⟨lts, ts, _, w2, L2,
      hdel.append (.cons (parser_lex hend1) (.cons hend2 .nil)), hlts, heof, hfree⟩)
    rw [tokensOf_unknown (hs.mem_of_whole hqs) hu] at hus
    cases hus
  · intro hcut hgo
    obtain ⟨lts, ts, w1, w2, L', hdel, hlts, heof, hfree⟩ := goesOn_iff.mp hgo
    obtain ⟨L1, hdel1, hends⟩ := hdel.split
    obtain ⟨ps, hps, ht⟩ := scanned_of_delivers hdel1 hlts heof
    -- what ended the tokens is the end of the text or an unexpected character
    cases hends with
    | @cons _ L2 _ _ _ h1 hrest =>
        cases hrest with
        | cons h2 =>
            obtain ⟨gap, hgap, hs | ⟨p, hp, hs⟩⟩ := end_of_lex h1
            · obtain ⟨ss, s, hd, _⟩ := hfree
              refine ⟨ps ++ gap, ts, ss, s, hps.append hs, ?_, hd⟩
              rw [tokensOf_append ht, ← List.append_nil gap, tokensOf_gap hgap]
              simp [tokensOf]
            · have hnext := hcut (ps ++ gap) p L2.input ts
                (by rw [List.append_assoc]; exact hps.append hs) hp
                (by
                  rw [tokensOf_append ht, ← List.append_nil gap, tokensOf_gap hgap]
                  simp [tokensOf]) hfree
              exact absurd hnext (not_tokenNext_of_end rfl h2)

end Texts

/-- The second statement of this text is dropped. -/
theorem truncates : GoesOn (fun _ _ => "syntax error") [';', '$', '$', ';'] 0 ∧
    ¬ WholeText [';', '$', '$', ';'] := by
  constructor
  · refine goesOn_iff.mpr ⟨[_], [.tokSemicolon], _, _, _,
      .cons (parser_lex_eq.mpr ⟨_, _, rfl, rfl⟩) (.cons (parser_lex_eq.mpr ⟨_, _, rfl, rfl⟩)
        (.cons (parser_lex_eq.mpr ⟨_, _, rfl, rfl⟩) .nil)),
      located_cons.mpr ⟨_, [], rfl, located_nil.mpr rfl⟩, by decide, [some .emptyStmt], .init, ?_, rfl⟩
    exact .program (.toplevelSnoc .toplevelNil (.toplevelStatement (.statementEmpty .emptyStmt)))
  · rintro ⟨ps, ts, _, _, hs, ht, _⟩
    have hcut : Scanned [';', '$', '$', ';'] ([⟨.token .tokSemicolon, [';']⟩] ++ [⟨.unknown, ['$']⟩])
        ['$', ';'] := .cons rfl (.cons rfl .nil)
    rw [tokensOf_unknown (hcut.mem_of_whole hs) rfl] at ht
    cases ht

end ParaCL
