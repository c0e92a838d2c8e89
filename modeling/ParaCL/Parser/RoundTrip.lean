import ParaCL.Parser.Readme

/-!
# `Parser.RoundTrip` — printing a program and parsing the text

A program is printed as its tokens with separators of any kind between them (`PrintedAs`). Lexing and
parsing such a text gives the program back, and reports something exactly when the program is not
accepted. The other way round, whatever text the driver goes on with, the program built from it can be
printed again, and every text it is printed as builds the same program.
-/

namespace ParaCL

open Lib Bison

/-! ## Tokens that can be written -/

def Writable (ts : List Token) : Prop := ∀ t ∈ ts, t.writable = true

section Writable

variable {ts us : List Token} {t : Token} {e : Expression} {n : Nat}

@[simp] theorem writable_nil : Writable [] := fun _ ht => nomatch ht

@[simp] theorem writable_cons : Writable (t :: ts) ↔ t.writable = true ∧ Writable ts := List.forall_mem_cons

@[simp] theorem writable_append : Writable (ts ++ us) ↔ Writable ts ∧ Writable us := List.forall_mem_append

/-- The tokens with a fixed text that a program is written with. -/
@[simp] theorem writable_fixed :
    Token.tokIf.writable = true ∧ Token.tokElse.writable = true ∧ Token.tokWhile.writable = true ∧
      Token.tokPrint.writable = true ∧ Token.tokInput.writable = true ∧ Token.tokFunc.writable = true ∧
      Token.tokReturn.writable = true ∧ Token.tokAssign.writable = true ∧
      Token.tokLeftParen.writable = true ∧ Token.tokRightParen.writable = true ∧
      Token.tokLeftBrace.writable = true ∧ Token.tokRightBrace.writable = true ∧
      Token.tokSemicolon.writable = true ∧ Token.tokComma.writable = true ∧
      Token.tokColon.writable = true := by decide

/-- Parentheses can always be written. -/
@[simp] theorem writable_inPlace : Writable (e.inPlace n ts) ↔ Writable ts := by
  unfold Expression.inPlace
  split
  · simp
  · rfl

@[simp] theorem writable_operator (op : BinaryOperators) : op.token.writable = true := by cases op <;> rfl

@[simp] theorem writable_unary (op : UnaryOperators) : op.token.writable = true := by cases op <;> rfl

theorem tokensOfStmts_snoc {ss : List Statement} {s : Statement} :
    tokensOfStmts (ss ++ [s]) = tokensOfStmts ss ++ s.tokens := by
  induction ss with
  | nil => simp [tokensOfStmts]
  | cons t ss ih => rw [List.cons_append, tokensOfStmts, ih, tokensOfStmts, List.append_assoc]

theorem tokensOfMoreArgs_snoc {es : List Expression} :
    tokensOfMoreArgs (es ++ [e]) = tokensOfMoreArgs es ++ [.tokComma] ++ e.inPlace 0 e.tokens := by
  induction es with
  | nil => simp [tokensOfMoreArgs]
  | cons t es ih =>
      rw [List.cons_append, tokensOfMoreArgs, ih, tokensOfMoreArgs]
      simp only [List.append_assoc]

theorem writable_args_snoc {es : List Expression} :
    Writable (tokensOfArgs (es ++ [e])) ↔ Writable (tokensOfArgs es) ∧ Writable e.tokens := by
  cases es with
  | nil => simp [tokensOfArgs, tokensOfMoreArgs]
  | cons t es =>
      rw [List.cons_append, tokensOfArgs, tokensOfMoreArgs_snoc]
      simp [tokensOfArgs, and_assoc]

theorem writable_params {ps : List Name} :
    Writable (tokensOfParams ps) ↔ ∀ x ∈ ps, (Token.tokId x).writable = true := by
  cases ps with
  | nil => simp [tokensOfParams]
  | cons x xs =>
      rw [tokensOfParams, writable_cons, List.forall_mem_cons]
      refine and_congr_right fun _ => ?_
      rw [Writable, List.forall_mem_flatMap]
      exact forall₂_congr fun y _ => by simp

end Writable

/-- The tokens a value is written with. -/
def tokensOfValue : (N : Nonterminal) → N.Value → List Token
  | .program, v | .toplevelStmtList, v => v.flatMap tokensOfToplevel
  | .toplevelStatement, v => tokensOfToplevel v
  | .stmtList, v => tokensOfStmts v
  | .statement, v | .emptyStmt, v | .exprStmt, v | .ifStmt, v | .whileStmt, v | .printStmt, v
  | .returnStmt, v => v.tokens
  | .expression, v | .assignmentExpr, v | .level _, v | .postfixExpr, v | .primary, v | .inputExpr, v
  | .blockExpr, v | .functionExpr, v => v.tokens
  | .optArgList, v | .argList, v => tokensOfArgs v
  | .optParamList, v | .paramList, v => tokensOfParams v
  | .optFuncName, v => tokensOfName v

/-- What is derived from tokens that can be written can be written. -/
theorem Derives.writable {N : Nonterminal} {ts : List Token} {s s' : ParserState} {v : N.Value}
    (h : Derives false N ts s v s') (hw : ∀ t ∈ ts, t = .tokEof ∨ t.writable = true) :
    Writable (tokensOfValue N v) := by
  induction h with
  | statementError hr | ifError hr | ifParenError hr | whileError hr | whileParenError hr => cases hr
  | toplevelNil | stmtNil | optArgNone | optParamNone | funcNameNone => exact writable_nil
  | @toplevelSnoc ts us _ ss _ st _ _ _ ih1 ih2 =>
      rw [List.forall_mem_append] at hw
      simpa [tokensOfValue] using And.intro (ih1 hw.1) (ih2 hw.2)
  | @stmtSnoc ts us _ ss _ st _ _ _ ih1 ih2 =>
      rw [List.forall_mem_append] at hw
      show Writable (tokensOfStmts (ss ++ [st]))
      rw [tokensOfStmts_snoc, writable_append]
      exact ⟨ih1 hw.1, ih2 hw.2⟩
  | argOne _ ih => simpa [tokensOfValue, tokensOfArgs, tokensOfMoreArgs] using ih hw
  | argSnoc _ _ ih1 ih2 =>
      simp only [List.forall_mem_append] at hw
      exact writable_args_snoc.mpr ⟨ih1 hw.1.1, ih2 hw.2⟩
  | @paramOne x s y s' hx =>
      rw [addVarToScope_name hx]
      simpa [tokensOfValue, tokensOfParams] using hw
  | @paramSnoc x ts s ps s1 y s' _ hx ih =>
      rw [List.forall_mem_append] at hw
      have hlast : (Token.tokId x).writable = true := (hw.2 (.tokId x) (by simp)).resolve_left (by simp)
      rw [addVarToScope_name hx]
      refine writable_params.mpr fun z hz => ?_
      rcases List.mem_append.mp hz with hz | hz
      · exact writable_params.mp (ih hw.1) z hz
      · rwa [List.mem_singleton.mp hz]
  | funcNameSome hx =>
      rw [addVarToScope_name hx]
      simpa [tokensOfValue, tokensOfName] using hw
  | primaryId hx =>
      rw [useName_name hx]
      simpa [tokensOfValue, Expression.tokens] using hw
  | assignment _ hx ih =>
      rw [assignName_name hx]
      simp only [List.forall_mem_append] at hw
      simpa [tokensOfValue, Expression.tokens] using And.intro hw.1 (ih hw.2)
  | primaryNumber => simpa [tokensOfValue, Expression.tokens] using hw
  | _ => simp_all [tokensOfValue, tokensOfToplevel, Expression.tokens, Statement.tokens]

/-! ## The tokens of a text can be written -/

section Lexed

variable {w v : List Char} {p : Piece} {ps : List Piece} {t : Token} {ts : List Token}

theorem lexerRules_writable : ∀ rule ∈ lexerRules, ∀ t, rule.action = .token t → t.writable = true := by
  have hall : ∀ rule ∈ lexerRules, ∀ t ∈ fixedTokens.map Prod.snd, rule.action = .token t →
      t.writable = true := by decide
  have hfixed : ∀ rule ∈ lexerRules, ∀ t, rule.action = .token t → t ∈ fixedTokens.map Prod.snd := by
    simp [lexerRules, fixedTokens, fixedRule]
  exact fun rule hr t ht => hall rule hr t (hfixed rule hr t ht) ht

theorem lexerRules_identifier : ∀ rule ∈ lexerRules, rule.action = .id → rule.pattern = Patterns.id := by
  simp [lexerRules, fixedTokens, fixedRule]

theorem isIdentifier_of_matches (h : Patterns.id.Matches w) : isIdentifier w = true := by
  obtain ⟨u, x, rfl, hu, hx⟩ := Regex.matches_seq.mp h
  obtain ⟨c, hc, rfl⟩ := Regex.matches_char.mp hu
  show isIdentifier (c :: x) = true
  exact isIdentifier_cons.mpr ⟨hc, Regex.of_star_char hx⟩

/-- A piece ends where no rule matches more. -/
theorem lexemeEnds_of_piece (h : nextPiece w = some (p, v)) : LexemeEnds p.lexeme v := by
  rintro rule hr d x ⟨y, rfl⟩ hm
  have hw : w = (p.lexeme ++ d :: x) ++ y := by rw [nextPiece_text h, List.append_assoc]
  have hlen : (p.lexeme ++ d :: x).length ≤ w.length := by rw [hw]; simp
  have htake : w.take (p.lexeme ++ d :: x).length = p.lexeme ++ d :: x := by rw [hw, List.take_left]
  -- the match found is the longest one
  obtain ⟨found, n, hscan, hn⟩ := scan_max hr hlen (by rwa [htake])
  rw [nextPiece, hscan] at h
  obtain ⟨hp, _⟩ := Prod.mk.inj (Option.some.inj h)
  have hlexeme : p.lexeme.length = min n w.length := by rw [← hp, List.length_take]
  rw [List.length_append, List.length_cons] at hn hlen
  omega

/-- The keywords come before the identifiers. -/
theorem not_keyword_of_piece (h : nextPiece w = some (p, v)) (hp : p.action = .id) :
    keywords.contains p.lexeme = false := by
  have hfind : ∀ l ∈ keywords, ∃ a ∈ fixedTokens.map (fun q => LexAction.token q.2),
      (lexerRules.find? (fun rule => rule.pattern.longest l == some l.length)).map ScanRule.action =
        some a := by decide
  by_contra hk
  obtain ⟨a, ha, hf⟩ := hfind p.lexeme (by simpa using hk)
  have hpiece := nextPiece_of_find hf (lexemeEnds_of_piece h)
  rw [← nextPiece_text h, h] at hpiece
  obtain ⟨q, _, rfl⟩ := List.mem_map.mp ha
  rw [(Prod.mk.inj (Option.some.inj hpiece)).1] at hp
  cases hp

theorem stoi_nonneg {n : Number} (h : stoi w = .ok n) : 0 ≤ n.toInt := by
  unfold stoi at h
  split at h
  · rename_i hle
    cases h
    rw [intMax] at hle
    rw [BitVec.toInt_eq_toNat_cond, BitVec.toNat_ofNat]
    split <;> omega
  · cases h

theorem writable_of_piece (h : nextPiece w = some (p, v)) (hl : p.lexed = .ok (.token t)) :
    t.writable = true := by
  unfold Piece.lexed at hl
  obtain ⟨_, rule, hr, hact, hm⟩ := nextPiece_rule h
  cases ha : p.action with
  | token u =>
      rw [ha] at hl
      cases hl
      exact lexerRules_writable rule hr t (hact.trans ha)
  | number =>
      rw [ha] at hl
      cases hn : stoi p.lexeme with
      | error e => rw [hn] at hl; cases hl
      | ok n =>
          rw [hn] at hl
          cases hl
          exact decide_eq_true (stoi_nonneg hn)
  | id =>
      rw [ha] at hl
      cases hl
      rw [lexerRules_identifier rule hr (hact.trans ha)] at hm
      show (isIdentifier (String.ofList p.lexeme).toList &&
        !keywords.contains (String.ofList p.lexeme).toList) = true
      rw [String.toList_ofList, isIdentifier_of_matches hm, not_keyword_of_piece h ha]
      rfl
  | unknown | advance | newline | skip => rw [ha] at hl; cases hl

/-- **What the lexer reads can be written.** -/
theorem writable_of_scanned (hs : Scanned w ps v) (ht : tokensOf ps = some ts) : Writable ts := by
  induction hs generalizing ts with
  | nil =>
      cases ht
      exact writable_nil
  | cons hp _ ih =>
      rcases tokensOf_cons ht with ⟨_, h⟩ | ⟨_, t, us, hl, h, rfl⟩
      · exact ih h
      · exact writable_cons.mpr ⟨writable_of_piece hp hl, ih h⟩

end Lexed

/-! ## Programs and their texts -/

/-- The text is the program, printed with some layout. -/
def PrintedAs (p : Program) (text : List Char) : Prop :=
  ∃ ts : List (Token × Separator), ts.map Prod.fst = tokensOfStmts p.stmts ∧ text = writeTokens ts

/-- The driver goes on with the program. -/
def Builds (describe : List Terminal → Terminal → String) (text : List Char) (n : Nat) (p : Program) :
    Prop :=
  ∃ c w, Ends (parseStep yylex describe) (parseStart text n) c .accept ∧ c.state.hasErrors = false ∧
    c.stack.map Prod.snd = [w, .of .program (p.stmts.map some)]

section Programs

variable {describe : List Terminal → Terminal → String} {text : List Char} {n : Nat} {p : Program}
  {ts : List Token} {s : ParserState}

theorem tokensOfProgram_some (ss : List Statement) :
    tokensOfProgram (ss.map some) = tokensOfStmts ss ++ [.tokEof] := by
  have htop : (ss.map some).flatMap tokensOfToplevel = tokensOfStmts ss := by
    induction ss with
    | nil => rfl
    | cons s ss ih => rw [List.map_cons, List.flatMap_cons, ih]; rfl
  rw [tokensOfProgram, htop]

theorem toplevelShaped_some (ss : List Statement) : toplevelShaped (ss.map some) = stmtsShaped ss := by
  induction ss with
  | nil => rfl
  | cons s ss ih =>
      rw [stmtsShaped, ← ih]
      rfl

/-- Whether a derivation of the program reports something depends on the program only. -/
theorem no_errors_iff_accepted (h : Derives false .program ts .init (p.stmts.map some) s) :
    s.errors = [] ↔ Accepted p := by
  rw [accepted_iff]
  constructor
  · intro he
    obtain ⟨ss, hss, hc⟩ := h.checked (List.cons_ne_nil _ _) he
    have hps : p.stmts = ss := List.map_injective_iff.mpr (fun _ _ => Option.some.inj) hss
    exact ⟨_, hps ▸ hc⟩
  · rintro ⟨Γ, hΓ⟩
    obtain ⟨us, hus⟩ :=
      toplevelParse (r := false) (d := []) (q := []) p.stmts (List.cons_ne_nil _ _) ⟨[], .toplevelNil⟩ hΓ
    -- another derivation of the same tree walks over the same trace
    have hbound := (reported_iff (Derives.program hus)).mp (fun _ hx => nomatch hx)
    have hno := (reported_iff h).mpr hbound
    have honly := h.onlyNames (fun st hst => by obtain ⟨v, _, rfl⟩ := List.mem_map.mp hst; simp)
      (fun _ he => nomatch he)
    refine List.eq_nil_iff_forall_not_mem.mpr fun e he => ?_
    obtain ⟨x, rfl⟩ := honly e he
    exact hno x he

variable (describe n) in
/-- The parser, on a program that was printed. -/
theorem parses_printed (hs : stmtsShaped p.stmts = true) (hw : Writable (tokensOfStmts p.stmts))
    (ht : PrintedAs p text) : ∃ c w, Ends (parseStep yylex describe) (parseStart text n) c .accept ∧
      c.stack.map Prod.snd = [w, .of .program (p.stmts.map some)] ∧
      (c.state.hasErrors = false ↔ Accepted p) := by
  obtain ⟨ts, hts, rfl⟩ := ht
  obtain ⟨ps, hscan, htok⟩ := written_scanned ts
    (fun q hq => hw q.1 (hts ▸ List.mem_map_of_mem hq))
  rw [hts] at htok
  obtain ⟨s, hd, _⟩ := program_renders ((toplevelShaped_some p.stmts).trans hs) .init (List.cons_ne_nil _ _)
  rw [tokensOfProgram_some] at hd
  -- after the tokens come an end of the input for `program` and one for `$accept`
  obtain ⟨lts, L1, gap, hdel, hlts, hgap, hrest⟩ : ∃ lts L' gap,
      Delivers (parserActions yylex describe) (.init (writeTokens ts) n) lts L' ∧
      Located lts (tokensOfStmts p.stmts) ∧ (∀ g ∈ gap, g.Separates) ∧ Scanned L'.input gap [] :=
    delivers_of_scanned hscan htok
  obtain ⟨L2, hend1, hin⟩ := yylex_of_eof hgap hrest
  have hno : ∀ g ∈ ([] : List Piece), g.Separates := fun _ hg => nomatch hg
  obtain ⟨L3, hend2, _⟩ := yylex_of_eof (L := L2) hno (hin ▸ .nil)
  have hloc : Located (lts ++ [(.tokEof, .token .tokEof (locationOf L1 L2))])
      (tokensOfStmts p.stmts ++ [.tokEof]) :=
    located_append.mpr ⟨lts, _, rfl, hlts, located_cons.mpr ⟨_, [], rfl, located_nil.mpr rfl⟩⟩
  have hdel' := hdel.append (.cons (parser_lex hend1) (.cons (parser_lex hend2) .nil))
  rw [List.append_cons] at hdel'
  obtain ⟨c, hends, hc, hst⟩ := accepts_of_derives (s := .init (writeTokens ts)) hd hloc hdel'
  refine ⟨c, _, hends, hst, ?_⟩
  rw [← no_errors_iff_accepted hd, ← hc, clean_iff]
  exact List.map_eq_nil_iff.symm

/-- What the driver goes on with is a program, and its tokens can be written. -/
theorem builds_of_goesOn (h : GoesOn describe text n) : ∃ p, Builds describe text n p ∧ Accepted p ∧
    stmtsShaped p.stmts = true ∧ Writable (tokensOfStmts p.stmts) := by
  obtain ⟨c, hends, hc⟩ := h
  obtain ⟨all, us, w, w', ss, L', hdel, hloc, hd, hst⟩ := derives_of_accepts hends (clean_iff.mp hc)
  obtain ⟨ts, rfl, hno⟩ := hd.program_inv
  have herrors : c.state.core.errors = [] := by
    show c.state.errors.map ErrorInfo.error = []
    rw [clean_iff.mp hc]
    rfl
  obtain ⟨stmts, rfl, _⟩ := hd.checked (List.cons_ne_nil _ _) herrors
  -- the tokens in front of the end of the input are those of pieces
  obtain ⟨lts, last, rfl, hlts, _⟩ := located_append.mp hloc
  rw [List.append_assoc] at hdel
  obtain ⟨L1, hdel1, _⟩ := hdel.split
  obtain ⟨ps, hps, htok⟩ := scanned_of_delivers hdel1 hlts hno
  have hwts := writable_of_scanned hps htok
  have hw : ∀ t ∈ ts ++ [.tokEof], t = .tokEof ∨ t.writable = true := by
    intro t ht
    rcases List.mem_append.mp ht with ht | ht
    · exact .inr (hwts t ht)
    · exact .inl (List.mem_singleton.mp ht)
  have hprogram : tokensOfProgram (stmts.map some) = tokensOfValue .program (stmts.map some) ++ [.tokEof] := rfl
  rw [tokensOfProgram_some] at hprogram
  refine ⟨⟨stmts⟩, ⟨c, w', hends, hc, hst⟩, (no_errors_iff_accepted (p := ⟨stmts⟩) hd).mp herrors, ?_, ?_⟩
  · rw [← toplevelShaped_some]
    exact hd.shaped
  · rw [List.append_cancel_right hprogram]
    exact hd.writable hw

/-- A program with tokens that can be written has a text. -/
theorem exists_printed (p : Program) : ∃ text, PrintedAs p text :=
  ⟨_, (tokensOfStmts p.stmts).map (fun t => (t, ⟨.blank, [], rfl, fun _ hf => nomatch hf⟩)), by
    rw [List.map_map]
    exact List.map_id _, rfl⟩

end Programs

/-- **Parsing undoes printing**, and a text is the print of one program only. -/
theorem parsing_undoes_printing (describe : List Terminal → Terminal → String) (p : Program)
    (text : List Char) (n : Nat) (hs : stmtsShaped p.stmts = true)
    (hw : Writable (tokensOfStmts p.stmts)) (ht : PrintedAs p text) :
    (∃ c w, Ends (parseStep yylex describe) (parseStart text n) c .accept ∧
      c.stack.map Prod.snd = [w, .of .program (p.stmts.map some)] ∧
      (c.state.hasErrors = false ↔ Accepted p)) ∧
    ∀ q : Program, stmtsShaped q.stmts = true → Writable (tokensOfStmts q.stmts) → PrintedAs q text →
      q = p := by
  refine ⟨parses_printed describe n hs hw ht, fun q hsq hwq htq => ?_⟩
  obtain ⟨c, w, hends, hst, _⟩ := parses_printed describe n hs hw ht
  obtain ⟨c', w', hends', hst', _⟩ := parses_printed describe n hsq hwq htq
  obtain ⟨rfl, _⟩ := hends.unique hends'
  rw [hst] at hst'
  simp only [List.cons.injEq, SemanticValue.of.injEq, heq_eq_eq, true_and, and_true] at hst'
  have hstmts : p.stmts = q.stmts := List.map_injective_iff.mpr (fun _ _ => Option.some.inj) hst'.2
  exact congrArg Program.mk hstmts.symm

/-- `x = 1;` with blanks. -/
theorem parsing_undoes_printing_assignment :
    (∃ c w, Ends (parseStep yylex (fun _ _ => "")) (parseStart "x = 1 ; ".toList 0) c .accept ∧
      c.stack.map Prod.snd = [w, .of .program [some (.exprStmt (.assignmentExpr "x" (.number 1)))]] ∧
      (c.state.hasErrors = false ↔ Accepted ⟨[.exprStmt (.assignmentExpr "x" (.number 1))]⟩)) ∧
    ∀ q : Program, stmtsShaped q.stmts = true → Writable (tokensOfStmts q.stmts) →
      PrintedAs q "x = 1 ; ".toList → q = ⟨[.exprStmt (.assignmentExpr "x" (.number 1))]⟩ :=
  parsing_undoes_printing _ ⟨[.exprStmt (.assignmentExpr "x" (.number 1))]⟩ _ _ rfl
    (by unfold Writable; decide)
    ⟨[.tokId "x", .tokAssign, .tokNumber 1, .tokSemicolon].map
      (fun t => (t, ⟨.blank, [], rfl, fun _ hf => nomatch hf⟩)), rfl, by decide⟩

/-- **Texts can be reformatted.** What the driver goes on with can be printed, and whatever it is printed
    as builds the same program again, without an error. -/
theorem reformatted_builds_same (describe : List Terminal → Terminal → String) (text : List Char) (n : Nat)
    (h : GoesOn describe text n) :
    ∃ p, Builds describe text n p ∧ (∃ text', PrintedAs p text') ∧
      ∀ text' n', PrintedAs p text' → Builds describe text' n' p := by
  obtain ⟨p, hbuilds, haccepted, hs, hw⟩ := builds_of_goesOn h
  refine ⟨p, hbuilds, exists_printed p, fun text' n' ht => ?_⟩
  obtain ⟨c, w, hends, hst, herrors⟩ := parses_printed describe n' hs hw ht
  exact ⟨c, w, hends, herrors.mpr haccepted, hst⟩

/-- `x = 7; print (1 + 2) * x;` -/
def timesSeven : Program where
  stmts := [
    .exprStmt (.assignmentExpr "x" (.number 7)),
    .printStmt (.binaryOperator .mul (.binaryOperator .add (.number 1) (.number 2)) (.var "x"))]

/-- A text with comments of both kinds. -/
theorem reformatted_builds_same_comment :
    ∃ p, Builds (fun _ _ => "") "x = 7 ; // seven\nprint (\t1 /* one */ + 2 ) * x ; ".toList 0 p ∧
      (∃ text', PrintedAs p text') ∧
      ∀ text' n', PrintedAs p text' → Builds (fun _ _ => "") text' n' p := by
  let space : Separator := ⟨.blank, [], rfl, by decide⟩
  have hprinted : PrintedAs timesSeven "x = 7 ; // seven\nprint (\t1 /* one */ + 2 ) * x ; ".toList :=
    ⟨[(.tokId "x", space), (.tokAssign, space), (.tokNumber 7, space),
      (.tokSemicolon, ⟨.blank, [.lineComment " seven".toList], rfl, by decide⟩), (.tokPrint, space),
      (.tokLeftParen, ⟨.tab, [], rfl, by decide⟩),
      (.tokNumber 1, ⟨.blank, [.blockComment " one ".toList, .blank], rfl, by decide⟩), (.tokPlus, space),
      (.tokNumber 2, space), (.tokRightParen, space), (.tokMul, space), (.tokId "x", space),
      (.tokSemicolon, space)], rfl, by decide⟩
  obtain ⟨c, w, hends, _, herrors⟩ := parses_printed (fun _ _ => "") 0 (p := timesSeven) (by decide)
    (by unfold Writable; decide) hprinted
  exact reformatted_builds_same _ _ _ ⟨c, hends, herrors.mpr (by decide)⟩

end ParaCL
