import ParaCL.Parser.Stack
import ParaCL.Parser.Truncation

/-!
# `Parser.ErrorLines` — the source line of an error exists

`get_line_content` indexes `source_lines_` with `begin.line - 1` and checks nothing. The line stored in a
token is the counter before its call, which can be past the last line only for a call after the end of
the input. The parser makes such a call, for the `TOK_EOF` of `$accept`, but by then it can only accept.
-/

namespace ParaCL

open Lib Bison

/-- The line is one of the source. -/
def HasLine (text : List Char) (loc : Location) : Prop :=
  1 ≤ loc.beginLine ∧ loc.beginLine ≤ (sourceLines text).length

/-- The scanner is within the text, and its line counter at a line of the source. -/
def Ready (text : List Char) (L : Lexer) : Prop :=
  ∃ done, Scanned text done L.input ∧ L.CountersAt (Shown done) ∧
    lineOf (Shown done) ≤ (sourceLines text).length

section Lines

variable {text v : List Char} {n : Nat} {L L' : Lexer} {lexed : Lexed} {loc : Location}
  {ps gap : List Piece} {p : Piece}

theorem ready_init (h : text ≠ []) : Ready text (.init text n) :=
  ⟨[], .nil, ⟨rfl, rfl⟩, lineOf_le (w := []) h⟩

/-- The counters see at most the lines there are. -/
theorem lineOf_shown_le (ps : List Piece) : lineOf (Shown ps) ≤ lineOf (ps.flatMap Piece.lexeme) := by
  induction ps with
  | nil => exact Nat.le_refl _
  | cons p ps ih =>
      rw [show p :: ps = [p] ++ ps from rfl, shown_append, List.flatMap_append, lineOf, lineOf,
        List.count_append, List.count_append]
      rw [lineOf, lineOf] at ih
      have hp : (Shown [p]).count '\n' ≤ ([p].flatMap Piece.lexeme).count '\n' := by
        rw [List.flatMap_singleton]
        cases hc : p.action.counted with
        | true => rw [shown_of_counted hc]
        | false => rw [shown_of_not_counted hc]; exact Nat.zero_le _
      omega

/-- A piece that is handed out is on one line. -/
theorem lineOf_shown_piece (hs : Scanned text (ps ++ [p]) v) (hp : ¬ p.Separates) :
    lineOf (Shown (ps ++ [p])) = lineOf (Shown ps) := by
  obtain ⟨u, _, hlast⟩ := hs.split
  rw [shown_append]
  refine (lineOf_shown_iff hlast _).mpr (fun q hq hn => hp ?_)
  rw [List.mem_singleton.mp hq] at hn
  rw [Piece.Separates, hn]
  rfl

/-- The scanner stays ready until it has met the end of the text. -/
theorem Ready.call (h : Ready text L) (hcall : yylex L = .ok (lexed, loc, L')) :
    HasLine text loc ∧ (Ready text L' ∨ L'.input = [] ∧ lexed = .token .tokEof) := by
  obtain ⟨done, hdone, hcount, hle⟩ := h
  have hloc : HasLine text loc := by
    obtain ⟨_, rfl, _⟩ := yylex_ok hcall
    refine ⟨?_, ?_⟩
    · show 1 ≤ L.yylineno
      rw [hcount.line]
      exact Nat.succ_pos _
    · show L.yylineno ≤ _
      rw [hcount.line]
      exact hle
  refine ⟨hloc, ?_⟩
  cases callTakes L with
  | eof hgap hs =>
      obtain ⟨L1, h1, hin⟩ := yylex_of_eof hgap hs
      rw [h1] at hcall
      cases hcall
      exact .inr ⟨hin, rfl⟩
  | @piece gap p v hgap hp hs =>
      left
      rw [yylex_of_piece hgap hp hs] at hcall
      cases hl : p.lexed with
      | error e => rw [hl] at hcall; cases hcall
      | ok lexed' =>
          rw [hl] at hcall
          cases hcall
          -- the line of the next call is that of the last character read, which is in the text
          have hall := hdone.append hs
          have hbefore := hall
          rw [← List.append_assoc] at hbefore
          refine ⟨done ++ (gap ++ [p]), by rwa [applyAll_input hs], ?_, ?_⟩
          · rw [shown_append]
            exact hcount.applyAll hs
          · rw [← List.append_assoc, lineOf_shown_piece hbefore hp]
            obtain ⟨u, hu, hlast⟩ := hbefore.split
            have hne : u ≠ [] := by
              rintro rfl
              cases hlast with
              | cons hn => exact absurd (nextPiece_eq_none.mpr rfl) (by simp [hn])
            refine Nat.le_trans (lineOf_shown_le _) ?_
            rw [hu.text]
            exact lineOf_le hne

end Lines

/-! ## Where an error gets its location -/

section Errors

variable {r : Rule} {vs : List SemanticValue} {s s' : MyParser} {v : SemanticValue}

theorem sourceLines_addVarToScope {x y : Name} (h : s.addVarToScope x = .ok (y, s')) :
    s'.sourceLines = s.sourceLines := by
  unfold MyParser.addVarToScope at h
  split at h <;> (cases h; try rfl)

/-- The source is only read. -/
theorem sourceLines_act (h : act r vs s = .ok (v, s')) : s'.sourceLines = s.sourceLines := by
  cases act_acts h with
  | build | toplevelBrace | opens => rfl
  | assignment hx =>
      unfold MyParser.assignName at hx
      split at hx
      · cases hx; rfl
      · exact sourceLines_addVarToScope hx
  | primaryId hx =>
      unfold MyParser.useName at hx
      split at hx
      · cases hx; rfl
      · exact (sourceLines_addVarToScope hx).trans rfl
  | closes _ hp =>
      unfold MyParser.popScope at hp
      split at hp <;> (cases hp; try rfl)
  | declares _ hx => exact sourceLines_addVarToScope hx

/-- An error of an action is at a token the action read. -/
theorem errors_of_act (hvs : List.Forall₂ Typed r.rhs vs) (h : act r vs s = .ok (v, s')) :
    s'.errors = s.errors ∨ ∃ t loc e line, .token t loc ∈ vs ∧ t ≠ .tokEof ∧
      s'.errors = s.errors ++ [⟨loc, e, line⟩] := by
  cases act_acts h with
  | build | opens => exact .inl rfl
  | @toplevelBrace t loc =>
      refine .inr ⟨t, loc, _, _, List.mem_singleton.mpr rfl, ?_, rfl⟩
      rintro rfl
      rcases hvs with _ | ⟨h1, _⟩
      cases h1
      contradiction
  | assignment hx => exact .inl (errors_assignName hx)
  | @primaryId x _ loc _ hx =>
      unfold MyParser.useName at hx
      split at hx
      · cases hx
        exact .inl rfl
      · exact .inr ⟨.tokId x, loc, _, _, List.mem_singleton.mpr rfl, by simp,
          errors_addVarToScope hx⟩
  | closes _ hp => exact .inl (errors_popScope hp)
  | declares _ hx => exact .inl (errors_addVarToScope hx)

end Errors

/-! ## The end of the input -/

/-- The stacks and lookaheads once the scanner has met the end of the text: all that is left is to
    accept. -/
inductive Closing : List (GrammarSymbol Terminal Lhs) → Option (Terminal × SemanticValue) → Prop where
  | start : Closing [] none
  | list : Closing [.nonterminal (.of .toplevelStmtList)] none
  | listEnd {loc : Location} :
      Closing [.nonterminal (.of .toplevelStmtList)] (some (.tokEof, .token .tokEof loc))
  | listShifted : Closing [.terminal .tokEof, .nonterminal (.of .toplevelStmtList)] none
  | program : Closing [.nonterminal (.of .program)] none
  | programEnd {loc : Location} :
      Closing [.nonterminal (.of .program)] (some (.tokEof, .token .tokEof loc))
  | final : Closing [.terminal .tokEof, .nonterminal (.of .program)] none

/-- The stacks at the end of the input. -/
theorem closing_stacks :
    (grammar.complete [] = some ⟨.toplevelNil, 0⟩ ∧ grammar.expected [] = []) ∧
      (grammar.complete [.nonterminal (.of .toplevelStmtList)] = none ∧
        grammar.shifts [.nonterminal (.of .toplevelStmtList)] .tokEof = true) ∧
      (grammar.complete [.terminal .tokEof, .nonterminal (.of .toplevelStmtList)] = some ⟨.program, 2⟩ ∧
        grammar.expected [.terminal .tokEof, .nonterminal (.of .toplevelStmtList)] = []) ∧
      (grammar.complete [.nonterminal (.of .program)] = none ∧
        grammar.shifts [.nonterminal (.of .program)] .tokEof = true) ∧
      grammar.complete [.terminal .tokEof, .nonterminal (.of .program)] = some ⟨.accept, 2⟩ := by
  decide +kernel

theorem reduces_start : grammar.complete [] = some ⟨.toplevelNil, 0⟩ ∧ grammar.expected [] = [] :=
  closing_stacks.1

theorem shifts_list : grammar.complete [.nonterminal (.of .toplevelStmtList)] = none ∧
    grammar.shifts [.nonterminal (.of .toplevelStmtList)] .tokEof = true := closing_stacks.2.1

theorem reduces_listShifted :
    grammar.complete [.terminal .tokEof, .nonterminal (.of .toplevelStmtList)] = some ⟨.program, 2⟩ ∧
      grammar.expected [.terminal .tokEof, .nonterminal (.of .toplevelStmtList)] = [] :=
  closing_stacks.2.2.1

theorem shifts_program : grammar.complete [.nonterminal (.of .program)] = none ∧
    grammar.shifts [.nonterminal (.of .program)] .tokEof = true := closing_stacks.2.2.2.1

theorem reduces_final :
    grammar.complete [.terminal .tokEof, .nonterminal (.of .program)] = some ⟨.accept, 2⟩ :=
  closing_stacks.2.2.2.2

theorem before_eof : Rule.before (.terminal .tokEof) = [⟨.accept, 1⟩, ⟨.program, 1⟩] := by decide

theorem before_program : Rule.before (.nonterminal (.of .program)) = [⟨.accept, 0⟩] := by decide

/-- The end of the input is shifted at the end of the list of statements or of the program. -/
theorem closing_of_shifts {γ : List (GrammarSymbol Terminal Lhs)} (h : grammar.shifts γ .tokEof = true) :
    Closing (.terminal .tokEof :: γ) none := by
  obtain ⟨it, hit, hn⟩ := Grammar.shifts_iff.mp h
  have hbefore := Rule.mem_before hn
  rw [before_eof] at hbefore
  simp only [List.mem_cons, List.not_mem_nil, or_false] at hbefore
  rcases hbefore with rfl | rfl
  · obtain ⟨_, γ', rfl, h0⟩ := Grammar.items_split hit
    obtain rfl := Grammar.eq_nil_of_start h0
    exact .final
  · obtain ⟨_, γ', rfl, h0⟩ := Grammar.items_split hit
    obtain ⟨it', hit', hn'⟩ := Grammar.awaited h0 (by decide)
    have hbefore' := Rule.mem_before hn'
    rw [show GrammarSymbol.nonterminal (grammar.lhs .program) = .nonterminal (.of .program) from rfl,
      before_program, List.mem_singleton] at hbefore'
    subst hbefore'
    obtain rfl := Grammar.eq_nil_of_start hit'
    exact .listShifted

/-! ## The run -/

section Run

variable {describe : List Terminal → Terminal → String} {text : List Char} {n : Nat}
  {c c' : Parse Lexer} {e : ErrorInfo}

/-- How far the parser is with its input. -/
inductive Phase (text : List Char) (c : Parse Lexer) : Prop where
  | reading (h : Ready text c.lexer) (hl : ∀ tok ∈ c.lookahead, HasLine text tok.2.loc)
  | atEnd {loc : Location} (h : c.lexer.input = [])
      (hl : c.lookahead = some (.tokEof, .token .tokEof loc)) (hloc : HasLine text loc)
  | closing (h : c.lexer.input = []) (hp : c.popping = false) (hc : Closing (symbols c) c.lookahead)

/-- What holds of the locations at every point of a parse. -/
structure Lines (text : List Char) (c : Parse Lexer) : Prop where
  ok : StackOk c
  source : c.state.sourceLines = sourceLines text
  errors : ∀ e ∈ c.state.errors, HasLine text e.loc
  stack : ∀ x ∈ c.stack, ∀ t loc, x.2 = .token t loc → t ≠ .tokEof → HasLine text loc
  phase : Phase text c

/-- With a lookahead there is nothing to do but to shift it. -/
theorem Closing.shifts {γ : List (GrammarSymbol Terminal Lhs)} {tok : Terminal × SemanticValue}
    (h : Closing γ (some tok)) : (∃ loc, tok = (.tokEof, .token .tokEof loc)) ∧
      grammar.shifts γ .tokEof = true ∧ grammar.complete γ = none := by
  cases h with
  | listEnd => exact ⟨⟨_, rfl⟩, shifts_list.2, shifts_list.1⟩
  | programEnd => exact ⟨⟨_, rfl⟩, shifts_program.2, shifts_program.1⟩

/-- Without one the parser asks for the end of the input, or reduces without asking. -/
theorem Closing.goes_on {γ : List (GrammarSymbol Terminal Lhs)} (h : Closing γ none) :
    (grammar.complete γ = none ∧ ∀ loc, Closing γ (some (.tokEof, .token .tokEof loc))) ∨
      ∃ it, grammar.complete γ = some it ∧ grammar.expected γ = [] ∧
        (it.rule = grammar.start ∨ Closing (.nonterminal it.rule.lhs :: γ.drop it.rule.rhs.length) none) := by
  cases h with
  | start => exact .inr ⟨_, reduces_start.1, reduces_start.2, .inr .list⟩
  | list => exact .inl ⟨shifts_list.1, fun _ => .listEnd⟩
  | listShifted => exact .inr ⟨_, reduces_listShifted.1, reduces_listShifted.2, .inr .program⟩
  | program => exact .inl ⟨shifts_program.1, fun _ => .programEnd⟩
  | final => exact .inr ⟨_, reduces_final, expected_final, .inl rfl⟩

/-- **A closing step** leads to the next one. -/
theorem Phase.closing_step (hin : c.lexer.input = []) (hp : c.popping = false)
    (hc : Closing (symbols c) c.lookahead) (hs : parseStep yylex describe c = .inl c') :
    Phase text c' := by
  cases parseStep_does hs with
  | pop hp' | shiftError hp' => rw [hp] at hp'; cases hp'
  -- the end of input is always shifted here, so no error is found
  | report _ hf | retry _ hf | discard _ hf =>
      obtain ⟨hl, hsh, _⟩ := hf
      rw [hl] at hc
      obtain ⟨⟨_, rfl⟩, hsh', _⟩ := hc.shifts
      rw [hsh'] at hsh
      cases hsh
  | shift _ hl hsh =>
      rw [hl] at hc
      obtain ⟨⟨_, rfl⟩, _⟩ := hc.shifts
      exact .closing hin hp (closing_of_shifts hsh)
  -- the text is used up: the lexer returns the end of input again
  | lex _ hl hno hlex =>
      have hnil : Scanned c.lexer.input [] [] := hin ▸ .nil
      obtain ⟨L', hcall, hin'⟩ := yylex_of_eof (fun g hg => absurd hg List.not_mem_nil) hnil
      obtain ⟨_, _, hcall', rfl⟩ := parser_lex_eq.mp hlex
      rw [hcall] at hcall'
      cases hcall'
      rw [hl] at hc
      rcases hc.goes_on with ⟨_, hnext⟩ | ⟨it, hcomp, hx, _⟩
      · exact .closing hin' hp (hnext _)
      · exact absurd ⟨it, hcomp, .inl ⟨hl, hx⟩⟩ hno
  | @reduce it _ _ _ hr hst =>
      obtain ⟨hcomp, hl⟩ := hr
      cases hl' : c.lookahead with
      | some tok =>
          rw [hl'] at hc
          rw [hc.shifts.2.2] at hcomp
          cases hcomp
      | none =>
          rw [hl'] at hc
          rcases hc.goes_on with ⟨hnone, _⟩ | ⟨it', hcomp', _, hnext⟩
          · rw [hnone] at hcomp
            cases hcomp
          · rw [hcomp] at hcomp'
            cases hcomp'
            refine .closing hin hp ?_
            show Closing (.nonterminal it.rule.lhs :: (c.stack.drop it.rule.rhs.length).map Prod.fst) none
            rw [List.map_drop]
            exact hnext.resolve_left hst

theorem Phase.step (h : Phase text c) (hs : parseStep yylex describe c = .inl c') : Phase text c' := by
  cases h with
  | closing hin hp hc => exact closing_step hin hp hc hs
  | reading h hl =>
      cases parseStep_does hs with
      | pop | shiftError | reduce | report | retry => exact .reading h hl
      | shift | discard => exact .reading h (fun tok ht => (by cases ht))
      | lex _ _ _ hlex =>
          obtain ⟨lexed, loc, hcall, rfl⟩ := parser_lex_eq.mp hlex
          have hloc : (translate lexed loc).2.loc = loc := by cases lexed <;> rfl
          obtain ⟨hline, hready | ⟨hin, rfl⟩⟩ := h.call hcall
          · refine .reading hready (fun tok ht => ?_)
            cases ht
            rwa [hloc]
          · exact .atEnd hin rfl hline
  | atEnd hin hl hline =>
      cases parseStep_does hs with
      | pop | shiftError | reduce | report | retry => exact .atEnd hin hl hline
      | lex _ hl' => rw [hl] at hl'; cases hl'
      | discard _ hf _ ht =>
          rw [hf.1] at hl
          cases hl
          exact absurd rfl ht
      | shift hp hl' hsh =>
          rw [hl] at hl'
          cases hl'
          exact .closing hin hp (closing_of_shifts hsh)

/-- The lookahead is at a line, or the parser is closing. -/
theorem Phase.lookahead (h : Phase text c) {tok : Terminal × SemanticValue}
    (hl : c.lookahead = some tok) : HasLine text tok.2.loc ∨ Closing (symbols c) (some tok) := by
  cases h with
  | reading _ hline => exact .inl (hline tok hl)
  | atEnd _ hl' hline =>
      rw [hl] at hl'
      cases hl'
      exact .inl hline
  | closing _ _ hc => exact .inr (hl ▸ hc)

/-- **A step keeps the locations on lines of the source.** -/
theorem Lines.step (h : Lines text c) (hs : parseStep yylex describe c = .inl c') : Lines text c' := by
  have hok := h.ok.step hs
  have hnext := h.phase.step hs
  obtain ⟨hok0, hsource, herrors, hstack, hphase⟩ := h
  cases parseStep_does hs with
  | pop _ _ hst =>
      exact ⟨hok, hsource, herrors, fun x hx => hstack x (hst ▸ List.mem_cons_of_mem _ hx), hnext⟩
  -- these neither push a token nor record an error
  | lex | retry | discard => exact ⟨hok, hsource, herrors, hstack, hnext⟩
  | shiftError =>
      refine ⟨hok, hsource, herrors, ?_, hnext⟩
      rintro x (_ | ⟨_, hx⟩)
      · intro t loc he
        cases he
      · exact hstack x hx
  -- a shifted token is the lookahead, and its line is known unless the text has ended
  | @shift tok _ hl =>
      refine ⟨hok, hsource, herrors, ?_, hnext⟩
      rintro x (_ | ⟨_, hx⟩)
      · intro t loc he ht
        have he : tok.2 = .token t loc := he
        rcases hphase.lookahead hl with hline | hc
        · rwa [he] at hline
        · obtain ⟨⟨_, rfl⟩, _⟩ := hc.shifts
          cases he
          exact absurd rfl ht
      · exact hstack x hx
  -- at the end of the text nothing is reported: the end of input can be shifted
  | @report tok _ hf =>
      refine ⟨hok, hsource, ?_, hstack, hnext⟩
      intro e he
      rcases List.mem_append.mp he with he | he
      · exact herrors e he
      · rw [List.mem_singleton.mp he]
        rcases hphase.lookahead hf.1 with hline | hc
        · exact hline
        · obtain ⟨⟨_, rfl⟩, hsh, _⟩ := hc.shifts
          exact absurd hf.2.1 (by rw [hsh]; decide)
  | @reduce it v s _ hr hst ha =>
      have ha : act it.rule _ c.state = .ok (v, s) := ha
      refine ⟨hok, (sourceLines_act ha).trans hsource, ?_, ?_, hnext⟩
      · intro e he
        have he : e ∈ s.errors := he
        rcases errors_of_act (hok0.values hr) ha with hsame | ⟨t, loc, _, _, ht, hne, hnew⟩
        · exact herrors e (hsame ▸ he)
        -- an action reports at a token of its own right side
        · rw [hnew] at he
          rcases List.mem_append.mp he with he | he
          · exact herrors e he
          · rw [List.mem_singleton.mp he]
            obtain ⟨x, hx, hxt⟩ := List.mem_map.mp ht
            exact hstack x (List.mem_of_mem_take (List.mem_reverse.mp hx)) t loc hxt hne
      · rintro x (_ | ⟨_, hx⟩)
        · intro t loc he
          obtain rfl : v = .token t loc := he
          exact absurd (hok.typed _ (List.mem_cons_self ..)) not_typed_token
        · exact hstack x (List.mem_of_mem_drop hx)

theorem lines_start (text : List Char) (n : Nat) : Lines text (parseStart text n) := by
  refine ⟨stackOk_start text n, rfl, fun e he => (by cases he), fun x hx => (by cases hx), ?_⟩
  by_cases h : text = []
  · subst h
    exact .closing rfl rfl .start
  · exact .reading (ready_init h) (fun tok ht => (by cases ht))

/-- **The source line of an error exists.** At every point of the parse of any text, the index with which
    `get_line_content` was called for an error recorded so far is that of a line of the source. -/
theorem error_line_exists (h : Star (parseStep yylex describe) (parseStart text n) c)
    (he : e ∈ c.state.errors) :
    c.state.sourceLines = sourceLines text ∧ 1 ≤ e.loc.beginLine ∧
      e.loc.beginLine - 1 < c.state.sourceLines.length := by
  have hlines := h.invariant Lines.step (lines_start text n)
  obtain ⟨hpos, hle⟩ := hlines.errors e he
  refine ⟨hlines.source, hpos, ?_⟩
  rw [hlines.source]
  omega

/-- A brace with nothing to close, on the second line. -/
theorem error_line_exists_unmatchedBrace : ∃ (c : Parse Lexer) (e : ErrorInfo),
    Star (parseStep yylex (fun _ _ => "")) (parseStart "; /* one */\n\x7d ;".toList 0) c ∧
      e ∈ c.state.errors ∧ c.state.sourceLines = sourceLines "; /* one */\n\x7d ;".toList ∧
      1 ≤ e.loc.beginLine ∧ e.loc.beginLine - 1 < c.state.sourceLines.length := by
  have hrun : ((iterate (parseStep yylex (fun _ _ => "")) 10
      (parseStart "; /* one */\n\x7d ;".toList 0)).any (fun c => c.state.hasErrors)) = true := by
    decide +kernel
  obtain ⟨c, hstar, hc⟩ := star_of_iterate hrun
  cases he : c.state.errors with
  | nil => simp [MyParser.hasErrors, he] at hc
  | cons e es =>
      have hmem : e ∈ c.state.errors := he ▸ List.mem_cons_self ..
      exact ⟨c, e, hstar, he ▸ hmem, error_line_exists hstar hmem⟩

end Run

end ParaCL
