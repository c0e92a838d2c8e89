import ParaCL.Parser.Derivations

/-!
# `Parser.Acceptance` — what `My_parser::parse` accepts

The parser returns 0 with no error collected exactly when the lexer hands out a sequence of tokens that
`program` derives without the `error` productions and without recording an error, and then one more end
of input: `$accept` shifts a `TOK_EOF` of its own after the one of `program`.
-/

namespace ParaCL

open Lib Bison

/-! ## The tables -/

/-- The tables of `Parser.Tables`, with what they promise. -/
def tables : grammar.Slr where
  nullable := Lhs.nullable
  first := Lhs.first
  follow := Lhs.follow
  nullable_rule r := (Rule.promises r (Rule.mem_all r)).1
  first_rule r := (Rule.promises r (Rule.mem_all r)).2.1
  follow_first r d a h := by
    have hd := List.mem_range.mpr (List.getElem?_eq_some_iff.mp h).1
    exact ((Rule.promises r (Rule.mem_all r)).2.2 d hd a (Lhs.mem_all a) h).1
  follow_rule r d a h := by
    have hd := List.mem_range.mpr (List.getElem?_eq_some_iff.mp h).1
    exact ((Rule.promises r (Rule.mem_all r)).2.2 d hd a (Lhs.mem_all a) h).2
  settled := Grammar.settled_of_check check_settled

/-- Nothing can be shifted after the last end of input. -/
theorem expected_final :
    grammar.expected [.terminal .tokEof, .nonterminal (.of .program)] = [] := by decide +kernel

/-! ## The actions report monotonically -/

section Errors

variable {r : Rule} {vs : List SemanticValue} {s s' : MyParser} {v : SemanticValue} {x y : Name}
  {loc : Location}

theorem errors_error (e : ParseError) : s.errors <+: (s.error loc e).errors := List.prefix_append ..

theorem errors_popScope (h : s.popScope = .ok s') : s'.errors = s.errors := by
  unfold MyParser.popScope at h
  split at h
  · cases h; rfl
  · cases h

theorem errors_addVarToScope (h : s.addVarToScope x = .ok (y, s')) : s'.errors = s.errors := by
  unfold MyParser.addVarToScope at h
  split at h
  · cases h; rfl
  · cases h

theorem errors_assignName (h : s.assignName x = .ok (y, s')) : s'.errors = s.errors := by
  unfold MyParser.assignName at h
  split at h
  · cases h; rfl
  · exact errors_addVarToScope h

theorem errors_useName (h : s.useName x loc = .ok (y, s')) : s.errors <+: s'.errors := by
  unfold MyParser.useName at h
  split at h
  · cases h; exact List.prefix_refl _
  · rw [errors_addVarToScope h]
    exact errors_error _

/-- The actions only add to the errors. -/
theorem errors_act (h : act r vs s = .ok (v, s')) : s.errors <+: s'.errors := by
  cases act_acts h with
  | build => exact List.prefix_refl _
  | toplevelBrace => exact errors_error _
  | assignment hx => rw [errors_assignName hx]
  | primaryId hx => exact errors_useName hx
  | opens => exact List.prefix_refl _
  | closes _ hp => rw [errors_popScope hp]
  | declares _ hx => rw [errors_addVarToScope hx]

end Errors

/-! ## The runs that accept -/

section Accepts

variable {L : Type} {lex : L → Except Escape (Lexed × Location × L)}
  {describe : List Terminal → Terminal → String} {l l' : L} {lts : List (Terminal × SemanticValue)}
  {ts : List Token} {s : MyParser} {c : Parse L}

/-- The lexer hands out tokens with their values. -/
theorem delivers_proper (h : Delivers (parserActions lex describe) l lts l') : Proper lts := by
  induction h with
  | nil => intro p hp; cases hp
  | @cons l l1 l' tok lts hlex _ ih =>
      intro p hp
      rcases List.mem_cons.mp hp with rfl | hp
      · obtain ⟨lexed, loc, _, rfl⟩ := parser_lex_eq.mp hlex
        cases lexed with
        | token t => exact ⟨t, loc, rfl⟩
        | unknown => exact ⟨.tokEof, loc, rfl⟩
      · exact ih p hp

/-- Without an error reported so far. -/
def MyParser.Clean (s : MyParser) : Prop := s.errors = []

theorem reports_clean : Reports (parserActions lex describe) MyParser.Clean where
  act := by
    intro r vs s s' v h hc
    have hp := errors_act h
    rw [hc] at hp
    exact List.prefix_nil.mp hp
  report := by
    intro es tok s hc
    exact absurd (List.append_eq_nil_iff.mp hc).2 (List.cons_ne_nil _ _)

/-- **A program that is derived is accepted**, if another end of input follows its own. -/
theorem accepts_of_derives {ss : List (Option Statement)} {p' : ParserState} {w : SemanticValue}
    (h : Derives false .program ts s.core ss p') (hl : Located lts ts)
    (hdel : Delivers (parserActions lex describe) l (lts ++ [(.tokEof, w)]) l') :
    ∃ c, Ends (parseStep lex describe) (start l s) c .accept ∧ c.state.core = p' ∧
      c.stack.map Prod.snd = [w, .of .program ss] := by
  obtain ⟨s', hreads, hs'⟩ := reads_of_derives h lts s hl rfl
  obtain ⟨c, hends, hc, hst⟩ :=
    accepts_of_reads tables (a := .of .program) (e := .tokEof) rfl expected_final (by decide)
      (hreads.append (.terminal .nil)) hdel
  exact ⟨c, hends, by rw [hc, hs'], hst⟩

/-- **What is accepted without an error is a program.** -/
theorem derives_of_accepts (h : Ends (parseStep lex describe) (start l s) c .accept)
    (hc : c.state.Clean) :
    ∃ lts ts w w' ss l1, Delivers (parserActions lex describe) l (lts ++ [(.tokEof, w)]) l1 ∧
      Located lts ts ∧ Derives false .program ts s.core ss c.state.core ∧
      c.stack.map Prod.snd = [w', .of .program ss] := by
  obtain ⟨all, vs, hreads, hdel, hst⟩ := reads_of_accepts reports_clean h hc
  have hproper : Proper all := fun p hp => delivers_proper hdel p (List.mem_append_left _ hp)
  obtain ⟨ts, ss, _, _, rfl, hd, h1⟩ := (derivedAll_of_reads hreads hproper).after.nonterminal
  obtain ⟨loc, _, rfl, h2⟩ := h1.plain rfl
  obtain ⟨hall, rfl, hs⟩ := h2.stop
  obtain ⟨lts, r, rfl, hlts, hr⟩ := located_append.mp hall
  obtain ⟨loc', _, rfl, hnil⟩ := located_cons.mp hr
  obtain rfl := located_nil.mp hnil
  obtain ⟨l1, hdel1, _⟩ := hdel.split
  exact ⟨lts, ts, _, _, ss, l1, hdel1, hlts, hs ▸ hd, hst⟩

end Accepts

end ParaCL
