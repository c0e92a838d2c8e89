import ParaCL.Parser.Termination

/-!
# `Parser.Diagnostics` — what reaches the user of a parse

The driver prints the collected errors after `parse` has returned. `std::stoi` throws on a literal above
`INT_MAX`, in the `yylex` of `parser.y`: nothing between there and `main` catches it, so it ends the parse
and takes the errors collected so far with it.
-/

namespace ParaCL

open Lib Bison

/-- What the driver prints for a parse that ended in this state with this result. -/
def printed (s : MyParser) : ParseResult Escape → List ErrorInfo
  | .accept | .abort => s.errors
  | .escape _ => []

/-- The next token is the literal of this piece. -/
def LiteralNext (L : Lexer) (p : Piece) : Prop :=
  ∃ gap v, (∀ g ∈ gap, g.Separates) ∧ p.action = .number ∧ Scanned L.input (gap ++ [p]) v

section Literals

variable {L : Lexer} {p : Piece}

theorem stoi_ok (h : decimal p.lexeme ≤ intMax) :
    ∃ n, stoi p.lexeme = .ok n ∧ n.toNat = decimal p.lexeme := by
  refine ⟨_, if_pos h, ?_⟩
  rw [BitVec.toNat_ofNat]
  exact Nat.mod_eq_of_lt (Nat.lt_of_le_of_lt h (by decide))

theorem stoi_error (h : intMax < decimal p.lexeme) : stoi p.lexeme = .error .outOfRange :=
  if_neg (Nat.not_le.mpr h)

/-- A literal is converted where it is scanned. -/
theorem yylex_literal (h : LiteralNext L p) :
    ∃ loc L', yylex L = (stoi p.lexeme).map (fun n => (.token (.tokNumber n), loc, L')) := by
  obtain ⟨gap, v, hgap, hp, hs⟩ := h
  have hsep : ¬ p.Separates := by
    rw [Piece.Separates, hp]
    exact Option.some_ne_none _
  refine ⟨locationOf L (L.applyAll (gap ++ [p]) v), L.applyAll (gap ++ [p]) v, ?_⟩
  rw [yylex_of_piece hgap hsep hs, Piece.lexed, hp]
  cases stoi p.lexeme <;> rfl

/-- Only a literal out of range makes a call of `yylex` throw. -/
theorem literal_of_error {e : Escape} (h : yylex L = .error e) :
    ∃ p, LiteralNext L p ∧ intMax < decimal p.lexeme := by
  cases callTakes L with
  | eof hgap hs =>
      obtain ⟨_, hcall, _⟩ := yylex_of_eof hgap hs
      rw [hcall] at h
      cases h
  | @piece gap p v hgap hp hs =>
      cases ha : p.action with
      | number =>
          have hlit : LiteralNext L p := ⟨gap, v, hgap, ha, hs⟩
          refine ⟨p, hlit, Nat.lt_of_not_le (fun hle => ?_)⟩
          obtain ⟨_, _, hcall⟩ := yylex_literal hlit
          obtain ⟨n, hn, _⟩ := stoi_ok hle
          rw [hcall, hn] at h
          cases h
      | _ =>
          rw [yylex_of_piece hgap hp hs, Piece.lexed, ha] at h
          cases h

end Literals

/-! ## The parse -/

section Parse

variable {describe : List Terminal → Terminal → String} {text : List Char} {n : Nat} {c d : Parse Lexer}

/-- `parse` returns, every error recorded on the way is printed, and every literal it comes to is handed
    out with its value or has an error at its place printed. -/
def KeepsDiagnostics (describe : List Terminal → Terminal → String) (text : List Char) (n : Nat) : Prop :=
  ∃ c r, Ends (parseStep yylex describe) (parseStart text n) c r ∧ (∀ e, r ≠ .escape e) ∧
    ∀ d, Star (parseStep yylex describe) (parseStart text n) d →
      d.state.errors <+: printed c.state r ∧
      ∀ p, Asks d → LiteralNext d.lexer p →
        (∃ n loc L, yylex d.lexer = .ok (.token (.tokNumber n), loc, L) ∧ n.toNat = decimal p.lexeme) ∨
          ∃ e ∈ printed c.state r, e.loc = locationOf d.lexer d.lexer.yylex.2

/-- A step only adds errors. -/
theorem errors_step {a b : Parse Lexer} (hs : parseStep yylex describe a = .inl b) :
    a.state.errors <+: b.state.errors := by
  cases parseStep_does hs with
  | reduce _ _ _ ha => exact errors_act ha
  | report => exact errors_error _
  | pop | shiftError | lex | shift | retry | discard => exact List.prefix_refl _

/-- Asking for a literal out of range ends the parse. -/
theorem escape_of_literal {p : Piece} (ha : Asks d) (hp : LiteralNext d.lexer p)
    (hlt : intMax < decimal p.lexeme) :
    parseStep yylex describe d = .inr (.escape .outOfRange) := by
  obtain ⟨hpop, hl, hno⟩ := ha
  obtain ⟨_, _, hcall⟩ := yylex_literal hp
  rw [stoi_error hlt] at hcall
  exact step_lexEscape hpop hl hno (parser_lex_error.mpr hcall)

theorem KeepsDiagnostics.in_range {p : Piece} (h : KeepsDiagnostics describe text n)
    (hd : Star (parseStep yylex describe) (parseStart text n) d) (ha : Asks d) (hp : LiteralNext d.lexer p) :
    decimal p.lexeme ≤ intMax := by
  obtain ⟨c, r, hends, hr, _⟩ := h
  refine Nat.le_of_not_lt (fun hlt => ?_)
  obtain ⟨_, rfl⟩ := hends.unique ⟨hd, escape_of_literal ha hp hlt⟩
  exact hr _ rfl

/-- While the parser recovers from an error, the error has been recorded. -/
def Blamed (c : Parse Lexer) : Prop := c.popping = true ∨ c.status ≠ 0 → c.state.errors ≠ []

theorem Blamed.step {a b : Parse Lexer} (h : Blamed a) (hs : parseStep yylex describe a = .inl b) : Blamed b := by
  have herrors := errors_step hs
  have hkeep (ha : a.state.errors ≠ []) : b.state.errors ≠ [] := fun hb => ha (List.prefix_nil.mp (hb ▸ herrors))
  cases parseStep_does hs with
  | pop hp => exact fun _ => hkeep (h (.inl hp))
  | shiftError hp => exact fun _ => hkeep (h (.inl hp))
  | lex => exact fun hb => hkeep (h hb)
  | shift =>
      refine fun hb => hkeep (h (hb.imp_right (fun hne h0 => hne ?_)))
      show a.status - 1 = 0
      rw [h0]
  | reduce =>
      refine fun hb => hkeep (h (hb.imp_right (fun hne h0 => hne ?_)))
      show (if _ then 0 else a.status) = 0
      rw [h0, ite_self]
  | report => exact fun _ => by simp [parserActions, MyParser.error]
  | retry _ _ hst => exact fun _ => hkeep (h (.inr hst))
  | discard _ _ hst => exact fun _ => hkeep (h (.inr (by omega)))

/-- **A parse that gives up has recorded an error.** -/
theorem errors_of_abort (h : Ends (parseStep yylex describe) (parseStart text n) c .abort) :
    c.state.errors ≠ [] := by
  have hblamed : Blamed c :=
    h.1.invariant Blamed.step (show Blamed (parseStart text n) from fun hb => by simp [parseStart, Bison.start] at hb)
  have hd := step_does (G := grammar) (A := parserActions yylex describe) c
  rw [show Bison.step grammar (parserActions yylex describe) c = _ from h.2] at hd
  cases hd with
  | empty hp => exact hblamed (.inl hp)
  | giveUp _ _ hst => exact hblamed (.inr (by omega))

/-- **The parser throws at a literal out of range only.** -/
theorem literal_of_escape {e : Escape} (h : Ends (parseStep yylex describe) (parseStart text n) c (.escape e)) :
    e = .outOfRange ∧ Asks c ∧ ∃ p, LiteralNext c.lexer p ∧ intMax < decimal p.lexeme := by
  obtain ⟨hasks, hcall⟩ := ((stackOk_start text n).star h.1).escape h.2
  obtain ⟨p, hp, hlt⟩ := literal_of_error hcall
  obtain ⟨_, _, hcall'⟩ := yylex_literal hp
  rw [hcall, stoi_error hlt] at hcall'
  cases hcall'
  exact ⟨rfl, hasks, p, hp, hlt⟩

/-- **When parsing keeps its diagnostics.** Exactly if the parser never asks for a literal above
    `INT_MAX`. -/
theorem keeps_diagnostics_iff : KeepsDiagnostics describe text n ↔
    ∀ d p, Star (parseStep yylex describe) (parseStart text n) d → Asks d → LiteralNext d.lexer p →
      decimal p.lexeme ≤ intMax := by
  constructor
  · intro h d p hd ha hp
    exact h.in_range hd ha hp
  · intro hall
    obtain ⟨c, r, hends⟩ := parse_ends text n
    have hr : ∀ e, r ≠ .escape e := by
      rintro e rfl
      obtain ⟨hasks, hcall⟩ := ((stackOk_start text n).star hends.1).escape hends.2
      obtain ⟨p, hp, hlt⟩ := literal_of_error hcall
      exact absurd (hall c p hends.1 hasks hp) (Nat.not_le.mpr hlt)
    have hprinted : printed c.state r = c.state.errors := by
      cases r with
      | accept | abort => rfl
      | escape e => exact absurd rfl (hr e)
    refine ⟨c, r, hends, hr, fun d hd => ⟨?_, fun p ha hp => .inl ?_⟩⟩
    · obtain ⟨k, hk⟩ := hd
      rw [hprinted]
      exact hends.obs_extends (fun a b => errors_step) hk
    · obtain ⟨loc, L, hcall⟩ := yylex_literal hp
      obtain ⟨v, hv, hval⟩ := stoi_ok (hall d p hd ha hp)
      exact ⟨v, loc, L, by rw [hcall, hv]; rfl, hval⟩

/-- A parse that ends without an exception has come to no literal above `INT_MAX`. -/
theorem in_range_of_ends {r : ParseResult Escape}
    (h : Ends (parseStep yylex describe) (parseStart text n) c r) (hr : ∀ e, r ≠ .escape e)
    {d : Parse Lexer} {p : Piece} (hd : Star (parseStep yylex describe) (parseStart text n) d) (ha : Asks d)
    (hp : LiteralNext d.lexer p) : decimal p.lexeme ≤ intMax := by
  by_contra hlt
  have hescape : parseStep yylex describe d = .inr (.escape .outOfRange) :=
    escape_of_literal ha hp (Nat.not_le.mp hlt)
  exact hr _ (h.unique ⟨hd, hescape⟩).2

/-- `2` is an error after `1`. -/
theorem keeps_diagnostics_iff_twoNumbers : KeepsDiagnostics (fun _ _ => "") "1 2;".toList 0 := by
  have hrun : (runToEnd (parseStep yylex (fun _ _ => "")) 40 (parseStart "1 2;".toList 0)).any
      (fun r => match r.2 with | .escape _ => false | _ => true) = true := by decide +kernel
  cases hr : runToEnd (parseStep yylex (fun _ _ => "")) 40 (parseStart "1 2;".toList 0) with
  | none =>
      rw [hr] at hrun
      cases hrun
  | some r =>
      have hends := ends_iff_runToEnd.mpr ⟨40, hr⟩
      refine keeps_diagnostics_iff.mpr fun d p hd ha hp => in_range_of_ends hends (fun e he => ?_) hd ha hp
      rw [hr, Option.any_some, he] at hrun
      cases hrun

/-- The first literal above `INT_MAX`. -/
theorem loses_diagnostics : ¬ KeepsDiagnostics (fun _ _ => "") "2147483648".toList 0 := by
  intro h
  obtain ⟨d, hd, hasks, hlexer⟩ : ∃ d, Star (parseStep yylex (fun _ _ => ""))
      (parseStart "2147483648".toList 0) d ∧ Asks d ∧ d.lexer = .init "2147483648".toList 0 := by
    refine ⟨⟨[(.nonterminal (.of .toplevelStmtList), .of .toplevelStmtList [])], none, _, 0, false, _⟩,
      .one ((step_reduce rfl ⟨reduces_start.1, .inl ⟨rfl, reduces_start.2⟩⟩).trans rfl),
      ⟨rfl, rfl, ?_⟩, rfl⟩
    rintro ⟨it, hc, _⟩
    exact absurd (shifts_list.1.symm.trans hc) (by simp)
  have hnext : LiteralNext d.lexer ⟨.number, "2147483648".toList⟩ := by
    rw [hlexer]
    exact ⟨[], [], by simp, rfl, .cons (by decide +kernel) .nil⟩
  exact absurd (h.in_range hd hasks hnext) (by decide)

end Parse

end ParaCL
