import ParaCL.Parser.Lexing

/-!
# `Parser.Layout` — lexing undoes rendering

A sequence of tokens is written with a separator after each: a blank, a tab or a newline and then any mix of
these and of comments. No rule matches across the first character of a separator, and the rule that matches
the whole lexeme first is the token's (`nextPiece_token`); a separator is cut into pieces that are skipped
(`fillers_scanned`). So the calls of `yylex` hand out the tokens that were written, whatever the layout.
-/

namespace ParaCL

open Lib

/-! ## Writing tokens -/

/-- The text a token is written with. The end of the file has none. -/
def Token.lexeme : Token → List Char
  | .tokIf => ['i', 'f']
  | .tokElse => ['e', 'l', 's', 'e']
  | .tokWhile => ['w', 'h', 'i', 'l', 'e']
  | .tokPrint => ['p', 'r', 'i', 'n', 't']
  | .tokInput => ['?']
  | .tokFunc => ['f', 'u', 'n', 'c']
  | .tokReturn => ['r', 'e', 't', 'u', 'r', 'n']
  | .tokPlus => ['+']
  | .tokMinus => ['-']
  | .tokMul => ['*']
  | .tokDiv => ['/']
  | .tokRemDiv => ['%']
  | .tokAnd => ['&']
  | .tokXor => ['^']
  | .tokOr => ['|']
  | .tokNot => ['!']
  | .tokLogOr => ['|', '|']
  | .tokLogAnd => ['&', '&']
  | .tokAssign => ['=']
  | .tokEq => ['=', '=']
  | .tokNeq => ['!', '=']
  | .tokLess => ['<']
  | .tokGreater => ['>']
  | .tokLessOrEq => ['<', '=']
  | .tokGreaterOrEq => ['>', '=']
  | .tokLeftParen => ['(']
  | .tokRightParen => [')']
  | .tokLeftBrace => ['\x7b']
  | .tokRightBrace => ['\x7d']
  | .tokSemicolon => [';']
  | .tokComma => [',']
  | .tokColon => [':']
  | .tokId text => text.toList
  | .tokNumber value => Nat.toDigits 10 value.toNat
  | .tokEof => []

/-- The words that are no identifiers. -/
def keywords : List (List Char) :=
  [Token.tokIf, Token.tokElse, Token.tokWhile, Token.tokPrint, Token.tokFunc, Token.tokReturn].map
    Token.lexeme

/-- `[a-zA-Z_][a-zA-Z0-9_]*` -/
def isIdentifier : List Char → Bool
  | [] => false
  | c :: cs => (c.isAlpha || c = '_') && cs.all (fun c => c.isAlphanum || c = '_')

/-- The tokens that can be written: identifiers that are no keywords, numbers from 0 to 2^31 - 1. -/
def Token.writable : Token → Bool
  | .tokId text => isIdentifier text.toList && !keywords.contains text.toList
  | .tokNumber value => 0 ≤ value.toInt
  | .tokEof => false
  | _ => true

/-- What a separator is made of. -/
inductive Filler where
  | blank
  | tab
  | newline
  | lineComment (content : List Char)
  | blockComment (content : List Char)

/-- No `*` is followed by a `/`. -/
def staysOpen : List Char → Bool
  | [] => true
  | c :: cs => !(c == '*' && cs.head? == some '/') && staysOpen cs

namespace Filler

/-- A line comment is closed by a newline. -/
def text : Filler → List Char
  | blank => [' ']
  | tab => ['\t']
  | newline => ['\n']
  | lineComment content => ['/', '/'] ++ content ++ ['\n']
  | blockComment content => ['/', '*'] ++ content ++ ['*', '/']

/-- The comment ends where its text does. -/
def closed : Filler → Bool
  | lineComment content => !content.contains '\n'
  | blockComment content => staysOpen content
  | _ => true

/-- A blank, a tab or a newline. -/
def isSpace : Filler → Bool
  | blank | tab | newline => true
  | _ => false

end Filler

/-- The text between two tokens. -/
structure Separator where
  first : Filler
  rest : List Filler
  space : first.isSpace = true
  closed : ∀ f ∈ rest, f.closed = true

def Separator.text (s : Separator) : List Char := (s.first :: s.rest).flatMap Filler.text

/-- The text of some tokens, each with the separator after it. -/
def writeTokens (ts : List (Token × Separator)) : List Char :=
  ts.flatMap (fun p => p.1.lexeme ++ p.2.text)

/-- Some calls of `yylex`. -/
def yylexCalls : Nat → Lexer → Except Escape (List Lexed)
  | 0, _ => .ok []
  | n + 1, L => do
      let (lexed, _, L) ← yylex L
      return lexed :: (← yylexCalls n L)

/-! ## The rules again -/

/-- The rules that match neither separators nor unexpected characters. -/
def tokenRules : List (ScanRule Char LexAction) :=
  fixedTokens.map (fun (text, t) => fixedRule text t) ++
    [⟨.seq Patterns.number1 (.star Patterns.number), .number⟩, ⟨Patterns.zero, .number⟩,
      ⟨Patterns.id, .id⟩]

theorem lexerRules_eq : lexerRules =
    [⟨Patterns.whitespace, .advance⟩, ⟨Patterns.newline, .newline⟩, ⟨Patterns.lineComment, .advance⟩,
      ⟨Patterns.blockComment, .skip⟩] ++ tokenRules ++ [⟨.char Patterns.any, .unknown⟩] := rfl

/-- The characters a separator may start with. -/
def spaces : List Char := [' ', '\t', '\n']

theorem tokenRules_avoid : ∀ rule ∈ tokenRules, ∀ c ∈ spaces, rule.pattern.avoids c = true := by
  have h : tokenRules.all (fun rule => spaces.all (fun c => rule.pattern.avoids c)) = true := by decide
  intro rule hr c hc
  exact List.all_eq_true.mp (List.all_eq_true.mp h rule hr) c hc

/-- `[ \t\r\v]` -/
def isBlank (c : Char) : Bool := c = ' ' || c = '\t' || c = '\r' || c = '\x0b'

/-- `[a-zA-Z0-9_]` -/
def isWord (c : Char) : Bool := c.isAlphanum || c = '_'

/-- No rule goes on from the text with this character. -/
def apart (l : List Char) (c : Char) : Bool :=
  !(l.all isWord && isWord c) && !(l = ['/'] && (c = '/' || c = '*')) &&
    fixedTokens.all (fun p => !(l ++ [c]).isPrefixOf p.1)

/-! ## Block comments -/

section Comments

variable {u w : List Char} {c : Char}

theorem staysOpen_append_close : staysOpen (u ++ '*' :: '/' :: w) = false := by
  induction u with
  | nil => rfl
  | cons c u ih => rw [List.cons_append, staysOpen, ih, Bool.and_false]

theorem staysOpen_snoc_star (h : staysOpen u = true) : staysOpen (u ++ ['*']) = true := by
  induction u with
  | nil => rfl
  | cons c u ih =>
      rw [staysOpen, Bool.and_eq_true] at h
      rw [List.cons_append, staysOpen, ih h.2, Bool.and_true]
      cases u with
      | nil => simp
      | cons d u => exact h.1

/-- Text in front that does not end in a star closes nothing. -/
theorem staysOpen_prepend (hc : c ≠ '*') (h : staysOpen u = true) : staysOpen (c :: u) = true := by
  rw [staysOpen, h, Bool.and_true]
  simp [hc]

/-- What stands between the stars of a comment. -/
def commentPart : Regex Char :=
  .alt (.char (· ≠ '*')) (.seq (Regex.plus (.char (· = '*'))) (.char (fun c => c ≠ '*' && c ≠ '/')))

/-- The end of a comment. -/
def commentTail : Regex Char := .seq (Regex.plus (.char (· = '*'))) (.char (· = '/'))

def commentRest : Regex Char := .seq (.star commentPart) commentTail

theorem blockComment_eq : Patterns.blockComment = .seq (Regex.literal ['/', '*']) commentRest := rfl

theorem star_stars (n : Nat) : (Regex.star (.char (· = '*'))).Matches (List.replicate n '*') := by
  induction n with
  | zero => exact .starNil
  | succ n ih => exact .starCons (v := ['*']) (.char rfl) ih

theorem plus_stars (n : Nat) : (Regex.plus (.char (· = '*'))).Matches (List.replicate (n + 1) '*') :=
  .seq (v := ['*']) (.char rfl) (star_stars n)

theorem commentRest_part (h : commentPart.Matches u) (hw : commentRest.Matches w) :
    commentRest.Matches (u ++ w) := by
  obtain ⟨x, y, rfl, hx, hy⟩ := Regex.matches_seq.mp hw
  rw [← List.append_assoc]
  exact .seq (.starCons h hx) hy

/-- An open text and the closing is the rest of a comment, also after some stars. -/
theorem commentRest_of_open (u : List Char) :
    (staysOpen u = true → commentRest.Matches (u ++ ['*', '/'])) ∧
      ∀ n, staysOpen ('*' :: u) = true →
        commentRest.Matches (List.replicate (n + 1) '*' ++ (u ++ ['*', '/'])) := by
  induction u with
  | nil =>
      refine ⟨fun _ => .seq (v := []) .starNil (.seq (v := ['*']) (plus_stars 0) (.char rfl)), fun n _ => ?_⟩
      have htail : commentTail.Matches (List.replicate (n + 2) '*' ++ ['/']) :=
        .seq (plus_stars (n + 1)) (.char rfl)
      rw [List.replicate_succ', List.append_assoc] at htail
      exact .seq (v := []) .starNil htail
  | cons c u ih =>
      have htail : staysOpen (c :: u) = true → staysOpen u = true := fun h => by
        rw [staysOpen, Bool.and_eq_true] at h
        exact h.2
      -- outside and inside a run of stars; only behind one a `/` would close
      refine ⟨fun h => ?_, fun n h => ?_⟩
      · by_cases hc : c = '*'
        · subst hc
          exact ih.2 0 h
        · exact commentRest_part (u := [c]) (.altLeft (.char (by simpa using hc))) (ih.1 (htail h))
      · have hcu : staysOpen (c :: u) = true := by
          rw [staysOpen, Bool.and_eq_true] at h
          exact h.2
        by_cases hc : c = '*'
        · subst hc
          have hmore := ih.2 (n + 1) hcu
          rw [List.replicate_succ', List.append_assoc] at hmore
          exact hmore
        · have hslash : c ≠ '/' := by
            rintro rfl
            rw [staysOpen] at h
            simp at h
          have hpart : commentPart.Matches (List.replicate (n + 1) '*' ++ [c]) :=
            .altRight (.seq (plus_stars n) (.char (by simp [hc, hslash])))
          have hrest := commentRest_part hpart (ih.1 (htail hcu))
          rw [List.append_assoc] at hrest
          exact hrest

theorem blockComment_matches (h : staysOpen u = true) :
    Patterns.blockComment.Matches (['/', '*'] ++ u ++ ['*', '/']) := by
  rw [blockComment_eq, List.append_assoc]
  exact .seq (Regex.matches_literal.mpr rfl) ((commentRest_of_open u).1 h)

theorem stars_of_plus (h : (Regex.plus (.char (· = '*'))).Matches u) :
    ∃ n, u = List.replicate (n + 1) '*' := by
  obtain ⟨x, y, rfl, hx, hy⟩ := Regex.matches_seq.mp h
  have hchar : ∀ v, (Regex.char (· = '*')).Matches v → v = ['*'] := by
    intro v hv
    obtain ⟨c, hc, rfl⟩ := Regex.matches_char.mp hv
    rw [of_decide_eq_true hc]
  have hstar : ∃ n, y = List.replicate n '*' := by
    refine Regex.star_induction (P := fun y => ∃ n, y = List.replicate n '*') ⟨0, rfl⟩ ?_ hy
    rintro v w hv _ ⟨n, rfl⟩
    exact ⟨n + 1, by rw [hchar v hv]; rfl⟩
  obtain ⟨n, rfl⟩ := hstar
  exact ⟨n, by rw [hchar x hx]; rfl⟩

theorem staysOpen_stars (n : Nat) (hc : c ≠ '/') (h : staysOpen (c :: u) = true) :
    staysOpen (List.replicate n '*' ++ c :: u) = true := by
  induction n with
  | zero => exact h
  | succ n ih =>
      rw [List.replicate_succ, List.cons_append, staysOpen, ih, Bool.and_true]
      cases n with
      | zero => simp [hc]
      | succ n => rfl

theorem staysOpen_part (h : commentPart.Matches u) (hw : staysOpen w = true) : staysOpen (u ++ w) = true := by
  rcases Regex.matches_alt.mp h with h | h
  · obtain ⟨c, hc, rfl⟩ := Regex.matches_char.mp h
    exact staysOpen_prepend (by simpa using hc) hw
  · obtain ⟨x, y, rfl, hx, hy⟩ := Regex.matches_seq.mp h
    obtain ⟨n, rfl⟩ := stars_of_plus hx
    obtain ⟨c, hc, rfl⟩ := Regex.matches_char.mp hy
    rw [Bool.and_eq_true] at hc
    have hstar : c ≠ '*' := by simpa using hc.1
    rw [List.append_assoc]
    exact staysOpen_stars _ (by simpa using hc.2) (staysOpen_prepend hstar hw)

theorem staysOpen_replicate (n : Nat) : staysOpen (List.replicate n '*') = true := by
  induction n with
  | zero => rfl
  | succ n ih =>
      rw [List.replicate_succ, staysOpen, ih]
      cases n <;> rfl

/-- The rest of a comment ends at the first closing. -/
theorem open_of_commentRest (h : commentRest.Matches w) :
    ∃ u, w = u ++ ['*', '/'] ∧ staysOpen u = true := by
  obtain ⟨x, y, rfl, hx, hy⟩ := Regex.matches_seq.mp h
  obtain ⟨s, e, rfl, hs, he⟩ := Regex.matches_seq.mp hy
  obtain ⟨n, rfl⟩ := stars_of_plus hs
  obtain ⟨c, hc, rfl⟩ := Regex.matches_char.mp he
  rw [of_decide_eq_true hc]
  refine ⟨x ++ List.replicate n '*', by simp [List.replicate_succ'], ?_⟩
  refine Regex.star_induction (P := fun x => staysOpen (x ++ List.replicate n '*') = true)
    (staysOpen_replicate n) ?_ hx
  intro v w hv _ ih
  rw [List.append_assoc]
  exact staysOpen_part hv ih

end Comments

section Rules

variable {w v l : List Char} {c d : Char}

theorem matches_whitespace (h : Patterns.whitespace.Matches w) : ∀ d ∈ w, isBlank d = true :=
  Regex.of_plus_char h

theorem matches_lineComment (h : Patterns.lineComment.Matches w) : ∃ u, w = '/' :: '/' :: u := by
  obtain ⟨x, y, rfl, hx, _⟩ := Regex.matches_seq.mp h
  rw [Regex.matches_literal.mp hx]
  exact ⟨y, rfl⟩

theorem matches_blockComment (h : Patterns.blockComment.Matches w) :
    ∃ u, w = '/' :: '*' :: (u ++ ['*', '/']) ∧ staysOpen u = true := by
  rw [blockComment_eq] at h
  obtain ⟨x, y, rfl, hx, hy⟩ := Regex.matches_seq.mp h
  obtain ⟨u, rfl, hu⟩ := open_of_commentRest hy
  exact ⟨u, by rw [Regex.matches_literal.mp hx]; rfl, hu⟩

/-- A text that starts a token: no separator, no comment. -/
structure TokenText (l : List Char) : Prop where
  ne : l ≠ []
  head : ∀ c ∈ l.head?, isBlank c = false
  slash : l = ['/'] ∨ l.head? ≠ some '/'

/-- No comment starts there, even with what follows. -/
theorem TokenText.no_comment (hl : TokenText l) (hc : l = ['/'] → c ≠ '/' ∧ c ≠ '*') (hd : d = '/' ∨ d = '*')
    (u : List Char) : l ++ c :: w ≠ '/' :: d :: u := by
  intro h
  rcases hl.slash with rfl | hs
  · rw [List.singleton_append, List.cons.injEq, List.cons.injEq] at h
    rcases hd with rfl | rfl
    · exact (hc rfl).1 h.2.1
    · exact (hc rfl).2 h.2.1
  · obtain ⟨e, l', rfl⟩ := List.exists_cons_of_ne_nil hl.ne
    rw [List.cons_append, List.cons.injEq] at h
    exact hs (by rw [List.head?_cons, h.1])

/-- No rule matches more than the lexeme of what stands here. -/
def LexemeEnds (l w : List Char) : Prop :=
  ∀ rule ∈ lexerRules, ∀ d x, d :: x <+: w → ¬ rule.pattern.Matches (l ++ d :: x)

theorem LexemeEnds.nil : LexemeEnds l [] := by
  intro rule _ d x hx
  cases List.prefix_nil.mp hx

/-- The end of a token depends on the rules for tokens only, but for a `/` that may start a comment. -/
theorem ends_of_tokenRules (hl : TokenText l) (hc : l = ['/'] → c ≠ '/' ∧ c ≠ '*')
    (htoken : ∀ rule ∈ tokenRules, ∀ x, ¬ rule.pattern.Matches (l ++ c :: x)) : LexemeEnds l (c :: w) := by
  intro rule hr d x hx h
  obtain rfl : d = c := (List.cons_prefix_cons.mp hx).1
  have hlong : ∀ e : Char, l ++ d :: x ≠ [e] := by
    intro e he
    have hlen := congrArg List.length he
    have hpos := List.length_pos_of_ne_nil hl.ne
    simp only [List.length_append, List.length_cons, List.length_nil] at hlen
    omega
  -- the rules in front, those for tokens and the last one for any character
  rw [lexerRules_eq, List.mem_append, List.mem_append] at hr
  rcases hr with (hr | hr) | hr
  · simp only [List.mem_cons, List.not_mem_nil, or_false] at hr
    rcases hr with rfl | rfl | rfl | rfl
    · obtain ⟨e, l', rfl⟩ := List.exists_cons_of_ne_nil hl.ne
      have hblank := hl.head e (by simp)
      rw [matches_whitespace h e (by simp)] at hblank
      cases hblank
    · obtain ⟨e, _, he⟩ := Regex.matches_char.mp h
      exact hlong e he
    · obtain ⟨u, hu⟩ := matches_lineComment h
      exact hl.no_comment hc (.inl rfl) u hu
    · obtain ⟨u, hu, _⟩ := matches_blockComment h
      exact hl.no_comment hc (.inr rfl) _ hu
  · exact htoken rule hr x h
  · rw [List.mem_singleton.mp hr] at h
    obtain ⟨e, _, he⟩ := Regex.matches_char.mp h
    exact hlong e he

/-- **No rule matches across the end of a token** that a separator follows. -/
theorem ends_of_space (hl : TokenText l) (hc : c ∈ spaces) : LexemeEnds l (c :: w) := by
  refine ends_of_tokenRules hl (fun _ => ?_) (fun rule hr x h => ?_)
  · constructor
    · rintro rfl
      revert hc
      decide
    · rintro rfl
      revert hc
      decide
  · exact Regex.not_mem_of_avoids (tokenRules_avoid rule hr c hc) h (by simp)

/-- Numbers and identifiers are words. -/
theorem word_avoids {e : Char} (h : isWord e = false) :
    ∀ rule ∈ [⟨.seq Patterns.number1 (.star Patterns.number), .number⟩, ⟨Patterns.zero, .number⟩,
      (⟨Patterns.id, .id⟩ : ScanRule Char LexAction)], rule.pattern.avoids e = true := by
  obtain ⟨halnum, hunder⟩ := Bool.or_eq_false_iff.mp h
  obtain ⟨halpha, hdigit⟩ := Bool.or_eq_false_iff.mp (show (e.isAlpha || e.isDigit) = false from halnum)
  have hzero : decide (e = '0') = false := by
    refine decide_eq_false ?_
    rintro rfl
    cases hdigit
  intro rule hr
  simp only [List.mem_cons, List.not_mem_nil, or_false] at hr
  rcases hr with rfl | rfl | rfl
  · simp [Regex.avoids, Patterns.number1, Patterns.number, Regex.plus, hdigit]
  · simp only [Regex.avoids, Patterns.zero, hzero, Bool.not_false]
  · simp only [Regex.avoids, Patterns.id, halpha, halnum, hunder, Bool.or_self, Bool.not_false, Bool.and_self]

/-- **No rule matches across the end of a token** that is kept apart from what follows. -/
theorem ends_of_apart (hl : TokenText l) (hc : apart l c = true) : LexemeEnds l (c :: w) := by
  obtain ⟨hwords, hfixed⟩ := Bool.and_eq_true_iff.mp hc
  obtain ⟨hword, hslash⟩ := Bool.and_eq_true_iff.mp hwords
  refine ends_of_tokenRules hl (fun hs => ?_) (fun rule hr x h => ?_)
  · subst hs
    simpa using hslash
  · rcases List.mem_append.mp hr with hr | hr
    · obtain ⟨p, hp, rfl⟩ := List.mem_map.mp hr
      have htext : l ++ c :: x = p.1 := Regex.matches_literal.mp h
      have hno := List.all_eq_true.mp hfixed p hp
      have hyes : (l ++ [c]).isPrefixOf p.1 = true :=
        List.isPrefixOf_iff_prefix.mpr ⟨x, by rw [List.append_assoc]; exact htext⟩
      rw [hyes] at hno
      cases hno
    · obtain ⟨e, he, hno⟩ : ∃ e ∈ l ++ c :: x, isWord e = false := by
        cases hwc : isWord c with
        | false => exact ⟨c, by simp, hwc⟩
        | true =>
            rw [hwc, Bool.and_true, Bool.not_eq_true'] at hword
            obtain ⟨e, he, hno⟩ := List.all_eq_false.mp hword
            exact ⟨e, List.mem_append_left _ he, Bool.eq_false_iff.mpr hno⟩
      exact Regex.not_mem_of_avoids (word_avoids hno rule hr) h he

end Rules

/-! ## Tokens -/

section Tokens

variable {l w v : List Char} {c : Char} {t : Token} {a : LexAction}

theorem nextPiece_of_scan {rule : ScanRule Char LexAction}
    (h : scan lexerRules (l ++ w) = some (rule, l.length)) :
    nextPiece (l ++ w) = some (⟨rule.action, l⟩, w) := by
  rw [nextPiece, h]
  simp only [Option.map_some, List.take_left, List.drop_left]

/-- The lexeme is matched as a whole, by the first rule that can. -/
theorem nextPiece_lexeme {pre post : List (ScanRule Char LexAction)} {own : ScanRule Char LexAction}
    (hrules : lexerRules = pre ++ own :: post) (hown : own.pattern.Matches l) (he : LexemeEnds l w) :
    ∃ rule ∈ pre ++ [own], rule.pattern.Matches l ∧ nextPiece (l ++ w) = some (⟨rule.action, l⟩, w) := by
  have hmax : ∀ other ∈ pre ++ own :: post, ∀ d x, d :: x <+: w → ¬ other.pattern.Matches (l ++ d :: x) :=
    fun other ho => he other (hrules ▸ ho)
  obtain ⟨rule, hr, hm, hs⟩ := scan_exact hown hmax
  refine ⟨rule, hr, hm, ?_⟩
  rw [← hrules] at hs
  exact nextPiece_of_scan hs

/-- The same, with the rule found by trying all of them. -/
theorem nextPiece_of_find
    (hfind : (lexerRules.find? (fun rule => rule.pattern.longest l == some l.length)).map ScanRule.action =
      some a)
    (he : LexemeEnds l w) : nextPiece (l ++ w) = some (⟨a, l⟩, w) := by
  obtain ⟨own, hown, rfl⟩ := Option.map_eq_some_iff.mp hfind
  obtain ⟨hmatch, pre, post, hrules, hpre⟩ := List.find?_eq_some_iff_append.mp hown
  have hmatches : own.pattern.Matches l := by
    have h := (Regex.longest_matches (beq_iff_eq.mp hmatch)).2
    rwa [List.take_length] at h
  obtain ⟨rule, hr, hm, hn⟩ := nextPiece_lexeme hrules hmatches he
  rcases List.mem_append.mp hr with hr | hr
  · have hno := hpre rule hr
    rw [Regex.longest_of_matches hm] at hno
    simp at hno
  · rwa [List.mem_singleton.mp hr] at hn

/-- The rules in front of the tokens match no lexeme. -/
theorem not_separator (hl : TokenText l) (hn : l ≠ ['\n']) :
    ∀ rule ∈ lexerRules.take 4, ¬ rule.pattern.Matches l := by
  intro rule hr h
  obtain ⟨d, l', rfl⟩ := List.exists_cons_of_ne_nil hl.ne
  have hr : rule ∈ [⟨Patterns.whitespace, .advance⟩, ⟨Patterns.newline, .newline⟩,
    ⟨Patterns.lineComment, .advance⟩, (⟨Patterns.blockComment, .skip⟩ : ScanRule Char LexAction)] := hr
  simp only [List.mem_cons, List.not_mem_nil, or_false] at hr
  -- blanks, the newline and the two kinds of comments
  rcases hr with rfl | rfl | rfl | rfl
  · have hblank := hl.head d (by simp)
    rw [matches_whitespace h d (by simp)] at hblank
    cases hblank
  · obtain ⟨e, he, hd⟩ := Regex.matches_char.mp h
    rw [of_decide_eq_true he] at hd
    exact hn hd
  · obtain ⟨u, hu⟩ := matches_lineComment h
    rcases hl.slash with hs | hs
    · rw [hs] at hu
      cases hu
    · rw [hu] at hs
      exact hs rfl
  · obtain ⟨u, hu, _⟩ := matches_blockComment h
    rcases hl.slash with hs | hs
    · rw [hs] at hu
      cases hu
    · rw [hu] at hs
      exact hs rfl

/-- What a fixed text is matched by. -/
theorem matches_fixed {rule : ScanRule Char LexAction}
    (hr : rule ∈ fixedTokens.map (fun (text, t) => fixedRule text t)) (h : rule.pattern.Matches l) :
    ∃ t, (l, t) ∈ fixedTokens := by
  obtain ⟨⟨text, t⟩, hp, rfl⟩ := List.mem_map.mp hr
  exact ⟨t, Regex.matches_literal.mp h ▸ hp⟩

theorem fixedTokens_identifier :
    ∀ p ∈ fixedTokens, isIdentifier p.1 = true → keywords.contains p.1 = true := by
  decide

theorem fixedTokens_digit : ∀ p ∈ fixedTokens, ∀ d ∈ p.1.head?, d.isDigit = false := by
  have h : fixedTokens.all (fun p => p.1.head?.all (fun d => !d.isDigit)) = true := by decide
  intro p hp
  simpa [Option.all_eq_true] using List.all_eq_true.mp h p hp

theorem isIdentifier_cons {d : Char} : isIdentifier (d :: l) = true ↔
    (d.isAlpha || d = '_') = true ∧ ∀ c ∈ l, (c.isAlphanum || c = '_') = true := by
  rw [isIdentifier, Bool.and_eq_true, List.all_eq_true]

theorem identifier_matches (h : isIdentifier l = true) : Patterns.id.Matches l := by
  cases l with
  | nil => cases h
  | cons d l =>
      obtain ⟨hd, hl⟩ := isIdentifier_cons.mp h
      exact .seq (v := [d]) (.char hd) (Regex.star_char hl)

/-- A letter, an underscore or a digit starts no separator and no comment. -/
theorem word_head {d : Char} (h : (d.isAlphanum || d = '_') = true) :
    isBlank d = false ∧ d ≠ '/' ∧ d ≠ '\n' := by
  refine ⟨?_, ?_, ?_⟩
  · by_contra hb
    simp only [isBlank, Bool.not_eq_false, Bool.or_eq_true, decide_eq_true_eq] at hb
    rcases hb with ((rfl | rfl) | rfl) | rfl <;> revert h <;> decide
  · rintro rfl
    revert h
    decide
  · rintro rfl
    revert h
    decide

theorem tokenText_of_word {d : Char} (h : (d.isAlphanum || d = '_') = true) : TokenText (d :: l) where
  ne := List.cons_ne_nil d l
  head c hc := by
    obtain rfl : d = c := by simpa using hc
    exact (word_head h).1
  slash := .inr (by simpa using (word_head h).2.1)

/-- The two rules for numbers want a digit first. -/
theorem number_head {d : Char} (h : (Regex.seq Patterns.number1 (.star Patterns.number)).Matches (d :: l)) :
    d.isDigit = true := by
  obtain ⟨v, u, hv, hnum, _⟩ := Regex.matches_seq.mp h
  obtain ⟨x, y, rfl, hx, _⟩ := Regex.matches_seq.mp hnum
  obtain ⟨e, he, rfl⟩ := Regex.matches_char.mp hx
  rw [Bool.and_eq_true] at he
  rw [List.singleton_append, List.cons_append, List.cons.injEq] at hv
  rw [hv.1]
  exact he.1

theorem letter_not_digit {d : Char} (h : (d.isAlpha || d = '_') = true) : d.isDigit = false := by
  rcases Bool.or_eq_true_iff.mp h with h | h
  · have hv : (decide (d.val ≥ 'A'.val ∧ d.val ≤ 'Z'.val) || d.val ≥ 'a'.val && d.val ≤ 'z'.val) = true := h
    clear h
    simp only [Char.isDigit, UInt32.le_iff_toNat_le, Bool.or_eq_true, Bool.and_eq_true, decide_eq_true_eq,
      Bool.and_eq_false_iff, decide_eq_false_iff_not, ge_iff_le] at hv ⊢
    have h1 : ('A'.val).toNat = 65 := rfl
    have h2 : ('Z'.val).toNat = 90 := rfl
    have h3 : ('a'.val).toNat = 97 := rfl
    have h4 : ('z'.val).toNat = 122 := rfl
    have h5 : ('9'.val).toNat = 57 := rfl
    omega
  · rw [of_decide_eq_true h]
    decide

/-- **Identifiers.** -/
theorem nextPiece_identifier (hid : isIdentifier l = true) (hk : keywords.contains l = false)
    (he : LexemeEnds l w) : nextPiece (l ++ w) = some (⟨.id, l⟩, w) := by
  obtain ⟨d, l', rfl⟩ : ∃ d l', l = d :: l' := by
    cases l with
    | nil => cases hid
    | cons d l' => exact ⟨d, l', rfl⟩
  have hd := (isIdentifier_cons.mp hid).1
  have hword : (d.isAlphanum || d = '_') = true := by
    rw [Char.isAlphanum, Bool.or_assoc, Bool.or_comm d.isDigit, ← Bool.or_assoc, hd, Bool.true_or]
  have hdigit : d.isDigit = false := letter_not_digit hd
  have htext : TokenText (d :: l') := tokenText_of_word hword
  -- the identifiers are the last rule but one, so any other match must be excluded
  have hrules : lexerRules = (lexerRules.take 4 ++ fixedTokens.map (fun (text, t) => fixedRule text t) ++
      [⟨.seq Patterns.number1 (.star Patterns.number), .number⟩, ⟨Patterns.zero, .number⟩]) ++
      ⟨Patterns.id, .id⟩ :: [⟨.char Patterns.any, .unknown⟩] := rfl
  obtain ⟨rule, hr, hm, hn⟩ := nextPiece_lexeme hrules (identifier_matches hid) he
  simp only [List.mem_append, List.mem_cons, List.not_mem_nil, or_false] at hr
  rcases hr with ((hr | hr) | rfl | rfl) | rfl
  · have hnewline : d :: l' ≠ ['\n'] := fun h => (word_head hword).2.2 (List.cons.inj h).1
    exact absurd hm (not_separator htext hnewline rule hr)
  · obtain ⟨t, ht⟩ := matches_fixed hr hm
    rw [fixedTokens_identifier _ ht hid] at hk
    cases hk
  · rw [number_head hm] at hdigit
    cases hdigit
  · obtain ⟨e, he, hde⟩ := Regex.matches_char.mp hm
    rw [(List.cons.inj hde).1, of_decide_eq_true he] at hdigit
    cases hdigit
  · exact hn

/-- **Numbers** that do not start with a zero. -/
theorem nextPiece_number {d : Char} (hd : (d.isDigit && d ≠ '0') = true) (hl : ∀ c ∈ l, c.isDigit = true)
    (he : LexemeEnds (d :: l) w) : nextPiece (d :: l ++ w) = some (⟨.number, d :: l⟩, w) := by
  have hdigit : d.isDigit = true := (Bool.and_eq_true_iff.mp hd).1
  have hword : (d.isAlphanum || d = '_') = true := by
    rw [Char.isAlphanum, hdigit, Bool.or_true, Bool.true_or]
  have htext : TokenText (d :: l) := tokenText_of_word hword
  have hmatch : (Regex.seq Patterns.number1 (.star Patterns.number)).Matches (d :: l) := by
    have hfirst : Patterns.number1.Matches [d] := .seq (v := [d]) (.char hd) .starNil
    refine .seq (v := [d]) hfirst ?_
    cases l with
    | nil => exact .starNil
    | cons e l =>
        have hrest := Regex.Matches.starCons (Regex.plus_char hl) (.starNil (r := Patterns.number))
        rwa [List.append_nil] at hrest
  have hrules : lexerRules = (lexerRules.take 4 ++ fixedTokens.map (fun (text, t) => fixedRule text t)) ++
      ⟨.seq Patterns.number1 (.star Patterns.number), .number⟩ ::
        [⟨Patterns.zero, .number⟩, ⟨Patterns.id, .id⟩, ⟨.char Patterns.any, .unknown⟩] := rfl
  obtain ⟨rule, hr, hm, hn⟩ := nextPiece_lexeme hrules hmatch he
  simp only [List.mem_append, List.mem_cons, List.not_mem_nil, or_false] at hr
  -- an earlier rule would be a separator or a fixed text
  rcases hr with (hr | hr) | rfl
  · have hnewline : d :: l ≠ ['\n'] := fun h => (word_head hword).2.2 (List.cons.inj h).1
    exact absurd hm (not_separator htext hnewline rule hr)
  · obtain ⟨t, ht⟩ := matches_fixed hr hm
    have hno := fixedTokens_digit _ ht d rfl
    rw [hdigit] at hno
    cases hno
  · exact hn

/-! ### Numbers in decimal -/

theorem decimal_toDigits (n : Nat) : decimal (Nat.toDigits 10 n) = n := by
  have h : Nat.ofDigitChars 10 (Nat.toDigits 10 n) 0 = n := Nat.ofDigitChars_ten_toDigits
  rwa [Nat.ofDigitChars_eq_foldl] at h

/-- No leading zero. -/
theorem toDigits_head (n : Nat) (hn : 0 < n) : ∃ d l, Nat.toDigits 10 n = d :: l ∧
    (d.isDigit && d ≠ '0') = true := by
  induction n using Nat.strongRecOn with
  | ind n ih =>
      by_cases hlt : n < 10
      · refine ⟨n.digitChar, [], Nat.toDigits_of_lt_base hlt, ?_⟩
        have hcases : ∀ k < 10, 0 < k → (k.digitChar.isDigit && k.digitChar ≠ '0') = true := by decide
        exact hcases n hlt hn
      · obtain ⟨d, l, hd, hdigit⟩ := ih (n / 10) (by omega) (by omega)
        refine ⟨d, l ++ [(n % 10).digitChar], ?_, hdigit⟩
        rw [Nat.toDigits_of_base_le (by decide) (by omega), hd]
        rfl

theorem stoi_toDigits {v : Number} (hv : 0 ≤ v.toInt) : stoi (Nat.toDigits 10 v.toNat) = .ok v := by
  have hlt : v.toNat ≤ intMax := by
    have hcond := BitVec.toInt_eq_toNat_cond v
    have := v.isLt
    rw [intMax]
    split at hcond <;> omega
  rw [stoi, decimal_toDigits, if_pos hlt, BitVec.ofNat_toNat, BitVec.setWidth_eq]

theorem tokenText_of_head {d : Char} (hb : isBlank d = false) (hs : d :: l = ['/'] ∨ d ≠ '/') :
    TokenText (d :: l) where
  ne := List.cons_ne_nil d l
  head c hc := by
    obtain rfl : d = c := by simpa using hc
    exact hb
  slash := hs.imp_right (fun h => by simpa using h)

/-- **A token with its end**: the piece is the token. -/
theorem nextPiece_token (ht : t.writable = true) (he : LexemeEnds t.lexeme w) : ∃ p, ¬ p.Separates ∧
    p.lexed = .ok (.token t) ∧ nextPiece (t.lexeme ++ w) = some (p, w) := by
  cases t with
  | tokEof => cases ht
  | tokId text =>
      have hword : (isIdentifier text.toList && !keywords.contains text.toList) = true := ht
      rw [Bool.and_eq_true, Bool.not_eq_true'] at hword
      have hlexed : (⟨.id, text.toList⟩ : Piece).lexed =
          .ok (.token (.tokId (String.ofList text.toList))) := rfl
      rw [String.ofList_toList] at hlexed
      exact ⟨⟨.id, text.toList⟩, Option.some_ne_none _, hlexed, nextPiece_identifier hword.1 hword.2 he⟩
  | tokNumber v =>
      have hv : 0 ≤ v.toInt := of_decide_eq_true ht
      have hlexed (l : List Char) (hl : l = Nat.toDigits 10 v.toNat) :
          (⟨.number, l⟩ : Piece).lexed = .ok (.token (.tokNumber v)) := by
        rw [Piece.lexed, hl, stoi_toDigits hv]
        rfl
      refine ⟨⟨.number, Nat.toDigits 10 v.toNat⟩, Option.some_ne_none _, hlexed _ rfl, ?_⟩
      rw [Token.lexeme] at he ⊢
      -- 0 is a pattern of its own, other numbers start with a digit from 1 to 9
      by_cases hz : v.toNat = 0
      · rw [hz, Nat.toDigits_zero] at he ⊢
        exact nextPiece_of_find (by decide) he
      · obtain ⟨d, l, hl, hd⟩ := toDigits_head v.toNat (Nat.pos_of_ne_zero hz)
        have hdigits : ∀ e ∈ d :: l, e.isDigit = true := fun e he =>
          Nat.isDigit_of_mem_toDigits (by decide) (by decide) (hl ▸ he)
        rw [hl] at he ⊢
        exact nextPiece_number hd (fun e he => hdigits e (List.mem_cons_of_mem d he)) he
  | _ =>
      refine ⟨⟨.token _, _⟩, Option.some_ne_none _, rfl, nextPiece_of_find (l := Token.lexeme _) ?_ he⟩
      decide

end Tokens

/-! ## Separators -/

section Separators

variable {w v u : List Char} {c d : Char} {fs : List Filler}

theorem tokenRules_slash : ∀ rule ∈ tokenRules, ((rule.pattern.deriv '/').deriv '*').dead = true := by decide

/-- A text is a piece that is skipped, if the first four rules match it and no rule matches more. -/
theorem nextPiece_gap {own : ScanRule Char LexAction} {k : Nat} (hk : k < 4)
    (hown : lexerRules[k]? = some own) (hm : own.pattern.Matches v)
    (hmax : ∀ rule ∈ lexerRules, ∀ d x, d :: x <+: u → ¬ rule.pattern.Matches (v ++ d :: x)) :
    ∃ p : Piece, p.Separates ∧ nextPiece (v ++ u) = some (p, u) := by
  obtain ⟨hlt, rfl⟩ := List.getElem?_eq_some_iff.mp hown
  have hrules : lexerRules = lexerRules.take k ++ lexerRules[k] :: lexerRules.drop (k + 1) := by
    rw [List.getElem_cons_drop, List.take_append_drop]
  obtain ⟨rule, hr, _, hs⟩ := scan_exact hm (hrules ▸ hmax)
  rw [← hrules] at hs
  refine ⟨⟨rule.action, v⟩, ?_, nextPiece_of_scan hs⟩
  have hall : ∀ r ∈ lexerRules.take 4, r.action.code = none := by decide
  refine hall rule ?_
  rw [← List.take_succ_eq_append_getElem] at hr
  exact List.take_subset_take_left _ hk hr

/-- No rule goes on behind a text of at least two characters that ends one of the first four matches. -/
theorem not_longer (hv : v ≠ []) (hwhite : ¬ Patterns.whitespace.Matches (v ++ d :: w))
    (hline : ¬ Patterns.lineComment.Matches (v ++ d :: w))
    (hblock : ¬ Patterns.blockComment.Matches (v ++ d :: w))
    (htoken : ∀ rule ∈ tokenRules, ¬ rule.pattern.Matches (v ++ d :: w)) :
    ∀ rule ∈ lexerRules, ¬ rule.pattern.Matches (v ++ d :: w) := by
  intro rule hr h
  have hlong : ∀ e : Char, v ++ d :: w ≠ [e] := by
    intro e he
    have hlen := congrArg List.length he
    have hpos := List.length_pos_of_ne_nil hv
    simp only [List.length_append, List.length_cons, List.length_nil] at hlen
    omega
  rw [lexerRules_eq, List.mem_append, List.mem_append] at hr
  rcases hr with (hr | hr) | hr
  · simp only [List.mem_cons, List.not_mem_nil, or_false] at hr
    rcases hr with rfl | rfl | rfl | rfl
    · exact hwhite h
    · obtain ⟨e, _, he⟩ := Regex.matches_char.mp h
      exact hlong e he
    · exact hline h
    · exact hblock h
  · exact htoken rule hr h
  · rw [List.mem_singleton.mp hr] at h
    obtain ⟨e, _, he⟩ := Regex.matches_char.mp h
    exact hlong e he

theorem not_token_of_space (hc : c ∈ spaces) (hmem : c ∈ v) : ∀ rule ∈ tokenRules, ¬ rule.pattern.Matches v :=
  fun rule hr h => Regex.not_mem_of_avoids (tokenRules_avoid rule hr c hc) h hmem

theorem not_comment_of_head (hc : c ≠ '/') : ¬ Patterns.lineComment.Matches (c :: w) ∧
    ¬ Patterns.blockComment.Matches (c :: w) := by
  constructor
  · intro h
    obtain ⟨u, hu⟩ := matches_lineComment h
    exact hc (List.cons.inj hu).1
  · intro h
    obtain ⟨u, hu, _⟩ := matches_blockComment h
    exact hc (List.cons.inj hu).1

/-- **Blanks and tabs**, as many as there are. -/
theorem nextPiece_blanks (hc : c = ' ' ∨ c = '\t') (w : List Char) : ∃ p : Piece, p.Separates ∧
    nextPiece (c :: w) = some (p, w.dropWhile isBlank) := by
  have hspace : c ∈ spaces := by rcases hc with rfl | rfl <;> decide
  have hslash : c ≠ '/' := by rcases hc with rfl | rfl <;> decide
  have hblank : isBlank c = true := by rcases hc with rfl | rfl <;> rfl
  have hrun : ∀ e ∈ c :: w.takeWhile isBlank, isBlank e = true := by
    intro e he
    rcases List.mem_cons.mp he with rfl | he
    · exact hblank
    · exact List.all_eq_true.mp List.all_takeWhile e he
  have htext : c :: w = (c :: w.takeWhile isBlank) ++ w.dropWhile isBlank := by
    rw [List.cons_append, List.takeWhile_append_dropWhile]
  rw [htext]
  refine nextPiece_gap (k := 0) (by decide) rfl (Regex.plus_char hrun) (fun rule hr d x hx => ?_)
  refine not_longer (List.cons_ne_nil _ _) (fun h => ?_) (not_comment_of_head hslash).1
    (not_comment_of_head hslash).2 (not_token_of_space hspace List.mem_cons_self) rule hr
  -- what comes after the blanks is no blank
  have hd := matches_whitespace h d (by simp)
  obtain ⟨y, hy⟩ := hx
  have hhead : (w.dropWhile isBlank).head? = some d := by rw [← hy]; rfl
  have hno := List.head?_dropWhile_not isBlank w
  rw [hhead] at hno
  exact Bool.false_ne_true (hno.symm.trans hd)

/-- **A newline.** -/
theorem nextPiece_newline (w : List Char) :
    ∃ p : Piece, p.Separates ∧ nextPiece ('\n' :: w) = some (p, w) := by
  have hslash : '\n' ≠ '/' := by decide
  refine nextPiece_gap (v := ['\n']) (k := 1) (by decide) rfl (.char rfl) (fun rule hr d x _ => ?_)
  refine not_longer (List.cons_ne_nil _ _) (fun h => ?_) (not_comment_of_head hslash).1
    (not_comment_of_head hslash).2 (not_token_of_space (c := '\n') (by decide) List.mem_cons_self) rule hr
  have hblank := matches_whitespace h '\n' (by simp)
  revert hblank
  decide

/-- **A line comment**, up to its newline. -/
theorem nextPiece_lineComment (hv : '\n' ∉ v) (w : List Char) : ∃ p : Piece, p.Separates ∧
    nextPiece ('/' :: '/' :: v ++ '\n' :: w) = some (p, '\n' :: w) := by
  have hmatch : Patterns.lineComment.Matches ('/' :: '/' :: v) := by
    refine .seq (v := ['/', '/']) (Regex.matches_literal.mpr rfl) (Regex.star_char (fun c hc => ?_))
    simp only [Patterns.any, decide_eq_true_eq]
    rintro rfl
    exact hv hc
  refine nextPiece_gap (k := 2) (by decide) rfl hmatch (fun rule hr d x hx => ?_)
  obtain rfl : d = '\n' := (List.cons_prefix_cons.mp hx).1
  refine not_longer (List.cons_ne_nil _ _) (fun h => ?_) (fun h => ?_) (fun h => ?_)
    (not_token_of_space (c := '\n') (by decide) (by simp)) rule hr
  · have hblank := matches_whitespace h '/' (by simp)
    revert hblank
    decide
  · have havoid : Patterns.lineComment.avoids '\n' = true := by decide
    exact Regex.not_mem_of_avoids havoid h (by simp)
  · obtain ⟨u, hu, _⟩ := matches_blockComment h
    have hsecond := (List.cons.inj (List.cons.inj hu).2).1
    revert hsecond
    decide

/-- No rule goes on behind a block comment that has been closed. -/
theorem blockComment_ends (v w : List Char) : LexemeEnds (['/', '*'] ++ v ++ ['*', '/']) w := by
  intro rule hr d x _
  refine not_longer (by simp) (fun h => ?_) (fun h => ?_) (fun h => ?_) (fun r hr h => ?_) rule hr
  · have hblank := matches_whitespace h '/' (by simp)
    revert hblank
    decide
  · obtain ⟨u, hu⟩ := matches_lineComment h
    have hsecond := (List.cons.inj (List.cons.inj hu).2).1
    revert hsecond
    decide
  · obtain ⟨u, hu, hopen⟩ := matches_blockComment h
    -- the first closing would stand inside the text that stays open
    obtain ⟨y, z, hyz⟩ : ∃ y z, d :: x = y ++ [z] :=
      ⟨_, _, (List.dropLast_append_getLast (List.cons_ne_nil d x)).symm⟩
    have heq : (v ++ '*' :: '/' :: y) ++ [z] = (u ++ ['*']) ++ ['/'] := by
      rw [hyz] at hu
      simpa using hu
    have hclose := (List.append_inj' heq rfl).1
    have hstays := staysOpen_snoc_star hopen
    rw [← hclose, staysOpen_append_close] at hstays
    cases hstays
  · have hd := Regex.matches_cons.mp (Regex.matches_cons.mp h)
    exact Regex.not_matches_of_dead (tokenRules_slash r hr) hd

/-- **A block comment**, up to its first closing. -/
theorem nextPiece_blockComment (hv : staysOpen v = true) (w : List Char) : ∃ p : Piece, p.Separates ∧
    nextPiece (['/', '*'] ++ v ++ ['*', '/'] ++ w) = some (p, w) :=
  nextPiece_gap (k := 3) (by decide) rfl (blockComment_matches hv) (blockComment_ends v w)

/-- A text that does not start with a blank. -/
def NoBlank (w : List Char) : Prop := ∀ c ∈ w.head?, isBlank c = false

/-- Behind the blanks of some fillers come the others. -/
theorem dropWhile_fillers (hw : NoBlank w) (fs : List Filler) : ∃ gs, gs.length ≤ fs.length ∧ gs ⊆ fs ∧
    (fs.flatMap Filler.text ++ w).dropWhile isBlank = gs.flatMap Filler.text ++ w := by
  induction fs with
  | nil =>
      refine ⟨[], Nat.le_refl 0, List.Subset.refl [], ?_⟩
      cases w with
      | nil => rfl
      | cons c w => exact List.dropWhile_cons_of_neg (by simp [hw c rfl])
  | cons f fs ih =>
      obtain ⟨gs, hlen, hsub, hdrop⟩ := ih
      have hblank : ∀ c : Char, isBlank c = true → f.text = [c] → ∃ gs, gs.length ≤ (f :: fs).length ∧
          gs ⊆ f :: fs ∧ ((f :: fs).flatMap Filler.text ++ w).dropWhile isBlank =
            gs.flatMap Filler.text ++ w := by
        intro c hc hf
        refine ⟨gs, Nat.le_succ_of_le hlen, List.subset_cons_of_subset f hsub, ?_⟩
        rw [List.flatMap_cons, hf, List.append_assoc, List.singleton_append, List.dropWhile_cons_of_pos hc,
          hdrop]
      have hother : ∀ (c : Char) (l : List Char), isBlank c = false → f.text = c :: l →
          ∃ gs, gs.length ≤ (f :: fs).length ∧ gs ⊆ f :: fs ∧
            ((f :: fs).flatMap Filler.text ++ w).dropWhile isBlank = gs.flatMap Filler.text ++ w := by
        intro c l hc hf
        refine ⟨f :: fs, Nat.le_refl _, List.Subset.refl _, ?_⟩
        rw [List.flatMap_cons, hf, List.append_assoc, List.cons_append]
        exact List.dropWhile_cons_of_neg (by simp [hc])
      -- a newline ends the blanks too: the lexer counts it
      cases f with
      | blank => exact hblank ' ' rfl rfl
      | tab => exact hblank '\t' rfl rfl
      | newline => exact hother '\n' _ rfl rfl
      | lineComment content => exact hother '/' _ rfl rfl
      | blockComment content => exact hother '/' _ rfl rfl

/-- **Separators are skipped**, to the last character. -/
theorem fillers_scanned (hw : NoBlank w) (n : Nat) (fs : List Filler) (hn : fs.length ≤ n)
    (hclosed : ∀ f ∈ fs, f.closed = true) :
    ∃ gap, (∀ p ∈ gap, p.Separates) ∧ Scanned (fs.flatMap Filler.text ++ w) gap w := by
  induction n generalizing fs with
  | zero =>
      rw [List.length_eq_zero_iff.mp (Nat.le_zero.mp hn)]
      exact ⟨[], by simp, .nil⟩
  | succ n ih =>
      cases fs with
      | nil => exact ⟨[], by simp, .nil⟩
      | cons f fs =>
          rw [List.length_cons] at hn
          have hrest (gs : List Filler) (hlen : gs.length ≤ fs.length) (hsub : gs ⊆ fs) :=
            ih gs (by omega) (fun g hg => hclosed g (List.mem_cons_of_mem f (hsub hg)))
          have hfs := hrest fs (Nat.le_refl _) (List.Subset.refl _)
          -- one piece and what is scanned after it
          have hcons {v u : List Char} {p : Piece} (hp : p.Separates) (hv : nextPiece v = some (p, u))
              (hu : ∃ gap, (∀ q ∈ gap, q.Separates) ∧ Scanned u gap w) :
              ∃ gap, (∀ q ∈ gap, q.Separates) ∧ Scanned v gap w := by
            obtain ⟨gap, hgap, hs⟩ := hu
            exact ⟨p :: gap, List.forall_mem_cons.mpr ⟨hp, hgap⟩, .cons hv hs⟩
          have hblank (c : Char) (hc : c = ' ' ∨ c = '\t') :
              ∃ gap, (∀ q ∈ gap, q.Separates) ∧ Scanned (c :: (fs.flatMap Filler.text ++ w)) gap w := by
            obtain ⟨p, hp, hv⟩ := nextPiece_blanks hc (fs.flatMap Filler.text ++ w)
            obtain ⟨gs, hlen, hsub, hdrop⟩ := dropWhile_fillers hw fs
            rw [hdrop] at hv
            exact hcons hp hv (hrest gs hlen hsub)
          have hnewline : ∃ gap, (∀ q ∈ gap, q.Separates) ∧
              Scanned ('\n' :: (fs.flatMap Filler.text ++ w)) gap w := by
            obtain ⟨p, hp, hv⟩ := nextPiece_newline (fs.flatMap Filler.text ++ w)
            exact hcons hp hv hfs
          have hf := hclosed f List.mem_cons_self
          rw [List.flatMap_cons, List.append_assoc]
          cases f with
          | blank => exact hblank ' ' (.inl rfl)
          | tab => exact hblank '\t' (.inr rfl)
          | newline => exact hnewline
          | lineComment content =>
              have hc : '\n' ∉ content := by simpa [Filler.closed] using hf
              obtain ⟨p, hp, hv⟩ := nextPiece_lineComment hc (fs.flatMap Filler.text ++ w)
              have htext : (Filler.lineComment content).text ++ (fs.flatMap Filler.text ++ w) =
                  '/' :: '/' :: content ++ '\n' :: (fs.flatMap Filler.text ++ w) := by
                simp [Filler.text]
              rw [htext]
              exact hcons hp hv hnewline
          | blockComment content =>
              obtain ⟨p, hp, hv⟩ := nextPiece_blockComment hf (fs.flatMap Filler.text ++ w)
              exact hcons hp hv hfs

end Separators

/-! ## Whole texts -/

section Texts

variable {t : Token} {ts : List Token} {ps : List Piece} {L : Lexer}

theorem writable_tokenText (ht : t.writable = true) : TokenText t.lexeme := by
  cases t with
  | tokEof => exact absurd ht (by decide)
  | tokId text =>
      have hid : isIdentifier text.toList = true := (Bool.and_eq_true_iff.mp ht).1
      rw [Token.lexeme]
      cases hl : text.toList with
      | nil => rw [hl] at hid; cases hid
      | cons d l =>
          rw [hl] at hid
          have hd := (isIdentifier_cons.mp hid).1
          refine tokenText_of_word ?_
          rw [Char.isAlphanum, Bool.or_assoc, Bool.or_comm d.isDigit, ← Bool.or_assoc, hd, Bool.true_or]
  | tokNumber v =>
      rw [Token.lexeme]
      cases hl : Nat.toDigits 10 v.toNat with
      | nil => exact absurd hl Nat.toDigits_ne_nil
      | cons d l =>
          have hd : d.isDigit = true := Nat.isDigit_of_mem_toDigits (by decide) (by decide)
            (hl ▸ List.mem_cons_self)
          refine tokenText_of_word ?_
          rw [Char.isAlphanum, hd, Bool.or_true, Bool.true_or]
  | _ => exact tokenText_of_head (by decide) (by decide)

theorem Separator.text_cons (s : Separator) : ∃ c w, c ∈ spaces ∧ s.text = c :: w := by
  obtain ⟨first, rest, hspace, hclosed⟩ := s
  cases first with
  | blank => exact ⟨' ', _, by decide, rfl⟩
  | tab => exact ⟨'\t', _, by decide, rfl⟩
  | newline => exact ⟨'\n', _, by decide, rfl⟩
  | lineComment content => cases hspace
  | blockComment content => cases hspace

theorem Separator.all_closed (s : Separator) : ∀ f ∈ s.first :: s.rest, f.closed = true := by
  intro f hf
  rcases List.mem_cons.mp hf with rfl | hf
  · have hspace := s.space
    cases hfirst : s.first <;> rw [hfirst] at hspace <;> first | rfl | cases hspace
  · exact s.closed f hf

theorem writeTokens_noBlank {ts : List (Token × Separator)} (h : ∀ p ∈ ts, p.1.writable = true) :
    NoBlank (writeTokens ts) := by
  cases ts with
  | nil => exact fun c hc => absurd hc (by simp [writeTokens])
  | cons p ts =>
      have htext := writable_tokenText (h p List.mem_cons_self)
      obtain ⟨d, l, hl⟩ := List.exists_cons_of_ne_nil htext.ne
      intro c hc
      rw [writeTokens, List.flatMap_cons, hl] at hc
      obtain rfl : d = c := by simpa using hc
      exact htext.head d (by rw [hl]; rfl)

/-- **The written text is cut** into the tokens and pieces that are skipped. -/
theorem written_scanned (ts : List (Token × Separator)) (h : ∀ p ∈ ts, p.1.writable = true) :
    ∃ ps, Scanned (writeTokens ts) ps [] ∧ tokensOf ps = some (ts.map Prod.fst) := by
  induction ts with
  | nil => exact ⟨[], .nil, rfl⟩
  | cons p ts ih =>
      obtain ⟨t, s⟩ := p
      have hts : ∀ p ∈ ts, p.1.writable = true := fun p hp => h p (List.mem_cons_of_mem _ hp)
      obtain ⟨ps, hs, htokens⟩ := ih hts
      obtain ⟨c, w, hc, htext⟩ := s.text_cons
      obtain ⟨gap, hgap, hscan⟩ := fillers_scanned (writeTokens_noBlank hts) _ _ (Nat.le_refl _) s.all_closed
      have ht := h (t, s) List.mem_cons_self
      obtain ⟨q, hq, hlexed, hpiece⟩ := nextPiece_token (w := c :: (w ++ writeTokens ts)) ht
        (ends_of_space (writable_tokenText ht) hc)
      have hwritten : writeTokens ((t, s) :: ts) = t.lexeme ++ c :: (w ++ writeTokens ts) := by
        rw [writeTokens, List.flatMap_cons, htext, List.append_assoc, List.cons_append]
        rfl
      have hsep : c :: (w ++ writeTokens ts) = s.text ++ writeTokens ts := by rw [htext]; rfl
      refine ⟨q :: (gap ++ ps), ?_, ?_⟩
      · rw [hwritten]
        refine .cons hpiece ?_
        rw [hsep]
        exact hscan.append hs
      · rw [tokensOf_token hq hlexed, tokensOf_gap hgap, htokens]
        rfl

/-- The calls hand out the tokens of the pieces, and then the end of the file. -/
theorem yylexCalls_of_scanned (hs : Scanned L.input ps []) (ht : tokensOf ps = some ts) :
    yylexCalls (ts.length + 1) L = .ok (ts.map .token ++ [.token .tokEof]) := by
  induction ts generalizing L ps with
  | nil =>
      obtain ⟨L', hL', _⟩ := yylex_of_eof (separates_of_tokensOf_nil ht) hs
      rw [List.length_nil, yylexCalls, hL']
      rfl
  | cons t ts ih =>
      obtain ⟨gap, p, qs, rfl, hgap, hp, hlexed, hqs⟩ := tokensOf_first ht
      rw [List.append_cons] at hs
      obtain ⟨v, hpiece, hrest⟩ := hs.split
      have hcall := yylex_of_piece hgap hp hpiece
      rw [hlexed] at hcall
      have hnext := ih (L := L.applyAll (gap ++ [p]) v) (by rwa [applyAll_input hpiece]) hqs
      rw [List.length_cons, yylexCalls, hcall]
      show (do return Lexed.token t :: (← yylexCalls (ts.length + 1) (L.applyAll (gap ++ [p]) v))) = _
      rw [hnext]
      rfl

end Texts

/-- **Lexing undoes rendering.** Whatever stands between them, the tokens written are the tokens read. -/
theorem lexing_undoes_rendering (ts : List (Token × Separator)) (h : ∀ p ∈ ts, p.1.writable = true)
    (endLeng : Nat) : yylexCalls (ts.length + 1) (Lexer.init (writeTokens ts) endLeng) =
      .ok (ts.map (fun p => .token p.1) ++ [.token .tokEof]) := by
  obtain ⟨ps, hs, ht⟩ := written_scanned ts h
  have hcalls := yylexCalls_of_scanned (L := Lexer.init (writeTokens ts) endLeng) hs ht
  rw [List.length_map, List.map_map] at hcalls
  exact hcalls

/-- A comment in front of a division, and one behind a number. -/
theorem lexing_undoes_rendering_division :
    yylexCalls 4 (Lexer.init (writeTokens
      [(.tokId "ifx", ⟨.blank, [.blockComment ['/', '*']], rfl, by decide⟩), (.tokDiv, ⟨.tab, [], rfl, by decide⟩),
        (.tokNumber 10, ⟨.newline, [.lineComment ['2']], rfl, by decide⟩)]) 0) =
      .ok [.token (.tokId "ifx"), .token .tokDiv, .token (.tokNumber 10), .token .tokEof] :=
  lexing_undoes_rendering _ (by decide) 0

end ParaCL
