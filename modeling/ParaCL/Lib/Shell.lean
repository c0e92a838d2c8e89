import Mathlib.Data.List.Basic

/-!
# `Lib.Shell` — how a POSIX shell splits a line into words

`words line` are the words of a line that is one simple command, after quote removal. It is `none` where the
shell reads more into the line than that: an operator, a comment, an unfinished quotation, or an expansion,
whose result is up to variables and files.

A word is first split off with its quotation marks gone and each of its letters marked as quoted or bare
(`scan`); what of it is a pattern is seen in the finished word (`isPattern`). Not every `$` and `[` is an
expansion: a `$` is literal before a character that names no parameter, and a `[` that no `]` closes.

`words_cons` and `words_single` say that plain words stand for themselves, `plain_of_words` that no others
do.
-/

namespace Lib

namespace Shell

/-- `<blank>` of the POSIX locale. -/
def isBlank (c : Char) : Bool := c = ' ' || c = '\t'

/-- The characters that start an operator, and the end of the line. -/
def isOperator (c : Char) : Bool := c ∈ ['|', '&', ';', '<', '>', '(', ')', '\n']

/-- The quoting characters. -/
def isQuote (c : Char) : Bool := c ∈ ['\\', '\x27', '\x22']

/-- What a `$` expands before: the first character of a name, a digit, a special parameter, or an opening
    brace or parenthesis. Before anything else shells take it as it stands. -/
def isParameter (c : Char) : Bool :=
  c.isAlphanum || c = '_' || c ∈ ['@', '*', '#', '?', '-', '$', '!', '{', '(']

/-- The line goes on after a `$` with something that it expands. -/
def expands : List Char → Bool
  | [] => false
  | '\\' :: '\n' :: cs => expands cs
  | c :: _ => isParameter c

/-- A `$` of the text is expanded. -/
def expandsIn : List Char → Bool
  | [] => false
  | c :: cs => (c = '$' && expands cs) || expandsIn cs

/-! ## Patterns -/

/-- A character of a word, and whether it was quoted: then it means itself. -/
structure Letter where
  char : Char
  quoted : Bool
  deriving DecidableEq

/-- A letter outside quotations. -/
def bare (c : Char) : Letter := ⟨c, false⟩

/-- The characters of a word. -/
def text (word : List Letter) : List Char := word.map Letter.char

/-- A `]` comes before the next slash. -/
def closesIn : List Letter → Bool
  | [] => false
  | l :: ls => l.char ≠ '/' && (l = bare ']' || closesIn ls)

/-- The letter after `[` or `[!` belongs to the bracket expression, also if it is `]`. -/
def closesAfter : List Letter → Bool
  | [] => false
  | l :: ls => l.char ≠ '/' && closesIn ls

/-- What follows a `[` makes it a bracket expression. Within one, `[.`, `[=` and `[:` hide a `]` up to their own
    end; they need no case here, since then the hidden `]` closes an expression that starts with them. -/
def closes : List Letter → Bool
  | [] => false
  | l :: ls => if l = bare '!' ∨ l = bare '^' then closesAfter ls else closesAfter (l :: ls)

/-- The word is matched against the names of files. -/
def isPattern : List Letter → Bool
  | [] => false
  | l :: ls => l = bare '*' || l = bare '?' || (l = bare '[' && closes ls) || isPattern ls

/-! ## Words -/

/-- What a character is read as. -/
inductive Mode where
  | between
  | bare
  | escaped (inWord : Bool)
  | single
  | double
  | doubleEscaped
  deriving DecidableEq

/-- The words of a line, the one under way first. -/
def scan : Mode → List Letter → List Char → Option (List (List Letter))
  | .between, _, [] => some []
  | .bare, word, [] => some [word]
  | .escaped _, _, [] | .single, _, [] | .double, _, [] | .doubleEscaped, _, [] => none
  | .between, word, c :: cs =>
      -- `$` before a quotation makes it another kind of quotation
      if isOperator c ∨ c = '\x60' ∨ (c = '$' ∧ (expands cs ∨ cs.head? = some '\x27')) ∨ c = '#' ∨
        c = '~' then none
      else if isBlank c then scan .between word cs
      else if c = '\\' then scan (.escaped false) word cs
      else if c = '\x27' then scan .single word cs
      else if c = '\x22' then scan .double word cs
      else scan .bare (word ++ [bare c]) cs
  | .bare, word, c :: cs =>
      if isOperator c ∨ c = '\x60' ∨ (c = '$' ∧ (expands cs ∨ cs.head? = some '\x27')) then none
      else if isBlank c then (scan .between [] cs).map (word :: ·)
      else if c = '\\' then scan (.escaped true) word cs
      else if c = '\x27' then scan .single word cs
      else if c = '\x22' then scan .double word cs
      else scan .bare (word ++ [bare c]) cs
  | .escaped inWord, word, c :: cs =>
      -- a backslash before the end of the line joins two lines
      if c = '\n' then scan (if inWord then .bare else .between) word cs
      else scan .bare (word ++ [⟨c, true⟩]) cs
  | .single, word, c :: cs =>
      if c = '\x27' then scan .bare word cs else scan .single (word ++ [⟨c, true⟩]) cs
  | .double, word, c :: cs =>
      if (c = '$' ∧ expands cs) ∨ c = '\x60' then none
      else if c = '\x22' then scan .bare word cs
      else if c = '\\' then scan .doubleEscaped word cs
      else scan .double (word ++ [⟨c, true⟩]) cs
  | .doubleEscaped, word, c :: cs =>
      if c = '\n' then scan .double word cs
      else if c = '$' ∨ c = '\x60' ∨ c = '\x22' ∨ c = '\\' then scan .double (word ++ [⟨c, true⟩]) cs
      else scan .double (word ++ [⟨'\\', true⟩, ⟨c, true⟩]) cs

/-- The words of a line that is one simple command without expansions. -/
def words (line : List Char) : Option (List (List Char)) :=
  (scan .between [] line).bind fun ws => if ws.any isPattern then none else some (ws.map text)

/-! ## Plain words -/

/-- A character that means itself inside a word, unless what follows it makes it an expansion. -/
def isPlain (c : Char) : Bool := !isOperator c && c ≠ '\x60' && !isBlank c && !isQuote c

/-- A word that means itself. -/
structure Plain (word : List Char) : Prop where
  ne_nil : word ≠ []
  chars : ∀ c ∈ word, isPlain c
  head : ∀ c ∈ word.head?, c ≠ '#' ∧ c ≠ '~'
  parameters : expandsIn word = false
  pattern : isPattern (word.map bare) = false

instance (word : List Char) : Decidable (Plain word) :=
  decidable_of_iff (word ≠ [] ∧ word.all isPlain = true ∧
      word.head?.all (fun c => c ≠ '#' ∧ c ≠ '~') = true ∧ expandsIn word = false ∧
      isPattern (word.map bare) = false)
    ⟨fun h => ⟨h.1, List.all_eq_true.mp h.2.1, by simpa [Option.all_eq_true] using h.2.2.1, h.2.2.2.1,
        h.2.2.2.2⟩,
      fun h => ⟨h.ne_nil, List.all_eq_true.mpr h.chars, by simpa [Option.all_eq_true] using h.head,
        h.parameters, h.pattern⟩⟩

/-- `a[b` and `a$` are plain words, `a[b]` and `a$b` are not. -/
example : Plain ['a', '[', 'b'] ∧ Plain ['a', '$'] ∧ ¬ Plain ['a', '[', 'b', ']'] ∧ ¬ Plain ['a', '$', 'b'] := by
  decide

section Letters

variable {c : Char} {w v rest : List Char} {word : List Letter}

@[simp] theorem text_nil : text [] = [] := rfl

@[simp] theorem text_append {word' : List Letter} : text (word ++ word') = text word ++ text word' :=
  List.map_append

@[simp] theorem text_singleton {l : Letter} : text [l] = [l.char] := rfl

@[simp] theorem text_map_bare : text (w.map bare) = w := by
  simp [text, bare, Function.comp_def]

theorem isPlain_iff : isPlain c ↔
    isOperator c = false ∧ c ≠ '\x60' ∧ isBlank c = false ∧ isQuote c = false := by
  simp [isPlain, and_assoc]

theorem isQuote_iff : isQuote c ↔ c = '\\' ∨ c = '\x27' ∨ c = '\x22' := by simp [isQuote]

theorem isQuote_eq_false : isQuote c = false ↔ c ≠ '\\' ∧ c ≠ '\x27' ∧ c ≠ '\x22' := by
  simp [isQuote]

theorem expands_cons (h : c ≠ '\\') : expands (c :: rest) = isParameter c := by
  unfold expands
  split
  · rename_i he
    cases he
  · rename_i he
    injection he with hc
    exact absurd hc h
  · rename_i he
    injection he with hc
    rw [hc]

/-- What a `$` does not expand, it does not expand cut short. -/
theorem expands_append (h : expands (w ++ rest) = false) : expands w = false := by
  fun_induction expands w with
  | case1 => rfl
  | case2 w ih => exact ih h
  | case3 c w hno =>
      by_cases hc : c = '\\'
      · subst hc
        rfl
      · rw [List.cons_append, expands_cons hc] at h
        exact h

theorem expandsIn_append (h : expandsIn (w ++ rest) = false) : expandsIn w = false := by
  induction w with
  | nil => rfl
  | cons c w ih =>
      simp only [List.cons_append, expandsIn, Bool.or_eq_false_iff, Bool.and_eq_false_iff] at h ⊢
      exact ⟨h.1.imp_right expands_append, ih h.2⟩

theorem expandsIn_of_append (h : expandsIn (v ++ w) = false) : expandsIn w = false := by
  induction v with
  | nil => exact h
  | cons c v ih =>
      simp only [List.cons_append, expandsIn, Bool.or_eq_false_iff] at h
      exact ih h.2

theorem expands_plain (hw : ∀ c ∈ w, isPlain c) (hr : expands rest = false) :
    expands (w ++ rest) = expands w := by
  cases w with
  | nil => exact hr
  | cons c w =>
      have hc := (isQuote_eq_false.mp (isPlain_iff.mp (hw c (List.mem_cons_self ..))).2.2.2).1
      rw [List.cons_append, expands_cons hc, expands_cons hc]

theorem expandsIn_plain (hw : ∀ c ∈ w, isPlain c) (hp : expandsIn w = false) (hr : expands rest = false)
    (hrest : expandsIn rest = false) : expandsIn (w ++ rest) = false := by
  induction w with
  | nil => exact hrest
  | cons c w ih =>
      have hw' : ∀ d ∈ w, isPlain d := fun d hd => hw d (List.mem_cons_of_mem _ hd)
      simp only [List.cons_append, expandsIn, Bool.or_eq_false_iff, Bool.and_eq_false_iff] at hp ⊢
      rw [expands_plain hw' hr]
      exact ⟨hp.1, ih hw' hp.2⟩

/-- The line ends, or a blank follows. -/
def AtEnd (rest : List Char) : Prop := ∀ c ∈ rest.head?, c = ' '

theorem AtEnd.expands (h : AtEnd rest) : expands rest = false := by
  cases rest with
  | nil => rfl
  | cons c rest =>
      obtain rfl := h c rfl
      rfl

theorem head_ne_quote (hw : ∀ c ∈ w, isPlain c) (hr : AtEnd rest) : (w ++ rest).head? ≠ some '\x27' := by
  intro he
  cases w with
  | nil => cases hr _ he
  | cons c w =>
      obtain rfl : c = '\x27' := by simpa using he
      exact absurd (hw _ (List.mem_cons_self ..)) (by decide)

theorem scan_bare_char (hc : isPlain c) (hd : c = '$' → expands rest = false ∧ rest.head? ≠ some '\x27') :
    scan .bare word (c :: rest) = scan .bare (word ++ [bare c]) rest := by
  obtain ⟨ho, he, hb, hq⟩ := isPlain_iff.mp hc
  obtain ⟨h1, h2, h3⟩ := isQuote_eq_false.mp hq
  have hno : ¬(c = '$' ∧ (expands rest ∨ rest.head? = some '\x27')) := by
    rintro ⟨hdollar, hx | hx⟩
    · rw [(hd hdollar).1] at hx
      cases hx
    · exact (hd hdollar).2 hx
  simp [scan, ho, he, hb, h1, h2, h3, hno]

theorem scan_bare_plain (hw : ∀ c ∈ w, isPlain c) (hp : expandsIn w = false) (hr : AtEnd rest) :
    scan .bare word (w ++ rest) = scan .bare (word ++ w.map bare) rest := by
  induction w generalizing word with
  | nil => simp
  | cons c w ih =>
      simp only [expandsIn, Bool.or_eq_false_iff, Bool.and_eq_false_iff, decide_eq_false_iff_not] at hp
      have hw' : ∀ d ∈ w, isPlain d := fun d hd => hw d (List.mem_cons_of_mem _ hd)
      rw [List.cons_append, scan_bare_char (hw c (List.mem_cons_self ..)), ih hw' hp.2, List.append_assoc]
      · rfl
      · intro hc
        rw [expands_plain hw' hr.expands]
        exact ⟨hp.1.resolve_left (not_not_intro hc), head_ne_quote hw' hr⟩

theorem scan_plain (h : Plain w) (hr : AtEnd rest) :
    scan .between [] (w ++ rest) = scan .bare (w.map bare) rest := by
  cases w with
  | nil => exact absurd rfl h.ne_nil
  | cons c w =>
      obtain ⟨ho, he, hb, hq⟩ := isPlain_iff.mp (h.chars c (List.mem_cons_self ..))
      obtain ⟨h1, h2, h3⟩ := isQuote_eq_false.mp hq
      obtain ⟨h4, h5⟩ := h.head c rfl
      have hw : ∀ d ∈ w, isPlain d := fun d hd => h.chars d (List.mem_cons_of_mem _ hd)
      have hp := h.parameters
      simp only [expandsIn, Bool.or_eq_false_iff, Bool.and_eq_false_iff, decide_eq_false_iff_not] at hp
      have hno : ¬(c = '$' ∧ (expands (w ++ rest) ∨ (w ++ rest).head? = some '\x27')) := by
        rintro ⟨hdollar, hx | hx⟩
        · rw [expands_plain hw hr.expands, hp.1.resolve_left (not_not_intro hdollar)] at hx
          cases hx
        · exact head_ne_quote hw hr hx
      have hc : scan .between [] (c :: (w ++ rest)) = scan .bare [bare c] (w ++ rest) := by
        simp only [scan, ho, he, hb, h1, h2, h3, h4, h5, hno]
        simp
      rw [List.cons_append, hc, scan_bare_plain hw hp.2 hr]
      rfl

/-- **A plain word and a blank** give the word. -/
theorem words_cons (h : Plain w) : words (w ++ ' ' :: rest) = (words rest).map (w :: ·) := by
  have hscan : scan .between [] (w ++ ' ' :: rest) =
      (scan .between [] rest).map (w.map bare :: ·) := by
    rw [scan_plain h (by rintro c ⟨⟩; rfl)]
    rfl
  rw [words, hscan, words]
  cases scan .between [] rest with
  | none => rfl
  | some ws =>
      simp only [Option.map_some, Option.bind_some, List.any_cons, h.pattern, Bool.false_or, List.map_cons,
        text_map_bare]
      split <;> rfl

/-- **The last word.** -/
theorem words_single (h : Plain w) : words w = some [w] := by
  have hscan : scan .between [] (w ++ []) = scan .bare (w.map bare) [] := scan_plain h (by rintro c ⟨⟩)
  rw [List.append_nil] at hscan
  rw [words, hscan]
  simp [scan, h.pattern]

end Letters

/-! ## Words that are read as they stand -/

/-- The quoting characters of a text. -/
def quotes (w : List Char) : Nat := w.countP isQuote

/-- A backslash may still be put out. -/
def Mode.pending : Mode → Nat
  | .doubleEscaped => 1
  | _ => 0

section Quotes

variable {c : Char} {mode : Mode} {w v rest line : List Char} {word : List Letter} {ls : List (List Letter)}
  {ws : List (List Char)}

@[simp] theorem quotes_nil : quotes [] = 0 := rfl

@[simp] theorem quotes_append : quotes (w ++ v) = quotes w + quotes v := List.countP_append

theorem quotes_cons : quotes (c :: w) = (if isQuote c then 1 else 0) + quotes w := by
  rw [quotes, quotes, List.countP_cons, Nat.add_comm]

/-- No quoting character is put out that was not read. -/
theorem scan_quotes (h : scan mode word rest = some ls) :
    quotes (text ls.flatten) ≤ quotes (text word) + mode.pending + quotes rest := by
  fun_induction scan mode word rest generalizing ls with
  | case1 => cases h; simp
  | case2 => cases h; simp
  | case3 | case4 | case5 | case6 | case7 | case13 | case23 => cases h
  | case14 word c cs _ _ ih =>
      obtain ⟨ls', hls, rfl⟩ := Option.map_eq_some_iff.mp h
      have hle := ih hls
      simp only [List.flatten_cons, text_append, quotes_append, quotes_cons, quotes_nil, text_nil,
        Mode.pending] at hle ⊢
      omega
  | case19 inWord word cs ih =>
      have hmode : (if inWord then Mode.bare else Mode.between).pending = 0 := by cases inWord <;> rfl
      have hle := ih h
      rw [hmode] at hle
      simp only [quotes_cons, Mode.pending]
      omega
  | _ =>
      -- the character is dropped, or put out as it was read
      rename_i ih
      have hle := ih h
      have hbackslash : isQuote '\\' = true := rfl
      simp only [text, bare, List.map_append, List.map_cons, List.map_nil, quotes_append, quotes_cons,
        quotes_nil, Mode.pending, hbackslash, if_true] at hle ⊢
      omega

/-- A character outside quotations that does not quote: it ends the word, or belongs to it. -/
inductive Reads (mode : Mode) (word : List Letter) (c : Char) (rest : List Char) (ls : List (List Letter)) :
    Prop where
  | skip (hb : isBlank c) (hm : mode = .between) (h : scan .between word rest = some ls)
  | ends {ls' : List (List Letter)} (hb : isBlank c) (hm : mode = .bare)
      (h : scan .between [] rest = some ls') (hls : ls = word :: ls')
  | plain (hc : isPlain c) (hd : c = '$' → expands rest = false)
      (h : scan .bare (word ++ [bare c]) rest = some ls)

theorem reads_of_scan (hmode : mode = .between ∨ mode = .bare) (hq : isQuote c = false)
    (h : scan mode word (c :: rest) = some ls) : Reads mode word c rest ls := by
  obtain ⟨h1, h2, h3⟩ := isQuote_eq_false.mp hq
  -- in both modes the same characters stop the line
  have hplain : isOperator c = false → c ≠ '\x60' → isBlank c ≠ true → isPlain c := fun ho he hb =>
    isPlain_iff.mpr ⟨ho, he, by simpa using hb, hq⟩
  have hdollar : ¬(c = '$' ∧ (expands rest = true ∨ rest.head? = some '\x27')) →
      c = '$' → expands rest = false := by
    intro hno hc
    by_contra hx
    exact hno ⟨hc, .inl (by simpa using hx)⟩
  rcases hmode with rfl | rfl
  · rw [scan, if_neg h1, if_neg h2, if_neg h3] at h
    split at h
    · cases h
    · rename_i hno
      rw [not_or, not_or, not_or, Bool.not_eq_true] at hno
      split at h
      · exact .skip ‹_› rfl h
      · exact .plain (hplain hno.1 hno.2.1 ‹_›) (hdollar hno.2.2.1) h
  · rw [scan, if_neg h1, if_neg h2, if_neg h3] at h
    split at h
    · cases h
    · rename_i hno
      rw [not_or, not_or, Bool.not_eq_true] at hno
      split at h
      · obtain ⟨ls', hls, rfl⟩ := Option.map_eq_some_iff.mp h
        exact .ends ‹_› rfl hls rfl
      · exact .plain (hplain hno.1 hno.2.1 ‹_›) (hdollar hno.2.2) h

/-- A quoting character starts a quotation. -/
theorem scan_quote (hmode : mode = .between ∨ mode = .bare) (hq : isQuote c) :
    ∃ m : Mode, m.pending = 0 ∧ scan mode word (c :: rest) = scan m word rest := by
  rcases isQuote_iff.mp hq with rfl | rfl | rfl
  · rcases hmode with rfl | rfl
    · exact ⟨.escaped false, rfl, rfl⟩
    · exact ⟨.escaped true, rfl, rfl⟩
  · rcases hmode with rfl | rfl <;> exact ⟨.single, rfl, rfl⟩
  · rcases hmode with rfl | rfl <;> exact ⟨.double, rfl, rfl⟩

/-- The first one that is read outside a quotation is not put out. -/
theorem scan_quotes_lt (h : scan mode word rest = some ls) (hmode : mode = .between ∨ mode = .bare)
    (hrest : quotes rest ≠ 0) : quotes (text ls.flatten) < quotes (text word) + quotes rest := by
  induction rest generalizing mode word ls with
  | nil => exact absurd rfl hrest
  | cons c rest ih =>
      rw [quotes_cons] at hrest ⊢
      cases hq : isQuote c with
      | true =>
          obtain ⟨m, hm, hscan⟩ := scan_quote hmode hq
          have hle := scan_quotes (hscan ▸ h)
          rw [hm] at hle
          rw [if_pos rfl]
          omega
      | false =>
          rw [hq, if_neg (by simp), Nat.zero_add] at hrest
          rw [if_neg (by simp), Nat.zero_add]
          cases reads_of_scan hmode hq h with
          | skip _ _ h => exact ih h (.inl rfl) hrest
          | ends _ _ h hls =>
              have hlt := ih h (.inl rfl) hrest
              rw [hls, List.flatten_cons, text_append, quotes_append]
              rw [text_nil, quotes_nil] at hlt
              omega
          | plain _ _ h =>
              have hlt := ih h (.inr rfl) hrest
              rw [text_append, text_singleton, bare, quotes_append, quotes_cons, hq, if_neg (by simp),
                quotes_nil] at hlt
              exact hlt

/-- The letters of a word were read outside quotations, and no blank among them. -/
def Unquoted (word : List Letter) : Prop :=
  ∃ w : List Char, word = w.map bare ∧ ∀ c ∈ w, isBlank c = false

theorem Unquoted.concat (h : Unquoted word) (hc : isPlain c) : Unquoted (word ++ [bare c]) := by
  obtain ⟨w, rfl, hw⟩ := h
  refine ⟨w ++ [c], by simp, fun d hd => ?_⟩
  rcases List.mem_append.mp hd with hd | hd
  · exact hw d hd
  · rw [List.mem_singleton.mp hd]
    exact (isPlain_iff.mp hc).2.2.1

/-- Without quoting characters nothing but plain characters and blanks is read, no parameter expanded, and no
    blank and no empty word put out. -/
theorem scan_unquoted (h : scan mode word rest = some ls) (hmode : mode = .between ∨ mode = .bare)
    (hrest : quotes rest = 0) (hword : Unquoted word) (hne : mode = .bare → word ≠ []) :
    (∀ c ∈ rest, isPlain c ∨ isBlank c) ∧ expandsIn rest = false ∧ ∀ l ∈ ls, l ≠ [] ∧ Unquoted l := by
  have hempty : Unquoted [] := ⟨[], rfl, by simp⟩
  induction rest generalizing mode word ls with
  | nil =>
      refine ⟨by simp, rfl, ?_⟩
      rcases hmode with rfl | rfl
      · cases h; simp
      · cases h; simpa using ⟨hne rfl, hword⟩
  | cons c rest ih =>
      rw [quotes_cons] at hrest
      -- a quoting character would be counted
      have hq : isQuote c = false := by
        cases hq : isQuote c with
        | true => rw [hq, if_pos rfl] at hrest; omega
        | false => rfl
      have hrest : quotes rest = 0 := by omega
      have hblank : isBlank c → c ≠ '$' := by rintro hb rfl; cases hb
      rw [expandsIn, Bool.or_eq_false_iff, Bool.and_eq_false_iff, decide_eq_false_iff_not]
      cases reads_of_scan hmode hq h with
      | skip hb _ h =>
          obtain ⟨hchars, hp, hls⟩ := ih h (.inl rfl) hrest hword (by simp)
          exact ⟨List.forall_mem_cons.mpr ⟨.inr hb, hchars⟩, ⟨.inl (hblank hb), hp⟩, hls⟩
      | ends hb hm h hls =>
          obtain ⟨hchars, hp, hls'⟩ := ih h (.inl rfl) hrest hempty (by simp)
          subst hls
          exact ⟨List.forall_mem_cons.mpr ⟨.inr hb, hchars⟩, ⟨.inl (hblank hb), hp⟩,
            List.forall_mem_cons.mpr ⟨⟨hne hm, hword⟩, hls'⟩⟩
      | plain hc hd h =>
          obtain ⟨hchars, hp, hls⟩ := ih h (.inr rfl) hrest (hword.concat hc) (by simp)
          exact ⟨List.forall_mem_cons.mpr ⟨.inl hc, hchars⟩, ⟨(em (c = '$')).symm.imp_right hd, hp⟩, hls⟩

/-- **Words that are read as they stand**: if a line is read as words that hold all its quoting characters,
    there are none in it, no parameter and no other character that is not plain, and no word is a pattern. -/
theorem plain_of_words (h : words line = some ws) (hquotes : quotes ws.flatten = quotes line) :
    (∀ c ∈ line, isPlain c ∨ isBlank c) ∧ expandsIn line = false ∧
      ∀ w ∈ ws, w ≠ [] ∧ (∀ c ∈ w, isBlank c = false) ∧ isPattern (w.map bare) = false := by
  obtain ⟨ls, hscan, hls⟩ := Option.bind_eq_some_iff.mp h
  split at hls
  · cases hls
  · rename_i hpattern
    cases hls
    have htext : (ls.map text).flatten = text ls.flatten := List.map_flatten.symm
    have hnone : quotes line = 0 := by
      by_contra hne
      have hlt := scan_quotes_lt hscan (.inl rfl) hne
      rw [← hquotes, htext, text_nil, quotes_nil] at hlt
      omega
    obtain ⟨hchars, hp, hwords⟩ := scan_unquoted hscan (.inl rfl) hnone ⟨[], rfl, by simp⟩ (by simp)
    refine ⟨hchars, hp, fun w hw => ?_⟩
    obtain ⟨l, hl, rfl⟩ := List.mem_map.mp hw
    obtain ⟨hne, w, rfl, hblank⟩ := hwords l hl
    rw [text_map_bare]
    refine ⟨by simpa using hne, hblank, ?_⟩
    by_contra hbad
    exact hpattern (List.any_eq_true.mpr ⟨_, hl, by simpa using hbad⟩)

/-- A word does not begin with a comment or a tilde. -/
theorem head_of_words (h : words (c :: rest) = some ws) : c ≠ '#' ∧ c ≠ '~' := by
  obtain ⟨ls, hscan, _⟩ := Option.bind_eq_some_iff.mp h
  unfold scan at hscan
  split at hscan
  · cases hscan
  · rename_i hno
    simp only [not_or] at hno
    exact hno.2.2.2

end Quotes

/-! ## Patterns of longer words -/

section Patterns

variable {u v : List Letter}

/-- Closing brackets that a text does not hold are not reached in it. -/
theorem closesIn_append (hv : bare ']' ∉ v) (h : closesIn (u ++ v)) : closesIn u := by
  induction u with
  | nil =>
      rw [List.nil_append] at h
      induction v with
      | nil => cases h
      | cons l v ih =>
          simp only [closesIn, Bool.and_eq_true, Bool.or_eq_true, decide_eq_true_eq] at h
          rcases h.2 with hl | hl
          · exact absurd (hl ▸ List.mem_cons_self ..) hv
          · exact ih (fun hm => hv (List.mem_cons_of_mem _ hm)) hl
  | cons l u ih =>
      simp only [List.cons_append, closesIn, Bool.and_eq_true, Bool.or_eq_true] at h ⊢
      exact ⟨h.1, h.2.imp_right ih⟩

theorem closesIn_mono (h : closesIn u) : closesIn (u ++ v) := by
  induction u with
  | nil => cases h
  | cons l u ih =>
      simp only [List.cons_append, closesIn, Bool.and_eq_true, Bool.or_eq_true] at h ⊢
      exact ⟨h.1, h.2.imp_right ih⟩

theorem closesAfter_append (hv : bare ']' ∉ v) (h : closesAfter (u ++ v)) : closesAfter u := by
  cases u with
  | nil =>
      cases v with
      | nil => cases h
      | cons l v =>
          simp only [List.nil_append, closesAfter, Bool.and_eq_true] at h
          exact absurd (closesIn_append (u := []) (fun hm => hv (List.mem_cons_of_mem _ hm)) h.2) (by decide)
  | cons l u =>
      simp only [List.cons_append, closesAfter, Bool.and_eq_true] at h ⊢
      exact ⟨h.1, closesIn_append hv h.2⟩

theorem closesAfter_mono (h : closesAfter u) : closesAfter (u ++ v) := by
  cases u with
  | nil => cases h
  | cons l u =>
      simp only [List.cons_append, closesAfter, Bool.and_eq_true] at h ⊢
      exact ⟨h.1, closesIn_mono h.2⟩

theorem closes_append (hv : bare ']' ∉ v) (h : closes (u ++ v)) : closes u := by
  cases u with
  | nil =>
      -- nothing is closed in `v` alone
      have hnone : ∀ w : List Letter, bare ']' ∉ w → closesAfter w = false := fun w hw =>
        Bool.eq_false_iff.mpr fun hc => by cases closesAfter_append (u := []) hw hc
      cases v with
      | nil => cases h
      | cons l v =>
          rw [List.nil_append, closes, hnone v (fun hm => hv (List.mem_cons_of_mem _ hm)), hnone _ hv] at h
          simp at h
  | cons l u =>
      rw [List.cons_append, closes] at h
      rw [closes]
      split at h
      · exact (if_pos ‹_›).trans (closesAfter_append hv h)
      · exact (if_neg ‹_›).trans (closesAfter_append hv (by rwa [List.cons_append]))

theorem closes_mono (h : closes u) : closes (u ++ v) := by
  cases u with
  | nil => cases h
  | cons l u =>
      rw [closes] at h
      rw [List.cons_append, closes]
      split at h
      · exact (if_pos ‹_›).trans (closesAfter_mono h)
      · exact (if_neg ‹_›).trans (closesAfter_mono (u := l :: u) h)

theorem isPattern_mono (h : isPattern u) : isPattern (u ++ v) := by
  induction u with
  | nil => cases h
  | cons l u ih =>
      simp only [List.cons_append, isPattern, Bool.or_eq_true, Bool.and_eq_true] at h ⊢
      exact h.imp (Or.imp_right fun hb => ⟨hb.1, closes_mono hb.2⟩) ih

/-- **Letters that are of no pattern** make none at the end of a word. -/
theorem isPattern_append (hv : ∀ c ∈ ['*', '?', '[', ']'], bare c ∉ v) (h : isPattern (u ++ v)) :
    isPattern u := by
  induction u with
  | nil =>
      rw [List.nil_append] at h
      induction v with
      | nil => cases h
      | cons l v ih =>
          have hl : ∀ c ∈ ['*', '?', '[', ']'], l ≠ bare c := fun c hc he =>
            hv c hc (he ▸ List.mem_cons_self ..)
          simp only [isPattern, hl _ (by decide : '*' ∈ _), hl _ (by decide : '?' ∈ _),
            hl _ (by decide : '[' ∈ _), decide_false, Bool.false_and, Bool.false_or] at h
          exact ih (fun c hc hm => hv c hc (List.mem_cons_of_mem _ hm)) h
  | cons l u ih =>
      simp only [List.cons_append, isPattern, Bool.or_eq_true, Bool.and_eq_true] at h ⊢
      exact h.imp (Or.imp_right fun hb => ⟨hb.1, closes_append (hv ']' (by decide)) hb.2⟩) ih

end Patterns

end Shell

end Lib
