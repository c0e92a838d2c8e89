import Mathlib.Data.List.Infix

/-!
# `Lib.Regex` — regular expressions, longest matches and scanner rules

`Matches r w` is the language of an expression over character classes. `longest r w` runs derivatives
along the input and returns the length of the longest prefix in the language. `scan` picks among a list
of rules as a scanner generator does: the longest match wins, and among equally long ones the rule listed
first.

`longest_spec` and `scan_spec` say what the two return, so that a client reasons about the lexeme it was
given and never about derivatives.
-/

namespace Lib

/-- Regular expressions; a leaf is a class of characters. -/
inductive Regex (α : Type) where
  | empty
  | epsilon
  | char (p : α → Bool)
  | seq (r s : Regex α)
  | alt (r s : Regex α)
  | star (r : Regex α)

namespace Regex

variable {α : Type} {r s : Regex α} {c : α} {v w : List α}

/-- The language of an expression. -/
inductive Matches : Regex α → List α → Prop where
  | epsilon : Matches .epsilon []
  | char {p : α → Bool} {c : α} (h : p c = true) : Matches (.char p) [c]
  | seq {r s : Regex α} {v w : List α} (hr : Matches r v) (hs : Matches s w) :
      Matches (.seq r s) (v ++ w)
  | altLeft {r s : Regex α} {w : List α} (h : Matches r w) : Matches (.alt r s) w
  | altRight {r s : Regex α} {w : List α} (h : Matches s w) : Matches (.alt r s) w
  | starNil {r : Regex α} : Matches (.star r) []
  | starCons {r : Regex α} {v w : List α} (hr : Matches r v) (hs : Matches (.star r) w) :
      Matches (.star r) (v ++ w)

/-- One or more. -/
def plus (r : Regex α) : Regex α := .seq r (.star r)

/-- A fixed text. -/
def literal [DecidableEq α] : List α → Regex α
  | [] => .epsilon
  | c :: cs => .seq (.char (· = c)) (literal cs)

/-! ## Derivatives -/

/-- The empty word is in the language. -/
def nullable : Regex α → Bool
  | .empty => false
  | .epsilon => true
  | .char _ => false
  | .seq r s => r.nullable && s.nullable
  | .alt r s => r.nullable || s.nullable
  | .star _ => true

/-- No word is, as the shape of the expression shows. -/
def dead : Regex α → Bool
  | .empty => true
  | .epsilon => false
  | .char _ => false
  | .seq r s => r.dead || s.dead
  | .alt r s => r.dead && s.dead
  | .star _ => false

/-- The words that continue `c` to a word of the language. -/
def deriv (c : α) : Regex α → Regex α
  | .empty => .empty
  | .epsilon => .empty
  | .char p => if p c then .epsilon else .empty
  | .seq r s =>
      if r.nullable then .alt (.seq (r.deriv c) s) (s.deriv c) else .seq (r.deriv c) s
  | .alt r s => .alt (r.deriv c) (s.deriv c)
  | .star r => .seq (r.deriv c) (.star r)

theorem matches_char {p : α → Bool} : Matches (.char p) w ↔ ∃ c, p c = true ∧ w = [c] := by
  constructor
  · rintro ⟨⟩
    exact ⟨_, ‹_›, rfl⟩
  · rintro ⟨c, hc, rfl⟩
    exact .char hc

theorem matches_seq : Matches (.seq r s) w ↔ ∃ v u, w = v ++ u ∧ Matches r v ∧ Matches s u := by
  constructor
  · rintro ⟨⟩
    exact ⟨_, _, rfl, ‹_›, ‹_›⟩
  · rintro ⟨v, u, rfl, hv, hu⟩
    exact .seq hv hu

theorem matches_alt : Matches (.alt r s) w ↔ Matches r w ∨ Matches s w := by
  constructor
  · intro h
    cases h with
    | altLeft h => exact .inl h
    | altRight h => exact .inr h
  · rintro (h | h)
    · exact .altLeft h
    · exact .altRight h

theorem matches_literal [DecidableEq α] {cs : List α} : Matches (literal cs) w ↔ w = cs := by
  induction cs generalizing w with
  | nil =>
      constructor
      · rintro ⟨⟩; rfl
      · rintro rfl; exact .epsilon
  | cons c cs ih =>
      rw [literal, matches_seq]
      constructor
      · rintro ⟨v, u, rfl, hv, hu⟩
        obtain ⟨d, hd, rfl⟩ := matches_char.mp hv
        have hdc : d = c := by simpa using hd
        rw [hdc, ih.mp hu]
        rfl
      · rintro rfl
        exact ⟨[c], cs, rfl, .char (by simp), ih.mpr rfl⟩

theorem nullable_iff : r.nullable = true ↔ Matches r [] := by
  induction r with
  | empty => simp only [nullable, Bool.false_eq_true, false_iff]; rintro ⟨⟩
  | epsilon => simp only [nullable, true_iff]; exact .epsilon
  | char p => simp only [nullable, Bool.false_eq_true, false_iff]; rintro ⟨⟩
  | seq r s ihr ihs =>
      rw [nullable, Bool.and_eq_true, ihr, ihs, matches_seq]
      constructor
      · rintro ⟨hr, hs⟩
        exact ⟨[], [], rfl, hr, hs⟩
      · rintro ⟨v, u, hw, hr, hs⟩
        obtain ⟨rfl, rfl⟩ := List.append_eq_nil_iff.mp hw.symm
        exact ⟨hr, hs⟩
  | alt r s ihr ihs => rw [nullable, Bool.or_eq_true, ihr, ihs, matches_alt]
  | star r _ => simp only [nullable, true_iff]; exact .starNil

theorem not_matches_of_dead (h : r.dead = true) : ¬ Matches r w := by
  intro hw
  induction hw with
  | seq _ _ ihr ihs =>
      rw [dead, Bool.or_eq_true] at h
      exact h.elim ihr ihs
  | altLeft _ ih => rw [dead, Bool.and_eq_true] at h; exact ih h.1
  | altRight _ ih => rw [dead, Bool.and_eq_true] at h; exact ih h.2
  | _ => simp [dead] at h

/-- A word of a star is empty or starts with a non-empty word of the body. -/
theorem matches_star_cons :
    Matches (.star r) (c :: w) ↔ ∃ v u, w = v ++ u ∧ Matches r (c :: v) ∧ Matches (.star r) u := by
  constructor
  · intro h
    generalize hx : Regex.star r = x at h
    generalize hy : c :: w = y at h
    induction h with
    | @starCons _ v' w' hr hs _ ihs =>
        cases hx
        cases v' with
        | nil => exact ihs rfl hy
        | cons d v' =>
            rw [List.cons_append] at hy
            injection hy with hd hw
            exact ⟨v', w', hw, hd ▸ hr, hs⟩
    | starNil => cases hy
    | _ => cases hx
  · rintro ⟨v, u, rfl, hv, hu⟩
    exact .starCons hv hu

/-- **Induction over the words of a star.** -/
theorem star_induction {P : List α → Prop} (hnil : P [])
    (hcons : ∀ v w, Matches r v → Matches (.star r) w → P w → P (v ++ w)) (h : Matches (.star r) w) : P w := by
  generalize hx : Regex.star r = x at h
  induction h with
  | starNil => exact hnil
  | starCons hr hs _ ih =>
      cases hx
      exact hcons _ _ hr hs (ih rfl)
  | _ => cases hx

theorem matches_cons : Matches r (c :: w) ↔ Matches (r.deriv c) w := by
  induction r generalizing w with
  | empty => constructor <;> rintro ⟨⟩
  | epsilon => constructor <;> rintro ⟨⟩
  | char p =>
      rw [matches_char, deriv]
      by_cases hp : p c
      · rw [if_pos hp]
        constructor
        · rintro ⟨d, _, hd⟩
          injection hd with _ hw
          exact hw ▸ .epsilon
        · rintro ⟨⟩
          exact ⟨c, hp, rfl⟩
      · rw [if_neg hp]
        constructor
        · rintro ⟨d, hd, he⟩
          injection he with hc _
          exact absurd (hc ▸ hd) hp
        · rintro ⟨⟩
  | seq r s ihr ihs =>
      have hleft : (∃ v u, w = v ++ u ∧ Matches r (c :: v) ∧ Matches s u) ↔
          Matches (.seq (r.deriv c) s) w := by
        rw [matches_seq]
        simp only [ihr]
      -- the first symbol belongs to the left part, unless that part is empty
      have hsplit : Matches (.seq r s) (c :: w) ↔ (Matches r [] ∧ Matches s (c :: w)) ∨
          ∃ v u, w = v ++ u ∧ Matches r (c :: v) ∧ Matches s u := by
        rw [matches_seq]
        constructor
        · rintro ⟨v, u, hw, hr, hs⟩
          cases v with
          | nil => exact .inl ⟨hr, by rw [hw]; exact hs⟩
          | cons d v =>
              rw [List.cons_append] at hw
              injection hw with hd hw
              exact .inr ⟨v, u, hw, hd ▸ hr, hs⟩
        · rintro (⟨hr, hs⟩ | ⟨v, u, rfl, hr, hs⟩)
          · exact ⟨[], c :: w, rfl, hr, hs⟩
          · exact ⟨c :: v, u, rfl, hr, hs⟩
      rw [hsplit, hleft, ihs, deriv]
      by_cases hn : r.nullable
      · rw [if_pos hn, matches_alt, or_comm]
        simp only [nullable_iff.mp hn, true_and]
      · rw [if_neg hn]
        have hno : ¬ Matches r [] := fun h => hn (nullable_iff.mpr h)
        simp only [hno, false_and, false_or]
  | alt r s ihr ihs => rw [deriv, matches_alt, matches_alt, ihr, ihs]
  | star r ih =>
      rw [matches_star_cons, deriv, matches_seq]
      simp only [ih]

/-! ## The longest match -/

/-- The length of the longest prefix in the language. -/
def longest : Regex α → List α → Option Nat
  | r, [] => if r.nullable then some 0 else none
  | r, c :: cs =>
      if r.dead then none
      else match (r.deriv c).longest cs with
        | some n => some (n + 1)
        | none => if r.nullable then some 0 else none

/-- No prefix is longer, and there is none at all where `longest` finds none. -/
theorem longest_max {m : Nat} (hm : Matches r (w.take m)) (hle : m ≤ w.length) :
    ∃ n, r.longest w = some n ∧ m ≤ n := by
  induction w generalizing r m with
  | nil =>
      obtain rfl := Nat.le_zero.mp hle
      exact ⟨0, by rw [longest, if_pos (nullable_iff.mpr hm)], Nat.le_refl 0⟩
  | cons c cs ih =>
      have hdead : ¬ r.dead = true := fun h => not_matches_of_dead h hm
      rw [longest, if_neg hdead]
      cases m with
      | zero =>
          cases hl : (r.deriv c).longest cs with
          | some n => exact ⟨n + 1, rfl, Nat.zero_le _⟩
          | none => exact ⟨0, by simp [nullable_iff.mpr hm], Nat.le_refl 0⟩
      | succ m =>
          rw [List.take_succ_cons] at hm
          obtain ⟨n, hn, hmn⟩ := ih (matches_cons.mp hm) (Nat.le_of_succ_le_succ hle)
          rw [hn]
          exact ⟨n + 1, rfl, Nat.succ_le_succ hmn⟩

theorem longest_matches {n : Nat} (h : r.longest w = some n) :
    n ≤ w.length ∧ Matches r (w.take n) := by
  induction w generalizing r n with
  | nil =>
      rw [longest] at h
      split at h
      · injection h with h
        rw [List.take_nil]
        exact ⟨Nat.le_of_eq h.symm, nullable_iff.mp ‹_›⟩
      · cases h
  | cons c cs ih =>
      rw [longest] at h
      split at h
      · cases h
      · cases hl : (r.deriv c).longest cs with
        | some m =>
            rw [hl] at h
            injection h with h
            obtain ⟨hle, hm⟩ := ih hl
            subst h
            exact ⟨Nat.succ_le_succ hle, matches_cons.mpr hm⟩
        | none =>
            rw [hl] at h
            simp only at h
            split at h
            · injection h with h
              subst h
              exact ⟨Nat.zero_le _, nullable_iff.mp ‹_›⟩
            · cases h

/-- A word of the language is its own longest prefix in it. -/
theorem longest_of_matches (h : Matches r w) : r.longest w = some w.length := by
  obtain ⟨n, hn, hle⟩ := longest_max (m := w.length) (by rw [List.take_length]; exact h) (Nat.le_refl _)
  rw [hn, Nat.le_antisymm (longest_matches hn).1 hle]

/-! ## Characters of a class -/

theorem star_char {p : α → Bool} (h : ∀ c ∈ w, p c = true) : Matches (.star (.char p)) w := by
  induction w with
  | nil => exact .starNil
  | cons c w ih =>
      have hrest := ih (fun d hd => h d (List.mem_cons_of_mem _ hd))
      exact .starCons (v := [c]) (.char (h c List.mem_cons_self)) hrest

theorem of_star_char {p : α → Bool} (h : Matches (.star (.char p)) w) : ∀ c ∈ w, p c = true := by
  refine star_induction (P := fun w => ∀ c ∈ w, p c = true) (fun c hc => absurd hc List.not_mem_nil) ?_ h
  intro v w hv _ ih c hc
  obtain ⟨d, hd, rfl⟩ := matches_char.mp hv
  rcases List.mem_append.mp hc with hc | hc
  · rw [List.mem_singleton.mp hc]
    exact hd
  · exact ih c hc

theorem plus_char {p : α → Bool} (h : ∀ d ∈ c :: w, p d = true) : Matches (plus (.char p)) (c :: w) :=
  .seq (v := [c]) (.char (h c List.mem_cons_self)) (star_char (fun d hd => h d (List.mem_cons_of_mem _ hd)))

theorem of_plus_char {p : α → Bool} (h : Matches (plus (.char p)) w) : ∀ c ∈ w, p c = true := by
  obtain ⟨v, u, rfl, hv, hu⟩ := matches_seq.mp h
  obtain ⟨d, hd, rfl⟩ := matches_char.mp hv
  intro c hc
  rcases List.mem_append.mp hc with hc | hc
  · rw [List.mem_singleton.mp hc]
    exact hd
  · exact of_star_char hu c hc

/-! ## Characters that cannot occur -/

/-- The class leaves of the expression all exclude `c`. -/
def avoids (c : α) : Regex α → Bool
  | .empty => true
  | .epsilon => true
  | .char p => !p c
  | .seq r s => r.avoids c && s.avoids c
  | .alt r s => r.avoids c && s.avoids c
  | .star r => r.avoids c

theorem not_mem_of_avoids (h : r.avoids c = true) (hw : Matches r w) : c ∉ w := by
  induction hw with
  | epsilon => simp
  | char hp =>
      intro hc
      obtain rfl := List.mem_singleton.mp hc
      simp [avoids, hp] at h
  | seq _ _ ihr ihs =>
      rw [avoids, Bool.and_eq_true] at h
      rw [List.mem_append, not_or]
      exact ⟨ihr h.1, ihs h.2⟩
  | altLeft _ ih => rw [avoids, Bool.and_eq_true] at h; exact ih h.1
  | altRight _ ih => rw [avoids, Bool.and_eq_true] at h; exact ih h.2
  | starNil => simp
  | starCons _ _ ihr ihs =>
      rw [List.mem_append, not_or]
      exact ⟨ihr h, ihs h⟩

end Regex

/-! ## Scanner rules -/

section Scan

variable {α β : Type}

/-- A pattern and what is done with its match. -/
structure ScanRule (α β : Type) where
  pattern : Regex α
  action : β

/-- The rule with the longest match, the first of them on a tie, and the length of the match. -/
def scan : List (ScanRule α β) → List α → Option (ScanRule α β × Nat)
  | [], _ => none
  | rule :: rules, w =>
      match rule.pattern.longest w, scan rules w with
      | none, found => found
      | some n, none => some (rule, n)
      | some n, some (other, m) => if n < m then some (other, m) else some (rule, n)

variable {rules : List (ScanRule α β)} {w : List α} {rule : ScanRule α β} {n : Nat}

theorem scan_sound (h : scan rules w = some (rule, n)) :
    rule ∈ rules ∧ n ≤ w.length ∧ rule.pattern.Matches (w.take n) := by
  induction rules with
  | nil => cases h
  | cons first rest ih =>
      have hfirst : ∀ m, first.pattern.longest w = some m →
          first ∈ first :: rest ∧ m ≤ w.length ∧ first.pattern.Matches (w.take m) :=
        fun m hm => ⟨List.mem_cons_self .., Regex.longest_matches hm⟩
      have hrest : scan rest w = some (rule, n) →
          rule ∈ first :: rest ∧ n ≤ w.length ∧ rule.pattern.Matches (w.take n) :=
        fun hr => ⟨List.mem_cons_of_mem _ (ih hr).1, (ih hr).2⟩
      rw [scan] at h
      cases hl : first.pattern.longest w with
      | none => rw [hl] at h; exact hrest h
      | some m =>
          rw [hl] at h
          cases hs : scan rest w with
          | none =>
              rw [hs] at h
              cases h
              exact hfirst _ hl
          | some found =>
              obtain ⟨other, k⟩ := found
              rw [hs] at h
              simp only at h
              split at h
              · exact hrest (hs.trans h)
              · cases h
                exact hfirst _ hl

/-- Where some rule matches a prefix, a rule is found whose match is at least as long. -/
theorem scan_max {other : ScanRule α β} {m : Nat} (ho : other ∈ rules) (hle : m ≤ w.length)
    (hm : other.pattern.Matches (w.take m)) : ∃ rule n, scan rules w = some (rule, n) ∧ m ≤ n := by
  induction rules with
  | nil => cases ho
  | cons first rest ih =>
      rw [scan]
      rcases List.mem_cons.mp ho with rfl | ho
      · obtain ⟨n, hn, hmn⟩ := Regex.longest_max hm hle
        rw [hn]
        cases scan rest w with
        | none => exact ⟨_, n, rfl, hmn⟩
        | some found =>
            obtain ⟨rule, k⟩ := found
            simp only
            split
            · exact ⟨rule, k, rfl, by omega⟩
            · exact ⟨_, n, rfl, hmn⟩
      · obtain ⟨rule, n, hn, hmn⟩ := ih ho
        rw [hn]
        cases first.pattern.longest w with
        | none => exact ⟨rule, n, rfl, hmn⟩
        | some k =>
            simp only
            split
            · exact ⟨rule, n, rfl, hmn⟩
            · exact ⟨first, k, rfl, by omega⟩

/-- Among the longest matches the first rule wins. -/
theorem scan_first {pre post : List (ScanRule α β)} {own : ScanRule α β}
    (h : scan (pre ++ own :: post) w = some (rule, n)) (ho : own.pattern.longest w = some n) :
    rule ∈ pre ++ [own] := by
  induction pre with
  | nil =>
      rw [List.nil_append, scan, ho] at h
      cases hs : scan post w with
      | none =>
          rw [hs] at h
          cases h
          exact List.mem_singleton.mpr rfl
      | some found =>
          obtain ⟨other, m⟩ := found
          rw [hs] at h
          simp only at h
          -- a later rule takes over only by a longer match, and nothing is longer than `own`
          split at h
          · cases h
            exact absurd ‹n < n› (Nat.lt_irrefl n)
          · cases h
            exact List.mem_singleton.mpr rfl
  | cons first pre ih =>
      rw [List.cons_append, scan] at h
      cases hl : first.pattern.longest w with
      | none =>
          rw [hl] at h
          exact List.mem_cons_of_mem _ (ih h)
      | some k =>
          rw [hl] at h
          cases hs : scan (pre ++ own :: post) w with
          | none =>
              rw [hs] at h
              cases h
              exact List.mem_cons_self
          | some found =>
              obtain ⟨other, m⟩ := found
              rw [hs] at h
              simp only at h
              split at h
              · exact List.mem_cons_of_mem _ (ih (hs.trans h))
              · cases h
                exact List.mem_cons_self

/-- The whole of `v` is matched if no rule matches more of the text: by `own`, or by a rule before it. -/
theorem scan_exact {pre post : List (ScanRule α β)} {own : ScanRule α β} {v u : List α}
    (hown : own.pattern.Matches v)
    (hmax : ∀ other ∈ pre ++ own :: post, ∀ c x, c :: x <+: u → ¬ other.pattern.Matches (v ++ c :: x)) :
    ∃ rule ∈ pre ++ [own], rule.pattern.Matches v ∧
      scan (pre ++ own :: post) (v ++ u) = some (rule, v.length) := by
  have hmem : own ∈ pre ++ own :: post := List.mem_append_right _ List.mem_cons_self
  have hle : v.length ≤ (v ++ u).length := by
    rw [List.length_append]
    exact Nat.le_add_right _ _
  have htake : (v ++ u).take v.length = v := List.take_left
  obtain ⟨rule, n, hs, hn⟩ := scan_max hmem hle (htake.symm ▸ hown)
  -- nothing longer is matched
  have hlonger : ∀ other ∈ pre ++ own :: post, ∀ m, v.length < m → m ≤ (v ++ u).length →
      ¬ other.pattern.Matches ((v ++ u).take m) := by
    intro other ho m hm hmle h
    rw [List.take_append, List.take_of_length_le (Nat.le_of_lt hm)] at h
    rw [List.length_append] at hmle
    cases hx : u.take (m - v.length) with
    | nil =>
        have hlen := congrArg List.length hx
        rw [List.length_take, List.length_nil] at hlen
        omega
    | cons c x =>
        rw [hx] at h
        exact hmax other ho c x (hx ▸ List.take_prefix _ _) h
  obtain ⟨hr, hnle, hm⟩ := scan_sound hs
  have heq : n = v.length := by
    rcases Nat.lt_or_eq_of_le hn with hlt | heq
    · exact absurd hm (hlonger rule hr n hlt hnle)
    · exact heq.symm
  subst heq
  refine ⟨rule, scan_first hs ?_, htake ▸ hm, hs⟩
  obtain ⟨k, hk, hle'⟩ := Regex.longest_max (htake.symm ▸ hown) hle
  obtain ⟨hkle, hkm⟩ := Regex.longest_matches hk
  rcases Nat.lt_or_eq_of_le hle' with hlt | heq
  · exact absurd hkm (hlonger own hmem k hlt hkle)
  · rw [hk, heq]

end Scan

end Lib
