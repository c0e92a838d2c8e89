import Mathlib.Data.Nat.Find
import ParaCL.Parser.Layout

/-!
# `Parser.Comments` — where a block comment ends (`BLOCK_COMMENT` of `lexer.l`)

The pattern takes a text apart by stars, and flex takes its longest match. Behind the opening `/*` the first
closing is at position `n` (`ClosesFirst`) exactly if the pattern matches the text up to there, and it matches
no other prefix (`block_comment_first_closing`). Without a closing the `/` is an operator.
-/

namespace ParaCL

open Lib

/-- The first `*/` of the text stands at this position. -/
def ClosesFirst (w : List Char) (n : Nat) : Prop :=
  ['*', '/'] <+: w.drop n ∧ ∀ m < n, ¬ ['*', '/'] <+: w.drop m

section Closing

variable {u w : List Char} {n : Nat}

theorem staysOpen_iff : staysOpen u = true ↔ ∀ m, ¬ ['*', '/'] <+: u.drop m := by
  induction u with
  | nil =>
      refine iff_of_true rfl (fun m h => ?_)
      rw [List.drop_nil] at h
      cases List.prefix_nil.mp h
  | cons c u ih =>
      have hhead : ['*', '/'] <+: c :: u ↔ c = '*' ∧ u.head? = some '/' := by
        cases u with
        | nil => simp [List.cons_prefix_cons]
        | cons d u => simp [List.cons_prefix_cons, eq_comm]
      rw [staysOpen, Bool.and_eq_true, ih]
      constructor
      · rintro ⟨hopen, hrest⟩ m h
        cases m with
        | zero => simp [hhead.mp h] at hopen
        | succ m => exact hrest m h
      · intro h
        refine ⟨?_, fun m => h (m + 1)⟩
        have hno : c = '*' → u.head? ≠ some '/' := fun hc hu => h 0 (hhead.mpr ⟨hc, hu⟩)
        simpa [imp_iff_not_or] using hno

/-- A closing stands somewhere if and only if one of them is the first. -/
theorem exists_closesFirst : (∃ n, ['*', '/'] <+: w.drop n) ↔ ∃ n, ClosesFirst w n := by
  constructor
  · intro h
    exact ⟨Nat.find h, Nat.find_spec h, fun m hm => Nat.find_min h hm⟩
  · rintro ⟨n, hn, _⟩
    exact ⟨n, hn⟩

/-- In front of the first closing is a text that stays open. -/
theorem closesFirst_iff : ClosesFirst w n ↔
    ∃ u v, w = u ++ '*' :: '/' :: v ∧ u.length = n ∧ staysOpen u = true := by
  constructor
  · rintro ⟨⟨v, hv⟩, hno⟩
    have hlt : n < w.length := by
      by_contra hge
      rw [List.drop_of_length_le (Nat.not_lt.mp hge)] at hv
      cases hv
    refine ⟨w.take n, v, ?_, List.length_take_of_le (Nat.le_of_lt hlt), staysOpen_iff.mpr (fun m hm => ?_)⟩
    · calc w = w.take n ++ w.drop n := (List.take_append_drop n w).symm
        _ = w.take n ++ '*' :: '/' :: v := by rw [← hv]; rfl
    · -- a closing inside the part taken is one of the text
      have hlen := hm.length_le
      rw [List.drop_take] at hm hlen
      have hlen : 2 ≤ (List.take (n - m) (w.drop m)).length := hlen
      rw [List.length_take] at hlen
      exact hno m (by omega) (hm.trans (List.take_prefix _ _))
  · rintro ⟨u, v, rfl, rfl, hopen⟩
    refine ⟨?_, fun m hm h => ?_⟩
    · rw [List.drop_left]
      exact ⟨v, rfl⟩
    · rw [List.drop_append_of_le_length (Nat.le_of_lt hm)] at h
      cases hu : u.drop m with
      | nil =>
          have hlen := congrArg List.length hu
          rw [List.length_drop, List.length_nil] at hlen
          omega
      | cons c rest =>
          rw [hu] at h
          cases rest with
          | nil =>
              -- the last character in front of the closing, and its star
              have hsecond := (List.cons_prefix_cons.mp (List.cons_prefix_cons.mp h).2).1
              revert hsecond
              decide
          | cons d rest =>
              refine staysOpen_iff.mp hopen m ?_
              rw [hu]
              obtain ⟨hc, h⟩ := List.cons_prefix_cons.mp h
              obtain ⟨hd, _⟩ := List.cons_prefix_cons.mp h
              exact ⟨rest, by rw [← hc, ← hd]; rfl⟩

/-- **What the pattern matches** of a text: the part up to the first closing. -/
theorem blockComment_matches_iff {p : List Char} (hp : p <+: '/' :: '*' :: w) :
    Patterns.blockComment.Matches p ↔ ∃ n, p.length = n + 4 ∧ ClosesFirst w n := by
  constructor
  · intro h
    obtain ⟨u, rfl, hopen⟩ := matches_blockComment h
    obtain ⟨v, hv⟩ := hp
    have hw : w = u ++ '*' :: '/' :: v := by simpa using hv.symm
    exact ⟨u.length, by simp, closesFirst_iff.mpr ⟨u, v, hw, rfl, hopen⟩⟩
  · rintro ⟨n, hn, hfirst⟩
    obtain ⟨u, v, rfl, rfl, hopen⟩ := closesFirst_iff.mp hfirst
    have htext : '/' :: '*' :: (u ++ '*' :: '/' :: v) = (['/', '*'] ++ u ++ ['*', '/']) ++ v := by simp
    rw [htext] at hp
    have heq : p = ['/', '*'] ++ u ++ ['*', '/'] :=
      (List.prefix_of_prefix_length_le hp (List.prefix_append _ v) (by simp [hn])).eq_of_length (by simp [hn])
    rw [heq]
    exact blockComment_matches hopen

/-- There is one first closing. -/
theorem ClosesFirst.unique {m : Nat} (hm : ClosesFirst w m) (hn : ClosesFirst w n) : m = n := by
  rcases Nat.lt_trichotomy m n with h | h | h
  · exact absurd hm.1 (hn.2 m h)
  · exact h
  · exact absurd hn.1 (hm.2 n h)

theorem blockComment_longest {k : Nat} : Patterns.blockComment.longest ('/' :: '*' :: w) = some k ↔
    ∃ n, k = n + 4 ∧ ClosesFirst w n := by
  constructor
  · intro h
    obtain ⟨hle, hm⟩ := Regex.longest_matches h
    obtain ⟨n, hn, hfirst⟩ := (blockComment_matches_iff (List.take_prefix _ _)).mp hm
    exact ⟨n, by rw [← hn, List.length_take_of_le hle], hfirst⟩
  · rintro ⟨n, rfl, hfirst⟩
    obtain ⟨u, v, hw, hu, _⟩ := closesFirst_iff.mp hfirst
    have hle : n + 4 ≤ ('/' :: '*' :: w).length := by
      rw [hw, ← hu]
      simp
    have hm : Patterns.blockComment.Matches (('/' :: '*' :: w).take (n + 4)) :=
      (blockComment_matches_iff (List.take_prefix _ _)).mpr ⟨n, List.length_take_of_le hle, hfirst⟩
    obtain ⟨k, hk, _⟩ := Regex.longest_max hm hle
    obtain ⟨hkle, hkm⟩ := Regex.longest_matches hk
    obtain ⟨n', hn', hfirst'⟩ := (blockComment_matches_iff (List.take_prefix _ _)).mp hkm
    rw [List.length_take_of_le hkle] at hn'
    rw [hk, hn', hfirst'.unique hfirst]

/-! ## The scanner -/

/-- A comment that is closed is skipped up to its first closing. -/
theorem nextPiece_of_closesFirst (h : ClosesFirst w n) :
    nextPiece ('/' :: '*' :: w) = some (⟨.skip, '/' :: '*' :: w.take (n + 2)⟩, w.drop (n + 2)) := by
  obtain ⟨u, v, rfl, rfl, hopen⟩ := closesFirst_iff.mp h
  have htake : (u ++ '*' :: '/' :: v).take (u.length + 2) = u ++ ['*', '/'] := by
    rw [List.take_length_add_append]
    rfl
  have hdrop : (u ++ '*' :: '/' :: v).drop (u.length + 2) = v := by
    rw [List.drop_length_add_append]
    rfl
  have hrules : lexerRules = lexerRules.take 3 ++ ⟨Patterns.blockComment, .skip⟩ :: lexerRules.drop 4 := rfl
  obtain ⟨rule, hr, hm, hn⟩ :=
    nextPiece_lexeme hrules (blockComment_matches hopen) (blockComment_ends u v)
  have hr : rule ∈ [⟨Patterns.whitespace, .advance⟩, ⟨Patterns.newline, .newline⟩,
    ⟨Patterns.lineComment, .advance⟩, (⟨Patterns.blockComment, .skip⟩ : ScanRule Char LexAction)] := hr
  simp only [List.mem_cons, List.not_mem_nil, or_false] at hr
  rw [htake, hdrop]
  rcases hr with rfl | rfl | rfl | rfl
  · cases matches_whitespace hm '/' (by simp)
  · obtain ⟨e, _, he⟩ := Regex.matches_char.mp hm
    cases he
  · obtain ⟨y, hy⟩ := matches_lineComment hm
    cases hy
  · simpa using hn

/-- Without a closing the `/` is the operator. -/
theorem nextPiece_of_never_closed (h : ∀ n, ¬ ['*', '/'] <+: w.drop n) :
    nextPiece ('/' :: '*' :: w) = some (⟨.token .tokDiv, ['/']⟩, '*' :: w) := by
  have hends : LexemeEnds ['/'] ('*' :: w) := by
    intro rule hr d x hx
    obtain ⟨rfl, _⟩ := List.cons_prefix_cons.mp hx
    refine not_longer (List.cons_ne_nil _ _) (fun hm => ?_) (fun hm => ?_) (fun hm => ?_)
      (fun r hr hm => ?_) rule hr
    · cases matches_whitespace hm '/' (by simp)
    · obtain ⟨y, hy⟩ := matches_lineComment hm
      cases hy
    · have hp : '/' :: '*' :: x <+: '/' :: '*' :: w := List.cons_prefix_cons.mpr ⟨rfl, hx⟩
      obtain ⟨n, _, hfirst⟩ := (blockComment_matches_iff hp).mp hm
      exact h n hfirst.1
    · have hd := Regex.matches_cons.mp (Regex.matches_cons.mp hm)
      exact Regex.not_matches_of_dead (tokenRules_slash r hr) hd
  exact nextPiece_of_find (by decide) hends

end Closing

/-- **A block comment ends at the first closing mark.** Behind `/*` the pattern's longest match reaches up to
    the first `*/`, no other prefix is matched, and the scanner goes on right behind it; without a closing the
    pattern matches nothing, and the scanner reads a division. -/
theorem block_comment_first_closing (w : List Char) :
    (∀ k, Patterns.blockComment.longest ('/' :: '*' :: w) = some k ↔ ∃ n, k = n + 4 ∧ ClosesFirst w n) ∧
      (Patterns.blockComment.longest ('/' :: '*' :: w) = none ↔ ∀ n, ¬ ['*', '/'] <+: w.drop n) ∧
      (∀ p, p <+: '/' :: '*' :: w →
        (Patterns.blockComment.Matches p ↔ ∃ n, p.length = n + 4 ∧ ClosesFirst w n)) ∧
      (∀ n, ClosesFirst w n →
        nextPiece ('/' :: '*' :: w) = some (⟨.skip, '/' :: '*' :: w.take (n + 2)⟩, w.drop (n + 2))) ∧
      ((∀ n, ¬ ['*', '/'] <+: w.drop n) →
        nextPiece ('/' :: '*' :: w) = some (⟨.token .tokDiv, ['/']⟩, '*' :: w)) := by
  refine ⟨fun k => blockComment_longest, ?_, fun p hp => blockComment_matches_iff hp,
    fun n => nextPiece_of_closesFirst, nextPiece_of_never_closed⟩
  rw [← not_exists, exists_closesFirst]
  constructor
  · rintro hnone ⟨n, hn⟩
    rw [blockComment_longest.mpr ⟨n, rfl, hn⟩] at hnone
    cases hnone
  · intro hno
    cases hl : Patterns.blockComment.longest ('/' :: '*' :: w) with
    | none => rfl
    | some k =>
        obtain ⟨n, _, hn⟩ := blockComment_longest.mp hl
        exact absurd ⟨n, hn⟩ hno

/-- In `/* **/ */` the comment ends at the first of two closings, and `/*/` is none. -/
example : Patterns.blockComment.longest ['/', '*', ' ', '*', '*', '/', ' ', '*', '/'] = some 6 ∧
    Patterns.blockComment.longest ['/', '*', '/'] = none := by decide

end ParaCL
