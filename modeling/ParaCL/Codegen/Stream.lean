import ParaCL.Codegen.Ir
import ParaCL.Simulator.Operators
import Mathlib.Algebra.Order.Group.Int

/-!
# `Codegen.Stream` — standard input, as `std::cin` and as `scanf` read it

A stream is what one attempt to read an integer after the other finds (`InputStream`); for a text the attempts
are those of `attemptOn`, which both libraries make: white space, a sign, digits. They differ in what they do
when there is no integer. `std::cin` writes 0 into its target the first time, and once it has failed it neither
reads nor writes any more; `scanf` never writes, and tries again where it has stopped.
-/

namespace ParaCL

/-! ## What is found -/

/-- What an attempt to read an integer finds. -/
inductive Attempt where
  | integer (value : Int)
  | nonInteger
  | ended
  deriving DecidableEq, Repr

/-- What each attempt finds that starts where the one before has stopped. -/
structure InputStream where
  attempt : Nat → Attempt

namespace InputStream

/-- `isspace` in the C locale. -/
def isSpace (c : Char) : Bool := c ∈ [' ', '\t', '\n', '\x0b', '\x0c', '\r']

/-- The value of some digits. -/
def decimal (digits : List Char) : Nat := digits.foldl (fun n d => 10 * n + (d.toNat - '0'.toNat)) 0

/-- White space is skipped, then a sign and digits are taken. What is left starts with the first character that
    was not taken; a sign without digits is not left. -/
def attemptOn (text : List Char) : Attempt × List Char :=
  match text.dropWhile isSpace with
  | [] => (.ended, [])
  | c :: cs =>
      let rest := if c = '-' ∨ c = '+' then cs else c :: cs
      match rest.takeWhile Char.isDigit with
      | [] => (.nonInteger, rest)
      | digits =>
          let magnitude : Int := decimal digits
          (.integer (if c = '-' then -magnitude else magnitude), rest.dropWhile Char.isDigit)

/-- The text after some attempts. -/
def textAfter (text : List Char) : Nat → List Char
  | 0 => text
  | n + 1 => (attemptOn (textAfter text n)).2

def ofText (text : List Char) : InputStream := ⟨fun n => (attemptOn (textAfter text n)).1⟩

/-- After a sign that no digit follows, an integer may be found; after a letter none. -/
example : (List.range 3).map (ofText ['-', '-', '5', ' ', 'a', '7']).attempt =
    [.nonInteger, .integer (-5), .nonInteger] := by decide

example : (List.range 3).map (ofText ['4', 'a', '7']).attempt = [.integer 4, .nonInteger, .nonInteger] := by
  decide

/-! ## What is read -/

variable (S : InputStream)

/-- The `int` that the `n`-th attempt finds. -/
def read (n : Nat) : Option Number :=
  match S.attempt n with
  | .integer z => if InInt z then some (BitVec.ofInt 32 z) else none
  | _ => none

/-- What the `n`-th `number_t value; std::cin >> value;` leaves in `value`, where `unspecified` is what the
    new locals hold. After a failure the stream is not read any more; an integer that is too large is one, and
    leaves the limit it exceeds. -/
def cin (unspecified : Nat → Number) (n : Nat) : Number :=
  if ∀ m < n, (S.read m).isSome then
    match S.attempt n with
    | .integer z => BitVec.ofInt 32 (max (-2 ^ 31) (min z (2 ^ 31 - 1)))
    | .nonInteger => 0
    | .ended => unspecified n
  else unspecified n

/-- What the `n`-th `scanf("%d", &slot)` leaves in a slot. C does not define what happens at an integer that is
    no `int`. -/
def scanf (n : Nat) (slot : Constant) : Option Constant :=
  match S.attempt n with
  | .integer z => if InInt z then some (.int (BitVec.ofInt 32 z)) else none
  | _ => some slot

/-- `std::cin` has not failed before the `n`-th attempt, which does not come upon the end of the stream. -/
structure CinYields (n : Nat) : Prop where
  good : ∀ m < n, (S.read m).isSome
  attempt : S.attempt n ≠ .ended

/-- The `n`-th attempt does not find an integer that is no `int`. -/
def Representable (n : Nat) : Prop := ∀ z, S.attempt n = .integer z → InInt z

/-- The last `int` found by the first `n` attempts. -/
def lastRead : Nat → Option Number
  | 0 => none
  | n + 1 => (S.read n).or (lastRead n)

section Attempts

variable {S : InputStream} {u : Nat → Number} {w : Constant} {n : Nat} {v : Number}

theorem read_eq_some :
    S.read n = some v ↔ ∃ z, S.attempt n = .integer z ∧ InInt z ∧ v = BitVec.ofInt 32 z := by
  unfold read
  cases S.attempt n with
  | integer z =>
      by_cases hz : InInt z
      · simp [hz, eq_comm]
      · simp [hz]
  | nonInteger | ended => simp

theorem Representable.no_integer (h : S.Representable n) (hread : S.read n = none) (z : Int) :
    S.attempt n ≠ .integer z := by
  intro hz
  rw [read_eq_some.mpr ⟨z, hz, h z hz, rfl⟩] at hread
  cases hread

theorem cin_some (hgood : ∀ m < n, (S.read m).isSome) (h : S.read n = some v) : S.cin u n = v := by
  obtain ⟨z, hz, hfits, rfl⟩ := read_eq_some.mp h
  have hclamp : max (-2 ^ 31) (min z (2 ^ 31 - 1)) = z := by
    rw [min_eq_left (Int.le_sub_one_of_lt hfits.2), max_eq_right hfits.1]
  rw [cin, if_pos hgood, hz]
  dsimp only
  rw [hclamp]

theorem cin_none (hy : S.CinYields n) (hr : S.Representable n) (h : S.read n = none) : S.cin u n = 0 := by
  rw [cin, if_pos hy.good]
  cases ha : S.attempt n with
  | integer z => exact absurd ha (hr.no_integer h z)
  | nonInteger => rfl
  | ended => exact absurd ha hy.attempt

/-- A value that does not depend on the new local. -/
theorem cinYields_iff : S.CinYields n ↔ ∀ u', S.cin u' n = S.cin u n := by
  constructor
  · intro hy u'
    rw [cin, cin, if_pos hy.good, if_pos hy.good]
    cases ha : S.attempt n with
    | integer | nonInteger => rfl
    | ended => exact absurd ha hy.attempt
  · intro h
    by_contra hy
    have hcin (u' : Nat → Number) : S.cin u' n = u' n := by
      unfold cin
      split
      · rename_i hgood
        cases ha : S.attempt n with
        | integer z => exact absurd ⟨hgood, by rw [ha]; exact Attempt.noConfusion⟩ hy
        | nonInteger => exact absurd ⟨hgood, by rw [ha]; exact Attempt.noConfusion⟩ hy
        | ended => rfl
      · rfl
    have hzero := h (fun _ => 0)
    have hone := h (fun _ => 1)
    rw [hcin] at hzero hone
    rw [← hzero] at hone
    exact absurd hone (by decide)

theorem scanf_some (h : S.read n = some v) : S.scanf n w = some (.int v) := by
  obtain ⟨z, hz, hfits, rfl⟩ := read_eq_some.mp h
  rw [scanf, hz]
  exact if_pos hfits

theorem scanf_none (h : S.read n = none) (hr : S.Representable n) : S.scanf n w = some w := by
  unfold scanf
  cases ha : S.attempt n with
  | integer z => exact absurd ha (hr.no_integer h z)
  | nonInteger | ended => rfl

/-- Where C defines what is left, the integer is an `int`. -/
theorem representable_of_scanf {w' : Constant} (h : S.scanf n w = some w') : S.Representable n := by
  intro z hz
  unfold scanf at h
  rw [hz] at h
  dsimp only at h
  by_contra hno
  rw [if_neg hno] at h
  cases h

end Attempts

end InputStream

end ParaCL
