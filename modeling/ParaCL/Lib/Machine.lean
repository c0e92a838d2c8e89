import Mathlib.Data.List.Infix
import Mathlib.Order.WellFounded

/-!
# `Lib.Machine` — deterministic machines, their runs and their endings

A machine is a function `step : C → C ⊕ R`: a configuration either goes on to the next one or ends with
a result in `R`. Being a function it is deterministic, so a configuration has at most one ending
(`Ends.unique`) and either ends or runs forever (`ends_or_forever`, `Ends.not_forever`).

A machine may be observed through `obs : C → List β`, a log that a step only extends; the last section
says what the logs along one run have to do with each other.
-/

namespace Lib

variable {C R β : Type} {step : C → C ⊕ R}

/-- `n` steps lead from the first configuration to the second. -/
inductive StepsN (step : C → C ⊕ R) : Nat → C → C → Prop where
  | refl (c : C) : StepsN step 0 c c
  | head {n : Nat} {a b c : C} : step a = .inl b → StepsN step n b c → StepsN step (n + 1) a c

/-- Some number of steps leads from the first configuration to the second. -/
def Star (step : C → C ⊕ R) (a b : C) : Prop := ∃ n, StepsN step n a b

/-- The run from `a` stops in configuration `b` with result `r`. -/
def Ends (step : C → C ⊕ R) (a b : C) (r : R) : Prop := Star step a b ∧ step b = .inr r

/-- The run from `a` never stops. -/
def Forever (step : C → C ⊕ R) (a : C) : Prop := ∀ n, ∃ b, StepsN step n a b

theorem StepsN.one {a b : C} (h : step a = .inl b) : StepsN step 1 a b := .head h (.refl b)

theorem StepsN.trans {m n : Nat} {a b c : C} (h1 : StepsN step m a b) (h2 : StepsN step n b c) :
    StepsN step (m + n) a c := by
  induction h1 with
  | refl => rw [Nat.zero_add]; exact h2
  | head hs _ ih => rw [Nat.add_right_comm]; exact .head hs (ih h2)

theorem Star.refl (a : C) : Star step a a := ⟨0, .refl a⟩

theorem Star.one {a b : C} (h : step a = .inl b) : Star step a b := ⟨1, .one h⟩

theorem Star.trans {a b c : C} (h1 : Star step a b) (h2 : Star step b c) : Star step a c := by
  obtain ⟨m, h1⟩ := h1
  obtain ⟨n, h2⟩ := h2
  exact ⟨m + n, h1.trans h2⟩

/-- **What every step preserves holds along a run.** -/
theorem Star.invariant {I : C → Prop} (hstep : ∀ {a b}, I a → step a = .inl b → I b) {a b : C}
    (h : Star step a b) (ha : I a) : I b := by
  obtain ⟨n, h⟩ := h
  induction h with
  | refl => exact ha
  | head hs _ ih => exact ih (hstep ha hs)

/-- A longer run passes through where a shorter one stopped. -/
theorem StepsN.split {m n : Nat} {a b : C} (h : StepsN step n a b) (hmn : m ≤ n) :
    ∃ c, StepsN step m a c ∧ StepsN step (n - m) c b := by
  induction m generalizing n a with
  | zero => exact ⟨a, .refl a, h⟩
  | succ m ih =>
      cases h with
      | refl => omega
      | @head n' _ a' _ hs hrest =>
          obtain ⟨c, h1, h2⟩ := ih hrest (by omega)
          exact ⟨c, .head hs h1, by rwa [Nat.add_sub_add_right]⟩

theorem StepsN.unique {n : Nat} {a b c : C} (h1 : StepsN step n a b) (h2 : StepsN step n a c) :
    b = c := by
  induction h1 with
  | refl => cases h2; rfl
  | head hs _ ih =>
      cases h2 with
      | head hs' h2 =>
          rw [hs] at hs'
          injection hs' with hbb
          exact ih (hbb ▸ h2)

/-- No run goes past an ending. -/
theorem StepsN.le_of_ends {m n : Nat} {a b c : C} {r : R} (h1 : StepsN step m a b)
    (hr : step b = .inr r) (h2 : StepsN step n a c) : n ≤ m := by
  by_contra hlt
  obtain ⟨d, hd, hrest⟩ := h2.split (by omega : m ≤ n)
  obtain rfl := h1.unique hd
  cases hk : n - m with
  | zero => omega
  | succ k =>
      rw [hk] at hrest
      cases hrest with
      | head hs _ => rw [hr] at hs; cases hs

theorem Ends.unique {a b b' : C} {r r' : R} (h : Ends step a b r) (h' : Ends step a b' r') :
    b = b' ∧ r = r' := by
  obtain ⟨⟨m, hm⟩, hr⟩ := h
  obtain ⟨⟨n, hn⟩, hr'⟩ := h'
  have hmn : m = n := Nat.le_antisymm (hn.le_of_ends hr' hm) (hm.le_of_ends hr hn)
  subst hmn
  obtain rfl := hm.unique hn
  rw [hr] at hr'
  injection hr' with hrr
  exact ⟨rfl, hrr⟩

theorem Ends.not_forever {a b : C} {r : R} (h : Ends step a b r) : ¬ Forever step a := by
  obtain ⟨⟨m, hm⟩, hr⟩ := h
  intro hf
  obtain ⟨c, hc⟩ := hf (m + 1)
  have := hm.le_of_ends hr hc
  omega

theorem ends_or_forever (a : C) : (∃ b r, Ends step a b r) ∨ Forever step a := by
  by_cases hf : Forever step a
  · exact .inr hf
  · left
    -- the last step count that is still reached ends the run
    unfold Forever at hf
    push Not at hf
    obtain ⟨n, hn⟩ := hf
    induction n with
    | zero => exact absurd (.refl a) (hn a)
    | succ n ih =>
        by_cases hk : ∃ b, StepsN step n a b
        · obtain ⟨b, hb⟩ := hk
          cases hs : step b with
          | inl b' => exact absurd (hb.trans (.one hs)) (hn b')
          | inr r => exact ⟨b, r, ⟨n, hb⟩, hs⟩
        · exact ih (fun b hb => hk ⟨b, hb⟩)

/-- A run that is arbitrarily long never stops. -/
theorem forever_of_unbounded {a : C} (h : ∀ k, ∃ n b, k ≤ n ∧ StepsN step n a b) :
    Forever step a := by
  intro k
  obtain ⟨n, b, hkn, hb⟩ := h k
  obtain ⟨c, hc, _⟩ := hb.split hkn
  exact ⟨c, hc⟩

/-! ## Runs that end -/

/-- It is enough to end after the next step, if there is one. -/
theorem exists_ends {a : C} (h : ∀ b, step a = .inl b → ∃ c r, Ends step b c r) :
    ∃ c r, Ends step a c r := by
  cases hs : step a with
  | inr r => exact ⟨a, r, .refl a, hs⟩
  | inl b =>
      obtain ⟨c, r, hstar, hr⟩ := h b hs
      exact ⟨c, r, (Star.one hs).trans hstar, hr⟩

/-- **A measure that every step decreases** ends the run, also if some steps lead to where it is known to
    end. -/
theorem exists_ends_of_measure {α : Type} [LT α] [WellFoundedLT α] (μ : C → α) {I : C → Prop}
    (hstep : ∀ {a b}, I a → step a = .inl b → I b ∧ μ b < μ a ∨ ∃ c r, Ends step b c r) {a : C}
    (ha : I a) : ∃ c r, Ends step a c r := by
  generalize hm : μ a = m
  induction m using WellFoundedLT.induction generalizing a with
  | ind m ih =>
      refine exists_ends (fun b hs => ?_)
      rcases hstep ha hs with ⟨hb, hlt⟩ | hends
      · exact ih _ (hm ▸ hlt) hb rfl
      · exact hends

/-! ## Computed runs -/

/-- The configuration after `n` steps, if the run has not ended before. -/
def iterate (step : C → C ⊕ R) : Nat → C → Option C
  | 0, a => some a
  | n + 1, a =>
      match step a with
      | .inl b => iterate step n b
      | .inr _ => none

theorem stepsN_of_iterate {n : Nat} {a b : C} (h : iterate step n a = some b) : StepsN step n a b := by
  induction n generalizing a with
  | zero =>
      cases h
      exact .refl _
  | succ n ih =>
      rw [iterate] at h
      split at h
      · exact .head ‹_› (ih h)
      · cases h

/-- A run that a computation found to reach a configuration with some property. -/
theorem star_of_iterate {n : Nat} {a : C} {p : C → Bool} (h : (iterate step n a).any p = true) :
    ∃ b, Star step a b ∧ p b = true := by
  obtain ⟨b, hb, hp⟩ := (Option.any_eq_true p _).mp h
  exact ⟨b, ⟨n, stepsN_of_iterate hb⟩, hp⟩

/-- A run that a computation found to end in a configuration with some property. -/
theorem ends_of_iterate {n : Nat} {a : C} {p : C → Bool}
    (h : (iterate step n a).any (fun b => p b && (step b).isRight) = true) :
    ∃ b r, Ends step a b r ∧ p b = true := by
  obtain ⟨b, hb, hp⟩ := star_of_iterate h
  obtain ⟨hp, hright⟩ := Bool.and_eq_true_iff.mp hp
  obtain ⟨r, hr⟩ := Sum.isRight_iff.mp hright
  exact ⟨b, r, ⟨hb, hr⟩, hp⟩

/-- Where the run ends, and with what, if a number of steps is enough. -/
def runToEnd (step : C → C ⊕ R) : Nat → C → Option (C × R)
  | 0, _ => none
  | n + 1, a =>
      match step a with
      | .inl b => runToEnd step n b
      | .inr r => some (a, r)

/-- **Running for some number of steps finds the ending.** -/
theorem ends_iff_runToEnd {a b : C} {r : R} : Ends step a b r ↔ ∃ n, runToEnd step n a = some (b, r) := by
  constructor
  · rintro ⟨⟨n, hn⟩, hr⟩
    refine ⟨n + 1, ?_⟩
    induction hn with
    | refl => rw [runToEnd, hr]
    | head hs _ ih =>
        rw [runToEnd, hs]
        exact ih hr
  · rintro ⟨n, h⟩
    induction n generalizing a with
    | zero => cases h
    | succ n ih =>
        cases hs : step a with
        | inl a' =>
            rw [runToEnd, hs] at h
            obtain ⟨hstar, hr⟩ := ih h
            exact ⟨(Star.one hs).trans hstar, hr⟩
        | inr r' =>
            rw [runToEnd, hs] at h
            cases h
            exact ⟨.refl _, hs⟩

/-- More steps find the same ending. -/
theorem runToEnd_mono {m n : Nat} {a : C} {x : C × R} (hmn : m ≤ n) (h : runToEnd step m a = some x) :
    runToEnd step n a = some x := by
  induction m generalizing n a with
  | zero => cases h
  | succ m ih =>
      obtain ⟨n, rfl⟩ := Nat.exists_eq_add_of_le' (Nat.lt_of_lt_of_le (Nat.succ_pos m) hmn)
      cases hs : step a with
      | inl a' =>
          rw [runToEnd, hs] at h ⊢
          exact ih (Nat.le_of_succ_le_succ hmn) h
      | inr r =>
          rw [runToEnd, hs] at h ⊢
          exact h

/-! ## Observed runs -/

section Observed

variable {obs : C → List β} (hobs : ∀ a b, step a = .inl b → obs a <+: obs b)
include hobs

theorem StepsN.obs_extends {n : Nat} {a b : C} (h : StepsN step n a b) : obs a <+: obs b := by
  induction h with
  | refl => exact List.prefix_refl _
  | head hs _ ih => exact (hobs _ _ hs).trans ih

/-- Along one run the log after fewer steps is a prefix of the log after more. -/
theorem StepsN.obs_mono {m n : Nat} {a b c : C} (hb : StepsN step m a b) (hc : StepsN step n a c)
    (hmn : m ≤ n) : obs b <+: obs c := by
  obtain ⟨d, hd, hrest⟩ := hc.split hmn
  obtain rfl := hb.unique hd
  exact hrest.obs_extends hobs

/-- Every log along an ending run is a prefix of the log it ends with. -/
theorem Ends.obs_extends {n : Nat} {a b c : C} {r : R} (h : Ends step a b r)
    (hc : StepsN step n a c) : obs c <+: obs b := by
  obtain ⟨⟨m, hm⟩, hr⟩ := h
  exact hc.obs_mono hobs hm (hm.le_of_ends hr hc)

end Observed

end Lib
