import ParaCL.Lib.Machine
import ParaCL.Lib.Outcome

/-!
# `Lib.Simulation` — realizing a fuelled program on a deterministic machine

`Realizes` says that a machine started in a configuration does what one run of a `Prog` did: it reaches
a configuration in the postcondition if the run is done, one at the fault if it faulted, and if the run
was cut off by its fuel `k` it takes at least `k` steps, up to a configuration that shows the same
state. `Realizes.bind` and `Realizes.loop` follow the two program formers, so a translation is proved
correct along the syntax; `realizes_*` at the end turn "realized for every fuel" into statements about
whole runs: endings in both directions, divergence, and equal logs.
-/

namespace Lib

open Prog

variable {C R ε σ α β : Type} {step : C → C ⊕ R}

/-- The machine at `c` does what the outcome `r`, of a run with loop bound `fuel`, says. `F` relates a
    fault to the configurations at that fault, `O` a state to the configurations that show it. -/
def Realizes (step : C → C ⊕ R) (F : ε → σ → C → Prop) (O : σ → C → Prop) (fuel : Nat) (c : C)
    (r : Outcome ε σ α) (Q : α → σ → C → Prop) : Prop :=
  match r with
  | .done a s => ∃ c', Star step c c' ∧ Q a s c'
  | .fault e s => ∃ c', Star step c c' ∧ F e s c'
  | .timeout s => ∃ n c', fuel ≤ n ∧ StepsN step n c c' ∧ O s c'

section Rules

variable {F : ε → σ → C → Prop} {O : σ → C → Prop} {fuel : Nat}

theorem Realizes.done {c : C} {a : α} {s : σ} {Q : α → σ → C → Prop} (h : Q a s c) :
    Realizes step F O fuel c (.done a s) Q := ⟨c, .refl c, h⟩

/-- Steps taken before the realizing run do not disturb it. -/
theorem Realizes.of_star {c c' : C} {r : Outcome ε σ α} {Q : α → σ → C → Prop}
    (hs : Star step c c') (h : Realizes step F O fuel c' r Q) : Realizes step F O fuel c r Q := by
  cases r with
  | done a s => obtain ⟨d, hd, hq⟩ := h; exact ⟨d, hs.trans hd, hq⟩
  | fault e s => obtain ⟨d, hd, hf⟩ := h; exact ⟨d, hs.trans hd, hf⟩
  | timeout s =>
      obtain ⟨m, hm⟩ := hs
      obtain ⟨n, d, hn, hd, ho⟩ := h
      exact ⟨m + n, d, by omega, hm.trans hd, ho⟩

theorem Realizes.weaken {c : C} {r : Outcome ε σ α} {Q Q' : α → σ → C → Prop}
    (h : Realizes step F O fuel c r Q) (hQ : ∀ a s c', Q a s c' → Q' a s c') :
    Realizes step F O fuel c r Q' := by
  cases r with
  | done a s => obtain ⟨d, hd, hq⟩ := h; exact ⟨d, hd, hQ a s d hq⟩
  | fault e s => exact h
  | timeout s => exact h

/-- Steps taken after the realizing run lead to what holds then. -/
theorem Realizes.extend {c : C} {r : Outcome ε σ α} {Q Q' : α → σ → C → Prop}
    (h : Realizes step F O fuel c r Q) (hQ : ∀ a s c', Q a s c' → ∃ d, Star step c' d ∧ Q' a s d) :
    Realizes step F O fuel c r Q' := by
  cases r with
  | done a s =>
      obtain ⟨c', hc, hq⟩ := h
      obtain ⟨d, hd, hq'⟩ := hQ a s c' hq
      exact ⟨d, hc.trans hd, hq'⟩
  | fault e s => exact h
  | timeout s => exact h

/-- **Sequencing.** -/
theorem Realizes.bind {c : C} {s : σ} {m : Prog ε σ α} {f : α → Prog ε σ β}
    {Q : α → σ → C → Prop} {Q' : β → σ → C → Prop} (hm : Realizes step F O fuel c (m s) Q)
    (hf : ∀ a s' c', Q a s' c' → Realizes step F O fuel c' (f a s') Q') :
    Realizes step F O fuel c ((m >>= f) s) Q' := by
  cases hr : m s with
  | done a s' =>
      rw [hr] at hm
      rw [bind_done hr]
      obtain ⟨d, hd, hq⟩ := hm
      exact (hf a s' d hq).of_star hd
  | fault e s' => rw [hr] at hm; rw [bind_fault hr]; exact hm
  | timeout s' => rw [hr] at hm; rw [bind_timeout hr]; exact hm

/-- **The loop rule.** `I` holds at the loop head; after the test the machine takes a step into the
    body when the test is true, and leaves for `Q` when it is false. The step is what makes an unbounded
    loop an unbounded run: `k` iterations cost at least `k` steps. -/
theorem Realizes.loop_of_le {test : Prog ε σ Bool} {body : Prog ε σ Unit} {I : σ → C → Prop}
    {M : Bool → σ → C → Prop} {Q : Unit → σ → C → Prop}
    (ht : ∀ s c, I s c → Realizes step F O fuel c (test s) M)
    (hb : ∀ s c, M true s c →
      ∃ c1, step c = .inl c1 ∧ Realizes step F O fuel c1 (body s) (fun _ => I))
    (hq : ∀ s c, M false s c → ∃ c1, Star step c c1 ∧ Q () s c1)
    (hO : ∀ s c, I s c → O s c) {bound : Nat} (hle : fuel ≤ bound) {s : σ} {c : C} (hI : I s c) :
    Realizes step F O fuel c (loop test body bound s) Q := by
  -- `k` steps have been taken from `c0`, and `n` iterations are left
  suffices ∀ n k s c c0, fuel ≤ k + n → StepsN step k c0 c → I s c →
      Realizes step F O fuel c0 (Prog.loop test body n s) Q from
    this bound 0 s c c (by omega) (.refl c) hI
  clear hI s c
  intro n
  induction n with
  | zero =>
      intro k s c c0 hk hc hI
      exact ⟨k, c, by omega, hc, hO s c hI⟩
  | succ n ih =>
      intro k s c c0 hk hc hI
      have htest := ht s c hI
      unfold Prog.loop
      cases hr : test s with
      | fault e s' => rw [hr] at htest; rw [bind_fault hr]; exact Realizes.of_star ⟨k, hc⟩ htest
      | timeout s' => rw [hr] at htest; rw [bind_timeout hr]; exact Realizes.of_star ⟨k, hc⟩ htest
      | done b s' =>
          rw [hr] at htest
          rw [bind_done hr]
          obtain ⟨d, ⟨m, hd⟩, hM⟩ := htest
          cases b with
          | false =>
              obtain ⟨d', hd', hQ⟩ := hq s' d hM
              exact Realizes.of_star ⟨_, hc.trans hd⟩ ⟨d', hd', hQ⟩
          | true =>
              obtain ⟨d1, hstep, hbody⟩ := hb s' d hM
              have hto : StepsN step (k + m + 1) c0 d1 := (hc.trans hd).trans (.one hstep)
              simp only [if_true]
              cases hr' : body s' with
              | fault e t =>
                  rw [hr'] at hbody
                  rw [bind_fault hr']
                  exact Realizes.of_star ⟨_, hto⟩ hbody
              | timeout t =>
                  rw [hr'] at hbody
                  rw [bind_timeout hr']
                  exact Realizes.of_star ⟨_, hto⟩ hbody
              | done u t =>
                  rw [hr'] at hbody
                  rw [bind_done hr']
                  obtain ⟨d2, ⟨m', hd2⟩, hI'⟩ := hbody
                  exact ih (k + m + 1 + m') t d2 c0 (by omega) (hto.trans hd2) hI'

/-- The bound of the loop is that of the run. -/
theorem Realizes.loop {test : Prog ε σ Bool} {body : Prog ε σ Unit} {I : σ → C → Prop}
    {M : Bool → σ → C → Prop} {Q : Unit → σ → C → Prop}
    (ht : ∀ s c, I s c → Realizes step F O fuel c (test s) M)
    (hb : ∀ s c, M true s c →
      ∃ c1, step c = .inl c1 ∧ Realizes step F O fuel c1 (body s) (fun _ => I))
    (hq : ∀ s c, M false s c → ∃ c1, Star step c c1 ∧ Q () s c1)
    (hO : ∀ s c, I s c → O s c) {s : σ} {c : C} (hI : I s c) :
    Realizes step F O fuel c (loop test body fuel s) Q :=
  Realizes.loop_of_le ht hb hq hO (Nat.le_refl fuel) hI

/-- One step before a run counts. -/
theorem Realizes.of_step {c c' : C} {r : Outcome ε σ α} {Q : α → σ → C → Prop} {k : Nat}
    (hs : step c = .inl c') (hk : k ≤ fuel + 1) (h : Realizes step F O fuel c' r Q) :
    Realizes step F O k c r Q := by
  cases r with
  | done a s => obtain ⟨d, hd, hq⟩ := h; exact ⟨d, (Star.one hs).trans hd, hq⟩
  | fault e s => obtain ⟨d, hd, hf⟩ := h; exact ⟨d, (Star.one hs).trans hd, hf⟩
  | timeout s =>
      obtain ⟨n, d, hn, hd, ho⟩ := h
      exact ⟨n + 1, d, by omega, .head hs hd, ho⟩

end Rules

/-! ## Whole runs

A program is given as `run : Nat → Outcome ε σ α`, its outcome for each loop bound. What the client
owes is `hQ` and `hF`: a completed run and a faulted run each leave the machine at an ending. -/

section WholeRuns

variable {F : ε → σ → C → Prop} {O : σ → C → Prop} {Q : α → σ → C → Prop} {c : C}
  {run : Nat → Outcome ε σ α} (h : ∀ fuel, Realizes step F O fuel c (run fuel) Q)
include h

/-- A program out of fuel for every bound is an endless run. -/
theorem realizes_forever (hd : ∀ fuel, (run fuel).IsTimeout) : Forever step c := by
  refine forever_of_unbounded (fun k => ?_)
  have hk := h k
  cases hr : run k with
  | done a s => have := hd k; rw [hr] at this; exact this.elim
  | fault e s => have := hd k; rw [hr] at this; exact this.elim
  | timeout s =>
      rw [hr] at hk
      obtain ⟨n, d, hn, hd, _⟩ := hk
      exact ⟨n, d, hn, hd⟩

variable (hQ : ∀ a s c', Q a s c' → ∃ r, step c' = .inr r)
  (hF : ∀ e s c', F e s c' → ∃ r, step c' = .inr r)
include hQ hF

/-- An endless run is a program out of fuel for every bound. -/
theorem realizes_of_forever (hf : Forever step c) (fuel : Nat) : (run fuel).IsTimeout := by
  have hk := h fuel
  cases hr : run fuel with
  | timeout s => trivial
  | done a s =>
      rw [hr] at hk
      obtain ⟨d, hd, hq⟩ := hk
      obtain ⟨r, hr⟩ := hQ a s d hq
      exact (Ends.not_forever ⟨hd, hr⟩ hf).elim
  | fault e s =>
      rw [hr] at hk
      obtain ⟨d, hd, hq⟩ := hk
      obtain ⟨r, hr⟩ := hF e s d hq
      exact (Ends.not_forever ⟨hd, hr⟩ hf).elim

/-- A run that ends is a run of the program that was not cut off, and it ends where that run says. -/
theorem realizes_of_ends {d : C} {r : R} (he : Ends step c d r) :
    ∃ fuel, (∃ a s, run fuel = .done a s ∧ Q a s d) ∨ (∃ e s, run fuel = .fault e s ∧ F e s d) := by
  by_contra hnone
  push Not at hnone
  refine he.not_forever (realizes_forever h (fun fuel => ?_))
  have hk := h fuel
  cases hr : run fuel with
  | timeout s => trivial
  | done a s =>
      rw [hr] at hk
      obtain ⟨d', hd, hq⟩ := hk
      obtain ⟨r', hr'⟩ := hQ a s d' hq
      obtain ⟨rfl, _⟩ := he.unique ⟨hd, hr'⟩
      exact absurd hq ((hnone fuel).1 a s hr)
  | fault e s =>
      rw [hr] at hk
      obtain ⟨d', hd, hq⟩ := hk
      obtain ⟨r', hr'⟩ := hF e s d' hq
      obtain ⟨rfl, _⟩ := he.unique ⟨hd, hr'⟩
      exact absurd hq ((hnone fuel).2 e s hr)

/-- **Equal logs.** What the program logs for some bound and what the machine logs after some number of
    steps are the same finite lists up to prefixes: neither side ever shows what the other does not. -/
theorem realizes_log {obs : C → List β} (hobs : ∀ a b, step a = .inl b → obs a <+: obs b)
    {log : σ → List β} (hQl : ∀ a s c', Q a s c' → obs c' = log s)
    (hFl : ∀ e s c', F e s c' → obs c' = log s) (hOl : ∀ s c', O s c' → obs c' = log s)
    (l : List β) :
    (∃ fuel, l <+: log (run fuel).state) ↔ ∃ n d, StepsN step n c d ∧ l <+: obs d := by
  constructor
  · rintro ⟨fuel, hl⟩
    have hk := h fuel
    cases hr : run fuel with
    | done a s =>
        rw [hr] at hk hl
        obtain ⟨d, ⟨n, hd⟩, hq⟩ := hk
        exact ⟨n, d, hd, by rw [hQl a s d hq]; exact hl⟩
    | fault e s =>
        rw [hr] at hk hl
        obtain ⟨d, ⟨n, hd⟩, hq⟩ := hk
        exact ⟨n, d, hd, by rw [hFl e s d hq]; exact hl⟩
    | timeout s =>
        rw [hr] at hk hl
        obtain ⟨n, d, _, hd, ho⟩ := hk
        exact ⟨n, d, hd, by rw [hOl s d ho]; exact hl⟩
  · rintro ⟨n, d, hd, hl⟩
    -- `n` as the bound: either the run is over by then, or it goes at least that far
    refine ⟨n, hl.trans ?_⟩
    have hk := h n
    cases hr : run n with
    | done a s =>
        rw [hr] at hk
        obtain ⟨d', hd', hq⟩ := hk
        obtain ⟨r, hr'⟩ := hQ a s d' hq
        show obs d <+: log s
        rw [← hQl a s d' hq]
        exact Ends.obs_extends hobs ⟨hd', hr'⟩ hd
    | fault e s =>
        rw [hr] at hk
        obtain ⟨d', hd', hq⟩ := hk
        obtain ⟨r, hr'⟩ := hF e s d' hq
        show obs d <+: log s
        rw [← hFl e s d' hq]
        exact Ends.obs_extends hobs ⟨hd', hr'⟩ hd
    | timeout s =>
        rw [hr] at hk
        obtain ⟨m, d', hm, hd', ho⟩ := hk
        show obs d <+: log s
        rw [← hOl s d' ho]
        exact hd.obs_mono hobs hd' hm

end WholeRuns

end Lib
