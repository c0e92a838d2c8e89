import Mathlib.Data.List.Infix

/-!
# `Lib.Outcome` — state programs that may fault or run out of loop fuel

A `Prog ε σ α` runs over a state `σ` and ends in one of three ways: it is `done` with a value, it
`fault`s with a reason, or a loop ran out of its iteration bound (`timeout`). The state reached is kept
in all three cases, so that what a program printed before a fault or before its fuel was used up stays
visible. Divergence is "timeout for every bound".

Two rule sets come with the type:
* `Prog.Holds` — unary partial correctness: a precondition, a postcondition and the faults allowed;
* `Prog.Related` — two programs over two state types run in lockstep, with equal values and faults.

Both have one rule per program former (`pure`, `raise`, `bind`, `loop`), so that a client proves a fact
about an interpreter case by case over the syntax it interprets and never unfolds a loop. The last section
turns facts about every bound into facts about whole runs.
-/

namespace Lib

/-- How a run ends, and the state it ends in. -/
inductive Outcome (ε σ α : Type) where
  | done (a : α) (s : σ)
  | fault (e : ε) (s : σ)
  | timeout (s : σ)

namespace Outcome

variable {ε σ α : Type}

/-- The state a run ends in, whatever the ending. -/
def state : Outcome ε σ α → σ
  | done _ s => s
  | fault _ s => s
  | timeout s => s

/-- The run was cut short by the loop bound. -/
def IsTimeout : Outcome ε σ α → Prop
  | timeout _ => True
  | _ => False

end Outcome

/-- A program over state `σ` with faults in `ε` and results in `α`. -/
def Prog (ε σ α : Type) := σ → Outcome ε σ α

namespace Prog

variable {ε σ τ α β : Type}

/-- Run the second program in the state and on the value the first one left. -/
def bind (m : Prog ε σ α) (f : α → Prog ε σ β) : Prog ε σ β := fun s =>
  match m s with
  | .done a s' => f a s'
  | .fault e s' => .fault e s'
  | .timeout s' => .timeout s'

instance : Monad (Prog ε σ) where
  pure a := fun s => .done a s
  bind := bind

/-- Stop with a fault. -/
def raise (e : ε) : Prog ε σ α := fun s => .fault e s

/-- Read a function of the state. -/
def gets (f : σ → α) : Prog ε σ α := fun s => .done (f s) s

/-- Change the state. -/
def modify (f : σ → σ) : Prog ε σ Unit := fun s => .done () (f s)

/-- `while test do body`, for at most the given number of tests. -/
def loop (test : Prog ε σ Bool) (body : Prog ε σ Unit) : Nat → Prog ε σ Unit
  | 0 => fun s => .timeout s
  | n + 1 => do
      let b ← test
      if b then
        let _ ← body
        loop test body n
      else
        pure ()

theorem pure_run (a : α) (s : σ) : (pure a : Prog ε σ α) s = .done a s := rfl

theorem raise_run (e : ε) (s : σ) : (raise e : Prog ε σ α) s = .fault e s := rfl

theorem gets_bind (f : σ → α) (g : α → Prog ε σ β) (s : σ) :
    ((gets f : Prog ε σ α) >>= g) s = g (f s) s := rfl

theorem bind_done {m : Prog ε σ α} {f : α → Prog ε σ β} {s s' : σ} {a : α}
    (h : m s = .done a s') : (m >>= f) s = f a s' := by
  show bind m f s = f a s'
  simp only [bind, h]

theorem bind_fault {m : Prog ε σ α} {f : α → Prog ε σ β} {s s' : σ} {e : ε}
    (h : m s = .fault e s') : (m >>= f) s = .fault e s' := by
  show bind m f s = .fault e s'
  simp only [bind, h]

theorem bind_timeout {m : Prog ε σ α} {f : α → Prog ε σ β} {s s' : σ}
    (h : m s = .timeout s') : (m >>= f) s = .timeout s' := by
  show bind m f s = .timeout s'
  simp only [bind, h]

theorem bind_eq_done {m : Prog ε σ α} {f : α → Prog ε σ β} {s s' : σ} {b : β} :
    (m >>= f) s = .done b s' ↔ ∃ a s1, m s = .done a s1 ∧ f a s1 = .done b s' := by
  cases hr : m s with
  | done a s1 => simp [bind_done hr]
  | fault e s1 => simp [bind_fault hr]
  | timeout s1 => simp [bind_timeout hr]

/-! ## Unary rules -/

/-- From a state in `P` the run ends in `Q`, faults inside `E`, or runs out of fuel. -/
def Holds (P : σ → Prop) (m : Prog ε σ α) (Q : α → σ → Prop) (E : ε → σ → Prop) : Prop :=
  ∀ s, P s →
    match m s with
    | .done a s' => Q a s'
    | .fault e s' => E e s'
    | .timeout _ => True

section Unary

variable {P : σ → Prop} {E : ε → σ → Prop}

theorem Holds.pure {a : α} {Q : α → σ → Prop} (h : ∀ s, P s → Q a s) :
    Holds P (pure a : Prog ε σ α) Q E := fun s hs => h s hs

theorem Holds.raise {e : ε} {Q : α → σ → Prop} (h : ∀ s, P s → E e s) :
    Holds P (raise e : Prog ε σ α) Q E := fun s hs => h s hs

theorem Holds.modify {f : σ → σ} {Q : Unit → σ → Prop} (h : ∀ s, P s → Q () (f s)) :
    Holds P (modify f : Prog ε σ Unit) Q E := fun s hs => h s hs

/-- **Sequencing.** The middle condition may mention the value passed on. -/
theorem Holds.bind {m : Prog ε σ α} {f : α → Prog ε σ β} {M : α → σ → Prop} {Q : β → σ → Prop}
    (hm : Holds P m M E) (hf : ∀ a, Holds (M a) (f a) Q E) : Holds P (m >>= f) Q E := by
  intro s hs
  have h1 := hm s hs
  cases hr : m s with
  | done a s' =>
      rw [hr] at h1
      rw [bind_done hr]
      exact hf a s' h1
  | fault e s' =>
      rw [hr] at h1
      rw [bind_fault hr]
      exact h1
  | timeout s' =>
      rw [bind_timeout hr]
      trivial

/-- Weaken the postcondition and strengthen the precondition. -/
theorem Holds.weaken {P' : σ → Prop} {m : Prog ε σ α} {Q Q' : α → σ → Prop}
    (h : Holds P m Q E) (hP : ∀ s, P' s → P s) (hQ : ∀ a s, Q a s → Q' a s) :
    Holds P' m Q' E := by
  intro s hs
  have h1 := h s (hP s hs)
  cases hr : m s with
  | done a s' => rw [hr] at h1; exact hQ a s' h1
  | fault e s' => rw [hr] at h1; exact h1
  | timeout s' => trivial

/-- **The loop rule.** `I` holds at every test, `M` after it. -/
theorem Holds.loop {test : Prog ε σ Bool} {body : Prog ε σ Unit} {I : σ → Prop}
    {M : Bool → σ → Prop} {Q : Unit → σ → Prop} (ht : Holds I test M E)
    (hb : Holds (M true) body (fun _ => I) E) (hq : ∀ s, M false s → Q () s) :
    ∀ n, Holds I (loop test body n) Q E := by
  intro n
  induction n with
  | zero => intro s _; trivial
  | succ n ih =>
      refine Holds.bind ht ?_
      intro b
      cases b with
      | true => exact Holds.bind hb (fun _ => ih)
      | false => exact Holds.pure hq

end Unary

/-! ## Relational rules -/

/-- From related states the two runs end the same way: with the same value in states related by `S`, or
    with the same fault or both out of fuel in states related by `T`. -/
def Related (R : σ → τ → Prop) (m : Prog ε σ α) (m' : Prog ε τ α) (S : α → σ → τ → Prop)
    (T : σ → τ → Prop) : Prop :=
  ∀ s s', R s s' →
    match m s, m' s' with
    | .done a t, .done a' t' => a = a' ∧ S a t t'
    | .fault e t, .fault e' t' => e = e' ∧ T t t'
    | .timeout t, .timeout t' => T t t'
    | _, _ => False

section Relational

variable {R T : σ → τ → Prop}

theorem Related.pure {a : α} {S : α → σ → τ → Prop} (h : ∀ s s', R s s' → S a s s') :
    Related R (pure a : Prog ε σ α) (pure a : Prog ε τ α) S T :=
  fun s s' hR => ⟨rfl, h s s' hR⟩

theorem Related.raise {e : ε} {S : α → σ → τ → Prop} (h : ∀ s s', R s s' → T s s') :
    Related R (raise e : Prog ε σ α) (raise e : Prog ε τ α) S T :=
  fun s s' hR => ⟨rfl, h s s' hR⟩

theorem Related.modify {f : σ → σ} {f' : τ → τ} {S : Unit → σ → τ → Prop}
    (h : ∀ s s', R s s' → S () (f s) (f' s')) :
    Related R (modify f : Prog ε σ Unit) (modify f' : Prog ε τ Unit) S T :=
  fun s s' hR => ⟨rfl, h s s' hR⟩

/-- **Sequencing, in lockstep.** -/
theorem Related.bind {m : Prog ε σ α} {m' : Prog ε τ α} {f : α → Prog ε σ β} {f' : α → Prog ε τ β}
    {M : α → σ → τ → Prop} {S : β → σ → τ → Prop} (hm : Related R m m' M T)
    (hf : ∀ a, Related (M a) (f a) (f' a) S T) : Related R (m >>= f) (m' >>= f') S T := by
  intro s s' hR
  have h1 := hm s s' hR
  -- only outcomes of one kind are related; the mixed cases are absurd
  cases hr : m s with
  | done a t =>
      cases hr' : m' s' with
      | done a' t' =>
          rw [hr, hr'] at h1
          obtain ⟨rfl, hM⟩ := h1
          rw [bind_done hr, bind_done hr']
          exact hf a t t' hM
      | fault e' t' => rw [hr, hr'] at h1; exact h1.elim
      | timeout t' => rw [hr, hr'] at h1; exact h1.elim
  | fault e t =>
      cases hr' : m' s' with
      | done a' t' => rw [hr, hr'] at h1; exact h1.elim
      | fault e' t' =>
          rw [hr, hr'] at h1
          rw [bind_fault hr, bind_fault hr']
          exact h1
      | timeout t' => rw [hr, hr'] at h1; exact h1.elim
  | timeout t =>
      cases hr' : m' s' with
      | done a' t' => rw [hr, hr'] at h1; exact h1.elim
      | fault e' t' => rw [hr, hr'] at h1; exact h1.elim
      | timeout t' =>
          rw [hr, hr'] at h1
          rw [bind_timeout hr, bind_timeout hr']
          exact h1

theorem Related.weaken {R' : σ → τ → Prop} {m : Prog ε σ α} {m' : Prog ε τ α}
    {S S' : α → σ → τ → Prop} (h : Related R m m' S T) (hR : ∀ s s', R' s s' → R s s')
    (hS : ∀ a s s', S a s s' → S' a s s') : Related R' m m' S' T := by
  intro s s' hRR
  have h1 := h s s' (hR s s' hRR)
  cases hr : m s <;> cases hr' : m' s' <;> rw [hr, hr'] at h1
  case done.done a t a' t' => exact ⟨h1.1, hS a t t' h1.2⟩
  all_goals exact h1

/-- The second program may first take a step of its own. -/
theorem Related.right_first {R' : σ → τ → Prop} {f' : τ → τ} {m : Prog ε σ α} {m' : Prog ε τ α}
    {S : α → σ → τ → Prop} (h : Related R' m m' S T) (hR : ∀ s s', R s s' → R' s (f' s')) :
    Related R m (Prog.modify f' >>= fun _ => m') S T :=
  fun s s' hRs => h s (f' s') (hR s s' hRs)

/-- The second program may take a last step of its own. -/
theorem Related.right_last {f' : τ → τ} {m : Prog ε σ α} {m' : Prog ε τ α} {S S' : α → σ → τ → Prop}
    (h : Related R m m' S T) (hS : ∀ a s s', S a s s' → S' a s (f' s')) :
    Related R m (m' >>= fun a => Prog.modify f' >>= fun _ => Pure.pure a) S' T := by
  intro s s' hR
  have h1 := h s s' hR
  cases hr' : m' s' with
  | done a' t' =>
      rw [bind_done hr']
      cases hr : m s <;> rw [hr, hr'] at h1
      case done a t => exact ⟨h1.1, h1.1 ▸ hS a t t' h1.2⟩
      all_goals exact h1
  | fault e' t' =>
      rw [bind_fault hr']
      cases hr : m s <;> rw [hr, hr'] at h1 <;> exact h1
  | timeout t' =>
      rw [bind_timeout hr']
      cases hr : m s <;> rw [hr, hr'] at h1 <;> exact h1

/-- **The loop rule, in lockstep.** The relation `I` at every test implies the one observed when the
    fuel is used up. -/
theorem Related.loop {test : Prog ε σ Bool} {test' : Prog ε τ Bool} {body : Prog ε σ Unit}
    {body' : Prog ε τ Unit} {I : σ → τ → Prop} {M : Bool → σ → τ → Prop}
    {S : Unit → σ → τ → Prop} (ht : Related I test test' M T)
    (hb : Related (M true) body body' (fun _ => I) T) (hs : ∀ s s', M false s s' → S () s s')
    (hT : ∀ s s', I s s' → T s s') : ∀ n, Related I (loop test body n) (loop test' body' n) S T := by
  intro n
  induction n with
  | zero => intro s s' hI; exact hT s s' hI
  | succ n ih =>
      refine Related.bind ht ?_
      intro b
      cases b with
      | true => exact Related.bind hb (fun _ => ih)
      | false => exact Related.pure hs

end Relational

end Prog

/-! ## Whole runs

A program is given as `run : Nat → Outcome ε σ α`, its outcome for each loop bound. -/

section WholeRuns

variable {ε σ τ α β : Type}

/-- The run is over for some bound, and `P` holds of how it ended. -/
def Finishes (run : Nat → Outcome ε σ α) (P : α → σ → Prop) : Prop :=
  ∃ fuel a s, run fuel = .done a s ∧ P a s

/-- The run faults for some bound, and `P` holds of how it faulted. -/
def Faults (run : Nat → Outcome ε σ α) (P : ε → σ → Prop) : Prop :=
  ∃ fuel e s, run fuel = .fault e s ∧ P e s

/-- No bound suffices. -/
def Diverges (run : Nat → Outcome ε σ α) : Prop := ∀ fuel, (run fuel).IsTimeout

/-- The run comes to log the list, and possibly more after it. -/
def Logs (run : Nat → Outcome ε σ α) (log : σ → List β) (l : List β) : Prop :=
  ∃ fuel, l <+: log (run fuel).state

/-- Two programs that cannot be told apart by how they end and what they log. -/
structure SameRuns (run : Nat → Outcome ε σ α) (run' : Nat → Outcome ε τ α) (log : σ → List β)
    (log' : τ → List β) : Prop where
  finishes : ∀ a l, Finishes run (fun b s => b = a ∧ log s = l) ↔
    Finishes run' (fun b s => b = a ∧ log' s = l)
  faults : ∀ e l, Faults run (fun f s => f = e ∧ log s = l) ↔
    Faults run' (fun f s => f = e ∧ log' s = l)
  diverges : Diverges run ↔ Diverges run'
  logs : ∀ l, Logs run log l ↔ Logs run' log' l

/-- Two outcomes of the same kind, with the same value or fault and the same log. -/
def Outcome.Same (log : σ → List β) (log' : τ → List β) :
    Outcome ε σ α → Outcome ε τ α → Prop
  | .done a s, .done a' s' => a = a' ∧ log s = log' s'
  | .fault e s, .fault e' s' => e = e' ∧ log s = log' s'
  | .timeout s, .timeout s' => log s = log' s'
  | _, _ => False

/-- The same outcome is of one of the three kinds on both sides. -/
theorem Outcome.Same.kinds {log : σ → List β} {log' : τ → List β} {o : Outcome ε σ α} {o' : Outcome ε τ α}
    (h : o.Same log log' o') :
    (∃ a s s', o = .done a s ∧ o' = .done a s' ∧ log s = log' s') ∨
      (∃ e s s', o = .fault e s ∧ o' = .fault e s' ∧ log s = log' s') ∨
        ∃ s s', o = .timeout s ∧ o' = .timeout s' ∧ log s = log' s' := by
  cases o with
  | done a s =>
      cases o' with
      | done a' s' =>
          obtain ⟨rfl, hlog⟩ := h
          exact .inl ⟨a, s, s', rfl, rfl, hlog⟩
      | _ => exact h.elim
  | fault e s =>
      cases o' with
      | fault e' s' =>
          obtain ⟨rfl, hlog⟩ := h
          exact .inr (.inl ⟨e, s, s', rfl, rfl, hlog⟩)
      | _ => exact h.elim
  | timeout s =>
      cases o' with
      | timeout s' => exact .inr (.inr ⟨s, s', rfl, rfl, h⟩)
      | _ => exact h.elim

/-- Runs that end the same way for every bound are the same. -/
theorem SameRuns.of_same {run : Nat → Outcome ε σ α} {run' : Nat → Outcome ε τ α}
    {log : σ → List β} {log' : τ → List β} (h : ∀ fuel, (run fuel).Same log log' (run' fuel)) :
    SameRuns run run' log log' where
  finishes a l := by
    refine exists_congr (fun fuel => ?_)
    obtain ⟨b, s, s', hr, hr', hl⟩ | ⟨e, s, s', hr, hr', _⟩ | ⟨s, s', hr, hr', _⟩ := (h fuel).kinds
    · simp [hr, hr', hl]
    · simp [hr, hr']
    · simp [hr, hr']
  faults e l := by
    refine exists_congr (fun fuel => ?_)
    obtain ⟨b, s, s', hr, hr', _⟩ | ⟨f, s, s', hr, hr', hl⟩ | ⟨s, s', hr, hr', _⟩ := (h fuel).kinds
    · simp [hr, hr']
    · simp [hr, hr', hl]
    · simp [hr, hr']
  diverges := by
    refine forall_congr' (fun fuel => ?_)
    obtain ⟨b, s, s', hr, hr', _⟩ | ⟨e, s, s', hr, hr', _⟩ | ⟨s, s', hr, hr', _⟩ := (h fuel).kinds
    · simp [hr, hr', Outcome.IsTimeout]
    · simp [hr, hr', Outcome.IsTimeout]
    · simp [hr, hr', Outcome.IsTimeout]
  logs l := by
    refine exists_congr (fun fuel => ?_)
    obtain ⟨b, s, s', hr, hr', hl⟩ | ⟨e, s, s', hr, hr', hl⟩ | ⟨s, s', hr, hr', hl⟩ := (h fuel).kinds
    · simp [hr, hr', hl, Outcome.state]
    · simp [hr, hr', hl, Outcome.state]
    · simp [hr, hr', hl, Outcome.state]

theorem Prog.Related.same {R : σ → τ → Prop} {m : Prog ε σ α} {m' : Prog ε τ α}
    {S : α → σ → τ → Prop} {log : σ → List β} {log' : τ → List β}
    (h : Prog.Related R m m' S (fun s s' => log s = log' s'))
    (hS : ∀ a s s', S a s s' → log s = log' s') {s : σ} {s' : τ} (hR : R s s') :
    (m s).Same log log' (m' s') := by
  have h1 := h s s' hR
  cases hr : m s <;> cases hr' : m' s' <;> rw [hr, hr'] at h1
  case done.done a t a' t' => exact ⟨h1.1, hS a t t' h1.2⟩
  all_goals exact h1

end WholeRuns

end Lib
