import ParaCL.Lib.Outcome

/-!
# `Lib.Lockstep` — two interpreters with values of different types

`Prog.Lockstep R m m' S F`: from states related by `R` the two programs end alike, with values related by
`S`, with faults related by `F`, or both out of fuel. It is `Prog.Related` without the demand that values
and faults are equal, with one rule per program former.
-/

namespace Lib

variable {ε ε' σ τ α α' β β' : Type}

/-- Two outcomes of one kind. -/
inductive Outcome.Alike (S : α → α' → σ → τ → Prop) (F : ε → ε' → Prop) :
    Outcome ε σ α → Outcome ε' τ α' → Prop where
  | done {a : α} {a' : α'} {s : σ} {t : τ} (h : S a a' s t) : Alike S F (.done a s) (.done a' t)
  | fault {e : ε} {e' : ε'} {s : σ} {t : τ} (h : F e e') : Alike S F (.fault e s) (.fault e' t)
  | timeout {s : σ} {t : τ} : Alike S F (.timeout s) (.timeout t)

namespace Prog

/-- The two programs end alike. -/
def Lockstep (R : σ → τ → Prop) (m : Prog ε σ α) (m' : Prog ε' τ α') (S : α → α' → σ → τ → Prop)
    (F : ε → ε' → Prop) : Prop :=
  ∀ s t, R s t → Outcome.Alike S F (m s) (m' t)

namespace Lockstep

variable {R : σ → τ → Prop} {F : ε → ε' → Prop} {m : Prog ε σ α} {m' : Prog ε' τ α'}

theorem pure {a : α} {a' : α'} {S : α → α' → σ → τ → Prop} (h : ∀ s t, R s t → S a a' s t) :
    Lockstep R (Pure.pure a : Prog ε σ α) (Pure.pure a' : Prog ε' τ α') S F :=
  fun s t hR => .done (h s t hR)

theorem raise {e : ε} {e' : ε'} {S : α → α' → σ → τ → Prop} (h : F e e') :
    Lockstep R (Prog.raise e : Prog ε σ α) (Prog.raise e' : Prog ε' τ α') S F :=
  fun _ _ _ => .fault h

theorem gets {f : σ → α} {f' : τ → α'} {S : α → α' → σ → τ → Prop} (h : ∀ s t, R s t → S (f s) (f' t) s t) :
    Lockstep R (Prog.gets f : Prog ε σ α) (Prog.gets f' : Prog ε' τ α') S F :=
  fun s t hR => .done (h s t hR)

theorem modify {f : σ → σ} {f' : τ → τ} {S : Unit → Unit → σ → τ → Prop}
    (h : ∀ s t, R s t → S () () (f s) (f' t)) :
    Lockstep R (Prog.modify f : Prog ε σ Unit) (Prog.modify f' : Prog ε' τ Unit) S F :=
  fun s t hR => .done (h s t hR)

/-- **Sequencing.** -/
theorem bind {f : α → Prog ε σ β} {f' : α' → Prog ε' τ β'} {M : α → α' → σ → τ → Prop}
    {S : β → β' → σ → τ → Prop} (hm : Lockstep R m m' M F)
    (hf : ∀ a a', Lockstep (M a a') (f a) (f' a') S F) : Lockstep R (m >>= f) (m' >>= f') S F := by
  intro s t hR
  have h := hm s t hR
  cases hr : m s with
  | done a s1 =>
      cases hr' : m' t with
      | done a' t1 =>
          rw [hr, hr'] at h
          rw [bind_done hr, bind_done hr']
          cases h with
          | done h => exact hf a a' s1 t1 h
      | fault e' t1 => rw [hr, hr'] at h; cases h
      | timeout t1 => rw [hr, hr'] at h; cases h
  | fault e s1 =>
      cases hr' : m' t with
      | done a' t1 => rw [hr, hr'] at h; cases h
      | fault e' t1 =>
          rw [hr, hr'] at h
          rw [bind_fault hr, bind_fault hr']
          cases h with
          | fault h => exact .fault h
      | timeout t1 => rw [hr, hr'] at h; cases h
  | timeout s1 =>
      cases hr' : m' t with
      | done a' t1 => rw [hr, hr'] at h; cases h
      | fault e' t1 => rw [hr, hr'] at h; cases h
      | timeout t1 =>
          rw [bind_timeout hr, bind_timeout hr']
          exact .timeout

/-- **The loop rule.** `R` holds at every test, the two tests say the same. -/
theorem loop {test : Prog ε σ Bool} {test' : Prog ε' τ Bool} {body : Prog ε σ Unit} {body' : Prog ε' τ Unit}
    (ht : Lockstep R test test' (fun b b' s t => b = b' ∧ R s t) F)
    (hb : Lockstep R body body' (fun _ _ => R) F) :
    ∀ n, Lockstep R (Prog.loop test body n) (Prog.loop test' body' n) (fun _ _ => R) F := by
  intro n
  induction n with
  | zero => exact fun _ _ _ => .timeout
  | succ n ih =>
      refine bind ht (fun b b' => ?_)
      by_cases hbb : b = b'
      · subst hbb
        cases b with
        | true => exact fun s t h => bind hb (fun _ _ => ih) s t h.2
        | false => exact pure (fun _ _ h => h.2)
      · exact fun s t h => absurd h.1 hbb

end Lockstep

end Prog

end Lib
