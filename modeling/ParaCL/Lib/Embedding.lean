import ParaCL.Lib.Outcome

/-!
# `Lib.Embedding` — one program inside another, and programs that agree up to a stop

Two relations between `Prog`s with one rule for each program former. `Embeds` is for a program that is another
one carried over to a state with more in it: it does exactly what the other does, seen through maps of faults,
states and values. `Unless` is for a program that does what another one does as long as that does not stop early
for a reason that excuses it: out of fuel for a program with more fuel (`ends_once`), a fault for one that is
defined on more.
-/

namespace Lib

variable {ε ε' σ τ α β γ δ : Type}

/-! ## Embeddings -/

/-- The outcome with its fault, its state and its value mapped. -/
def Outcome.map (φ : ε → ε') (ψ : σ → τ) (χ : α → β) : Outcome ε σ α → Outcome ε' τ β
  | .done a s => .done (χ a) (ψ s)
  | .fault e s => .fault (φ e) (ψ s)
  | .timeout s => .timeout (ψ s)

namespace Prog

/-- Started in the image of a state the second program does what the first one does. -/
def Embeds (φ : ε → ε') (ψ : σ → τ) (χ : α → β) (m : Prog ε σ α) (m' : Prog ε' τ β) : Prop :=
  ∀ s, m' (ψ s) = (m s).map φ ψ χ

section Embeds

variable {φ : ε → ε'} {ψ : σ → τ} {χ : α → β}

theorem Embeds.pure (a : α) :
    Embeds φ ψ χ (Pure.pure a : Prog ε σ α) (Pure.pure (χ a) : Prog ε' τ β) := fun _ => rfl

theorem Embeds.modify {f : σ → σ} {f' : τ → τ} (h : ∀ s, f' (ψ s) = ψ (f s)) :
    Embeds φ ψ id (Prog.modify f : Prog ε σ Unit) (Prog.modify f' : Prog ε' τ Unit) := fun s => by
  show Outcome.done () (f' (ψ s)) = _
  rw [h]
  rfl

/-- **Sequencing.** -/
theorem Embeds.bind {χ' : γ → δ} {m : Prog ε σ α} {m' : Prog ε' τ β} {f : α → Prog ε σ γ} {f' : β → Prog ε' τ δ}
    (hm : Embeds φ ψ χ m m') (hf : ∀ a, Embeds φ ψ χ' (f a) (f' (χ a))) :
    Embeds φ ψ χ' (m >>= f) (m' >>= f') := by
  intro s
  have h1 := hm s
  cases hr : m s with
  | done a s1 =>
      rw [hr] at h1
      rw [bind_done hr, bind_done h1]
      exact hf a s1
  | fault e s1 =>
      rw [hr] at h1
      rw [bind_fault hr, bind_fault h1]
      rfl
  | timeout s1 =>
      rw [hr] at h1
      rw [bind_timeout hr, bind_timeout h1]
      rfl

/-- A value that is only handed on. -/
theorem Embeds.andThen {χ' : α → δ} {m : Prog ε σ α} {m' : Prog ε' τ β} {f' : β → Prog ε' τ δ}
    (hm : Embeds φ ψ χ m m') (hf : ∀ a, f' (χ a) = Pure.pure (χ' a)) : Embeds φ ψ χ' m (m' >>= f') := by
  have hbind : Embeds φ ψ χ' (m >>= fun a => Pure.pure a) (m' >>= f') :=
    hm.bind (fun a => by rw [hf]; exact .pure a)
  intro s
  rw [hbind s]
  cases hr : m s with
  | done a s1 => rw [bind_done hr]; rfl
  | fault e s1 => rw [bind_fault hr]
  | timeout s1 => rw [bind_timeout hr]

/-- **Loops.** -/
theorem Embeds.loop {test : Prog ε σ Bool} {test' : Prog ε' τ Bool} {body : Prog ε σ Unit}
    {body' : Prog ε' τ Unit} (ht : Embeds φ ψ id test test') (hb : Embeds φ ψ id body body') :
    ∀ n, Embeds φ ψ id (Prog.loop test body n) (Prog.loop test' body' n) := by
  intro n
  induction n with
  | zero => exact fun s => rfl
  | succ n ih =>
      refine ht.bind (fun b => ?_)
      cases b with
      | true => exact hb.bind (fun _ => ih)
      | false => exact .pure ()

end Embeds

end Prog

/-! ## Agreement up to a stop -/

/-- The run has stopped early for a reason in `R`: `none` is the fuel, `some e` a fault. -/
def Outcome.Stopped (R : Option ε → Prop) : Outcome ε σ α → Prop
  | .done _ _ => False
  | .fault e _ => R (some e)
  | .timeout _ => R none

/-- From the state on the second run logs what the first one logs, and is the same unless the first one has
    stopped for a reason in `R`. -/
structure Outlasts (R : Option ε → Prop) (log : σ → List β) (s : σ) (r r' : Outcome ε σ α) : Prop where
  grows : log s <+: log r'.state
  logs : log r.state <+: log r'.state
  same : r.Stopped R ∨ r' = r

theorem Outlasts.refl {R : Option ε → Prop} {log : σ → List β} {s : σ} {r : Outcome ε σ α}
    (h : log s <+: log r.state) : Outlasts R log s r r := ⟨h, List.prefix_refl _, .inr rfl⟩

namespace Prog

/-- From every state the second program outlasts the first one. -/
def Unless (R : Option ε → Prop) (log : σ → List β) (m m' : Prog ε σ α) : Prop :=
  ∀ s, Outlasts R log s (m s) (m' s)

section Unless

variable {R : Option ε → Prop} {log : σ → List β}

theorem Unless.pure (a : α) : Unless R log (Pure.pure a) (Pure.pure a) := fun _ => .refl (List.prefix_refl _)

theorem Unless.raise (e : ε) : Unless R log (raise e : Prog ε σ α) (raise e) :=
  fun _ => .refl (List.prefix_refl _)

theorem Unless.gets (f : σ → α) : Unless R log (gets f) (gets f) := fun _ => .refl (List.prefix_refl _)

theorem Unless.modify {f : σ → σ} (h : ∀ s, log s <+: log (f s)) : Unless R log (modify f) (modify f) :=
  fun s => .refl (h s)

/-- A fault in `R` leaves the other program free to go on. -/
theorem Unless.of_raise {e : ε} (hR : R (some e)) {m : Prog ε σ α} (h : ∀ s, log s <+: log (m s).state) :
    Unless R log (Prog.raise e) m := fun s => ⟨h s, h s, .inl hR⟩

/-- The log of a sequence goes on from that of its first part. -/
theorem log_bind {m : Prog ε σ α} {f : α → Prog ε σ γ} (h : ∀ a s, log s <+: log (f a s).state) (s : σ) :
    log (m s).state <+: log ((m >>= f) s).state := by
  cases hr : m s with
  | done a s1 => rw [bind_done hr]; exact h a s1
  | fault e s1 => rw [bind_fault hr]; exact List.prefix_refl _
  | timeout s1 => rw [bind_timeout hr]; exact List.prefix_refl _

/-- **Sequencing.** -/
theorem Unless.bind {m m' : Prog ε σ α} {f f' : α → Prog ε σ γ} (hm : Unless R log m m')
    (hf : ∀ a, Unless R log (f a) (f' a)) : Unless R log (m >>= f) (m' >>= f') := by
  intro s
  obtain ⟨hgrows, hlogs, hsame⟩ := hm s
  have hrest := log_bind (m := m') (fun a s1 => (hf a s1).grows) s
  cases hr : m s with
  | done a s1 =>
      rw [hr] at hlogs hsame
      have he := hsame.resolve_left id
      obtain ⟨h1, h2, h3⟩ := hf a s1
      rw [he] at hgrows
      rw [bind_done hr, bind_done he]
      exact ⟨hgrows.trans h1, h2, h3⟩
  | fault e s1 =>
      rw [hr] at hlogs hsame
      rw [bind_fault hr]
      exact ⟨hgrows.trans hrest, hlogs.trans hrest, hsame.imp id (fun he => bind_fault he)⟩
  | timeout s1 =>
      rw [hr] at hlogs hsame
      rw [bind_timeout hr]
      exact ⟨hgrows.trans hrest, hlogs.trans hrest, hsame.imp id (fun he => bind_timeout he)⟩

/-- **Loops**, with more fuel if being out of fuel is a reason. -/
theorem Unless.loop {test test' : Prog ε σ Bool} {body body' : Prog ε σ Unit} (ht : Unless R log test test')
    (hb : Unless R log body body') :
    ∀ {m n : Nat}, m = n ∨ (m ≤ n ∧ R none) → Unless R log (loop test body m) (loop test' body' n) := by
  -- the longer loop logs more from each of its tests on, whether the shorter one gets there or not
  have hlog : ∀ (n : Nat) (s : σ), log s <+: log (Prog.loop test' body' n s).state := by
    intro n
    induction n with
    | zero => exact fun s => List.prefix_refl _
    | succ n ih =>
        intro s
        refine (ht s).grows.trans (log_bind (fun b s1 => ?_) s)
        cases b with
        | true => exact (hb s1).grows.trans (log_bind (fun _ => ih) s1)
        | false => exact List.prefix_refl _
  intro m
  induction m with
  | zero =>
      intro n hmn s
      rcases hmn with rfl | ⟨_, hR⟩
      · exact .refl (List.prefix_refl _)
      · exact ⟨hlog n s, hlog n s, .inl hR⟩
  | succ m ih =>
      intro n hmn
      cases n with
      | zero => omega
      | succ n =>
          have hmn' : m = n ∨ (m ≤ n ∧ R none) := hmn.imp (by omega) (fun h => ⟨by omega, h.2⟩)
          refine ht.bind (fun b => ?_)
          cases b with
          | true => exact hb.bind (fun _ => ih hmn')
          | false => exact .pure ()

end Unless

theorem bind_assoc_run (m : Prog ε σ α) (f : α → Prog ε σ β) (g : β → Prog ε σ γ) (s : σ) :
    ((m >>= f) >>= g) s = (m >>= fun a => f a >>= g) s := by
  cases hr : m s with
  | done a s1 =>
      rw [bind_done (f := fun a => f a >>= g) hr]
      cases hr2 : f a s1 with
      | done b s2 => rw [bind_done ((bind_done hr).trans hr2), bind_done hr2]
      | fault e s2 => rw [bind_fault ((bind_done hr).trans hr2), bind_fault hr2]
      | timeout s2 => rw [bind_timeout ((bind_done hr).trans hr2), bind_timeout hr2]
  | fault e s1 => rw [bind_fault (bind_fault hr), bind_fault hr]
  | timeout s1 => rw [bind_timeout (bind_timeout hr), bind_timeout hr]

theorem bind_congr_run {m : Prog ε σ α} {f g : α → Prog ε σ β} (h : ∀ a s, f a s = g a s) (s : σ) :
    (m >>= f) s = (m >>= g) s := by
  have hfg : f = g := funext (fun a => funext (h a))
  rw [hfg]

end Prog

/-- Being out of fuel. -/
def OutOfFuel (r : Option ε) : Prop := r = none

theorem Outcome.stopped_outOfFuel {r : Outcome ε σ α} : r.Stopped OutOfFuel ↔ r.IsTimeout := by
  cases r with
  | done a s => exact .rfl
  | fault e s => exact ⟨fun h => (by cases h), fun h => h.elim⟩
  | timeout s => exact ⟨fun _ => trivial, fun _ => rfl⟩

/-- What stays as it is with more fuel either never ends or has one end, from some bound on. -/
theorem ends_once {run : Nat → Outcome ε σ α}
    (h : ∀ {m n}, m ≤ n → (run m).Stopped OutOfFuel ∨ run n = run m) :
    Diverges run ∨ ∃ r, ¬ r.IsTimeout ∧ (∃ n, run n = r) ∧ ∀ m, (run m).IsTimeout ∨ run m = r := by
  by_cases hd : Diverges run
  · exact .inl hd
  · right
    obtain ⟨n, hn⟩ := not_forall.mp hd
    refine ⟨run n, hn, ⟨n, rfl⟩, fun m => ?_⟩
    rcases Nat.le_total m n with hmn | hmn
    · exact (h hmn).imp Outcome.stopped_outOfFuel.mp Eq.symm
    · exact .inr ((h hmn).resolve_left (fun hs => hn (Outcome.stopped_outOfFuel.mp hs)))

end Lib
