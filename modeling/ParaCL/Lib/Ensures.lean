import Mathlib.Logic.Basic

/-!
# `Lib.Ensures` — postconditions and inversion for `Except`

`Ensures r Q E`: the computation `r` returned a value in `Q` or threw an exception in `E`. One rule for each
former, so that a fact about a recursive function in `Except` is proved along its text; `bind_ok_iff` takes a
successful run apart.
-/

namespace Lib

variable {ε α β : Type}

/-- A value in `Q`, or an exception in `E`. -/
def Ensures (r : Except ε α) (Q : α → Prop) (E : ε → Prop) : Prop :=
  match r with
  | .ok a => Q a
  | .error e => E e

namespace Ensures

variable {r : Except ε α} {Q Q' : α → Prop} {E E' : ε → Prop}

theorem ok {a : α} (h : Q a) : Ensures (.ok a : Except ε α) Q E := h

theorem error {e : ε} (h : E e) : Ensures (.error e : Except ε α) Q E := h

/-- **Sequencing.** -/
theorem bind {f : α → Except ε β} {M : α → Prop} {Q : β → Prop} (hr : Ensures r M E)
    (hf : ∀ a, M a → Ensures (f a) Q E) : Ensures (r >>= f) Q E := by
  cases r with
  | ok a => exact hf a hr
  | error e => exact hr

theorem weaken (h : Ensures r Q E) (hQ : ∀ a, Q a → Q' a) (hE : ∀ e, E e → E' e) :
    Ensures r Q' E' := by
  cases r with
  | ok a => exact hQ a h
  | error e => exact hE e h

/-- Only what it returns is of interest. -/
theorem result (h : Ensures r Q E) : Ensures r Q (fun _ => True) := h.weaken (fun _ => id) (fun _ _ => trivial)

/-- Two postconditions hold together. -/
theorem and (h : Ensures r Q E) (h' : Ensures r Q' E') :
    Ensures r (fun a => Q a ∧ Q' a) (fun e => E e ∧ E' e) := by
  cases r with
  | ok a => exact ⟨h, h'⟩
  | error e => exact ⟨h, h'⟩

theorem of_ok (h : Ensures r Q E) {a : α} (hr : r = .ok a) : Q a := by
  subst hr; exact h

theorem of_error (h : Ensures r Q E) {e : ε} (hr : r = .error e) : E e := by
  subst hr; exact h

end Ensures

/-! ## Two computations -/

section Coupled

variable {ε' α' β' : Type} {r : Except ε α} {r' : Except ε' α'} {Q Q' : α → α' → Prop}

/-- Both return, values that are related, or both throw. -/
def Coupled (r : Except ε α) (r' : Except ε' α') (Q : α → α' → Prop) : Prop :=
  match r, r' with
  | .ok a, .ok a' => Q a a'
  | .error _, .error _ => True
  | _, _ => False

namespace Coupled

theorem ok {a : α} {a' : α'} (h : Q a a') : Coupled (.ok a : Except ε α) (.ok a' : Except ε' α') Q := h

theorem error {e : ε} {e' : ε'} : Coupled (.error e : Except ε α) (.error e' : Except ε' α') Q := trivial

/-- **Sequencing.** -/
theorem bind {f : α → Except ε β} {f' : α' → Except ε' β'} {P : β → β' → Prop} (hr : Coupled r r' Q)
    (hf : ∀ a a', Q a a' → Coupled (f a) (f' a') P) : Coupled (r >>= f) (r' >>= f') P := by
  cases r with
  | ok a =>
      cases r' with
      | ok a' => exact hf a a' hr
      | error e' => exact hr.elim
  | error e =>
      cases r' with
      | ok a' => exact hr.elim
      | error e' => exact trivial

theorem weaken (h : Coupled r r' Q) (hQ : ∀ a a', Q a a' → Q' a a') : Coupled r r' Q' := by
  cases r with
  | ok a =>
      cases r' with
      | ok a' => exact hQ a a' h
      | error e' => exact h
  | error e =>
      cases r' with
      | ok a' => exact h
      | error e' => trivial

end Coupled

end Coupled

/-! ## Successful runs -/

theorem bind_ok_iff {r : Except ε α} {f : α → Except ε β} {b : β} :
    (r >>= f) = .ok b ↔ ∃ a, r = .ok a ∧ f a = .ok b := by
  cases r with
  | ok a => simp [Bind.bind, Except.bind]
  | error e => simp [Bind.bind, Except.bind]

end Lib
