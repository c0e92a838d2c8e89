import Mathlib.Data.List.Basic

/-!
# `Lib.Monitor` — a run watched action by action

A run is a list of actions, each of which changes the state. A ghost value is kept beside the state: it
follows the actions and the run never reads it. `Safe` says that at every moment of the run the state is good
for the ghost value there, and that every action is allowed where it is taken. Safe runs compose, so that the
property is proved along a program's text, and `Safe.good` and `Safe.allowed` read it off at any moment.
-/

namespace Lib

/-- How actions change the state, what the ghost value becomes, and what is asked at every moment. -/
structure Monitor (σ α γ : Type) where
  run : α → σ → σ
  watch : γ → α → γ
  Good : γ → σ → Prop
  Allowed : γ → σ → α → Prop

namespace Monitor

variable {σ α γ : Type} (m : Monitor σ α γ)

/-- The state after some actions. -/
def after (t : List α) (s : σ) : σ := t.foldl (fun s a => m.run a s) s

/-- The ghost value after some actions. -/
def ghost (t : List α) (c : γ) : γ := t.foldl m.watch c

/-- One list of actions, then another that depends on where the first one ends. -/
def seq (t u : σ → List α) (s : σ) : List α := t s ++ u (m.after (t s) s)

/-- At every moment the state is good, and every action is allowed. -/
def Safe : List α → γ → σ → Prop
  | [], c, s => m.Good c s
  | a :: t, c, s => m.Good c s ∧ m.Allowed c s a ∧ Safe t (m.watch c a) (m.run a s)

variable {m} {t u : List α} {a : α} {c : γ} {s : σ}

@[simp] theorem after_nil : m.after [] s = s := rfl

@[simp] theorem ghost_nil : m.ghost [] c = c := rfl

@[simp] theorem after_cons : m.after (a :: t) s = m.after t (m.run a s) := rfl

@[simp] theorem ghost_cons : m.ghost (a :: t) c = m.ghost t (m.watch c a) := rfl

theorem after_append : m.after (t ++ u) s = m.after u (m.after t s) := List.foldl_append

theorem ghost_append : m.ghost (t ++ u) c = m.ghost u (m.ghost t c) := List.foldl_append

theorem Safe.start (h : m.Safe t c s) : m.Good c s := by
  cases t with
  | nil => exact h
  | cons a t => exact h.1

/-- **Safe runs compose.** -/
theorem Safe.append (ht : m.Safe t c s) (hu : m.Safe u (m.ghost t c) (m.after t s)) :
    m.Safe (t ++ u) c s := by
  induction t generalizing c s with
  | nil => exact hu
  | cons a t ih =>
      obtain ⟨hgood, hallowed, hrest⟩ := ht
      exact ⟨hgood, hallowed, ih hrest hu⟩

theorem Safe.rest (h : m.Safe (t ++ u) c s) : m.Safe u (m.ghost t c) (m.after t s) := by
  induction t generalizing c s with
  | nil => exact h
  | cons a t ih => exact ih h.2.2

/-- The state is good at any moment. -/
theorem Safe.good (h : m.Safe (t ++ u) c s) : m.Good (m.ghost t c) (m.after t s) := h.rest.start

/-- An action is allowed at the moment it is taken. -/
theorem Safe.allowed (h : m.Safe (t ++ a :: u) c s) : m.Allowed (m.ghost t c) (m.after t s) a := by
  have hrest := h.rest
  exact hrest.2.1

end Monitor

end Lib
