import Mathlib.Data.List.Basic

/-!
# `Lib.Layers` — stacks of name layers without shadowing

The innermost layer comes first. `Layers κ` only remembers which keys a layer holds, `Tables κ α` also a
value for each key. In both, `declare` adds a key to the innermost layer unless some layer holds it
already, so a declared key is never shadowed and closing a layer gives back exactly the bindings that
were there when it was opened.
-/

namespace Lib

variable {κ α : Type}

/-! ## Layers of keys -/

/-- A stack of layers of keys, innermost first. -/
abbrev Layers (κ : Type) := List (List κ)

namespace Layers

variable {x y : κ} {Γ Δ : Layers κ}

/-- Some layer holds the key. -/
def Visible (x : κ) (Γ : Layers κ) : Prop := ∃ l ∈ Γ, x ∈ l

@[simp] theorem not_visible_nil : ¬ Visible x ([] : Layers κ) := by simp [Visible]

@[simp] theorem visible_cons {l : List κ} : Visible x (l :: Γ) ↔ x ∈ l ∨ Visible x Γ := by
  simp [Visible]

/-- Opening a layer hides and shows nothing. -/
theorem visible_open : Visible x ([] :: Γ) ↔ Visible x Γ := by simp

theorem visible_of_tail (h : Visible x Γ.tail) : Visible x Γ := by
  cases Γ with
  | nil => exact h
  | cons l ls => exact visible_cons.mpr (.inr h)

/-! ### Growing the innermost layer -/

/-- The second stack is the first one with more keys in the innermost layer. -/
def Grows (Γ Δ : Layers κ) : Prop := ∃ l m ls, Γ = l :: ls ∧ Δ = m :: ls ∧ l ⊆ m

theorem Grows.refl (h : Γ ≠ []) : Grows Γ Γ := by
  cases Γ with
  | nil => exact absurd rfl h
  | cons l ls => exact ⟨l, l, ls, rfl, rfl, fun _ => id⟩

theorem Grows.trans {Θ : Layers κ} (h1 : Grows Γ Δ) (h2 : Grows Δ Θ) : Grows Γ Θ := by
  obtain ⟨l, m, ls, rfl, rfl, hlm⟩ := h1
  obtain ⟨m', n, ls', h, rfl, hmn⟩ := h2
  injection h with h1 h2
  subst h1 h2
  exact ⟨l, n, ls, rfl, rfl, List.Subset.trans hlm hmn⟩

theorem Grows.tail (h : Grows Γ Δ) : Δ.tail = Γ.tail := by
  obtain ⟨l, m, ls, rfl, rfl, _⟩ := h; rfl

theorem Grows.ne_nil (h : Grows Γ Δ) : Δ ≠ [] := by
  obtain ⟨l, m, ls, _, rfl, _⟩ := h; simp

theorem Grows.visible (h : Grows Γ Δ) (hx : Visible x Γ) : Visible x Δ := by
  obtain ⟨l, m, ls, rfl, rfl, hlm⟩ := h
  rw [visible_cons] at hx ⊢
  exact hx.imp_left (fun hx => hlm hx)

/-! ### Stacks without shadowing -/

/-- No key is held by two layers. -/
def Unshadowed : Layers κ → Prop
  | [] => True
  | l :: ls => (∀ x ∈ l, ¬ Visible x ls) ∧ Unshadowed ls

theorem Unshadowed.opened (h : Unshadowed Γ) : Unshadowed ([] :: Γ) :=
  ⟨fun _ hx => absurd hx List.not_mem_nil, h⟩

theorem Unshadowed.tail (h : Unshadowed Γ) : Unshadowed Γ.tail := by
  cases Γ with
  | nil => exact h
  | cons l ls => exact h.2

/-! ### Covering -/

/-- As many layers, and from each layer on outwards the second stack shows what the first one shows. -/
def Covered : Layers κ → Layers κ → Prop
  | [], [] => True
  | l :: ls, m :: ms => (∀ x, Visible x (l :: ls) → Visible x (m :: ms)) ∧ Covered ls ms
  | _, _ => False

theorem Covered.visible (h : Covered Γ Δ) (hx : Visible x Γ) : Visible x Δ := by
  cases Γ with
  | nil => exact absurd hx not_visible_nil
  | cons l ls =>
      cases Δ with
      | nil => exact h.elim
      | cons m ms => exact h.1 x hx

theorem Covered.ne_nil (h : Covered Γ Δ) (hne : Γ ≠ []) : Δ ≠ [] := by
  rintro rfl
  cases Γ with
  | nil => exact hne rfl
  | cons l ls => exact h

theorem Covered.opened (h : Covered Γ Δ) : Covered ([] :: Γ) ([] :: Δ) :=
  ⟨fun _ hx => visible_open.mpr (h.visible (visible_open.mp hx)), h⟩

theorem Covered.tail (h : Covered Γ Δ) : Covered Γ.tail Δ.tail := by
  cases Γ with
  | nil =>
      cases Δ with
      | nil => exact h
      | cons m ms => exact h.elim
  | cons l ls =>
      cases Δ with
      | nil => exact h.elim
      | cons m ms => exact h.2

/-- The smaller of two stacks that differ in the innermost layer is covered as well. -/
theorem Covered.anti {Θ : Layers κ} (h : Covered Θ Δ) (hg : Grows Γ Θ) : Covered Γ Δ := by
  obtain ⟨l, m, ls, rfl, rfl, hlm⟩ := hg
  cases Δ with
  | nil => exact h.elim
  | cons n ns => exact ⟨fun x hx => h.1 x ((Grows.visible ⟨l, m, ls, rfl, rfl, hlm⟩) hx), h.2⟩

/-! ### Declaring -/

variable [DecidableEq κ]

instance (x : κ) (Γ : Layers κ) : Decidable (Visible x Γ) :=
  inferInstanceAs (Decidable (∃ l ∈ Γ, x ∈ l))

/-- Add the key to the innermost layer, unless some layer holds it. -/
def declare (x : κ) (Γ : Layers κ) : Layers κ :=
  if Visible x Γ then Γ
  else match Γ with
    | [] => []
    | l :: ls => (x :: l) :: ls

theorem declare_of_visible (h : Visible x Γ) : declare x Γ = Γ := by simp [declare, h]

theorem declare_cons_of_not_visible {l : List κ} (h : ¬ Visible x (l :: Γ)) :
    declare x (l :: Γ) = (x :: l) :: Γ := by simp [declare, h]

/-- Declaring a key changes the innermost layer only. -/
@[simp] theorem declare_tail : (declare x Γ).tail = Γ.tail := by
  by_cases h : Visible x Γ
  · rw [declare_of_visible h]
  · cases Γ with
    | nil => simp [declare]
    | cons l ls => rw [declare_cons_of_not_visible h]; rfl

theorem declare_ne_nil (h : Γ ≠ []) : declare x Γ ≠ [] := by
  cases Γ with
  | nil => exact absurd rfl h
  | cons l ls =>
      by_cases hv : Visible x (l :: ls)
      · rw [declare_of_visible hv]; exact h
      · rw [declare_cons_of_not_visible hv]; simp

@[simp] theorem length_declare : (declare x Γ).length = Γ.length := by
  by_cases hv : Visible x Γ
  · rw [declare_of_visible hv]
  · cases Γ with
    | nil => simp [declare]
    | cons l ls => rw [declare_cons_of_not_visible hv]; rfl

theorem visible_declare (h : Γ ≠ []) : Visible y (declare x Γ) ↔ y = x ∨ Visible y Γ := by
  cases Γ with
  | nil => exact absurd rfl h
  | cons l ls =>
      by_cases hv : Visible x (l :: ls)
      · rw [declare_of_visible hv]
        exact ⟨.inr, fun hy => hy.elim (fun he => he ▸ hv) id⟩
      · rw [declare_cons_of_not_visible hv]
        simp [or_assoc]

theorem visible_declare_self (h : Γ ≠ []) : Visible x (declare x Γ) :=
  (visible_declare h).mpr (.inl rfl)

theorem visible_declare_of_visible (h : Visible y Γ) : Visible y (declare x Γ) := by
  have hne : Γ ≠ [] := by rintro rfl; exact not_visible_nil h
  exact (visible_declare hne).mpr (.inr h)

theorem grows_declare (h : Γ ≠ []) : Grows Γ (declare x Γ) := by
  cases Γ with
  | nil => exact absurd rfl h
  | cons l ls =>
      by_cases hv : Visible x (l :: ls)
      · rw [declare_of_visible hv]; exact .refl h
      · rw [declare_cons_of_not_visible hv]
        exact ⟨l, x :: l, ls, rfl, rfl, List.subset_cons_self x l⟩

theorem grows_declares (xs : List κ) (h : Γ ≠ []) :
    Grows Γ (xs.foldl (fun Γ x => declare x Γ) Γ) := by
  induction xs generalizing Γ with
  | nil => exact .refl h
  | cons x xs ih => exact (grows_declare h).trans (ih (declare_ne_nil h))

theorem Unshadowed.declare (h : Unshadowed Γ) : Unshadowed (declare x Γ) := by
  by_cases hv : Visible x Γ
  · rw [declare_of_visible hv]; exact h
  · cases Γ with
    | nil => simp [Layers.declare, Unshadowed]
    | cons l ls =>
        rw [declare_cons_of_not_visible hv]
        refine ⟨fun y hy => ?_, h.2⟩
        rcases List.mem_cons.mp hy with rfl | hy
        · exact fun hvis => hv (visible_cons.mpr (.inr hvis))
        · exact h.1 y hy

theorem Covered.declare (h : Covered Γ Δ) : Covered (declare x Γ) (declare x Δ) := by
  by_cases hv : Visible x Γ
  · rw [declare_of_visible hv, declare_of_visible (h.visible hv)]
    exact h
  · cases Γ with
    | nil =>
        cases Δ with
        | nil => exact h
        | cons m ms => exact h.elim
    | cons l ls =>
        cases Δ with
        | nil => exact h.elim
        | cons m ms =>
            have hne := List.cons_ne_nil m ms
            obtain ⟨n, ns, hd⟩ := List.exists_cons_of_ne_nil (declare_ne_nil (x := x) hne)
            have htail : ns = ms := by
              have ht := declare_tail (x := x) (Γ := m :: ms)
              rw [hd] at ht
              exact ht
            have hvis : ∀ y, Visible y (n :: ns) ↔ y = x ∨ Visible y (m :: ms) :=
              fun y => hd ▸ visible_declare hne
            rw [declare_cons_of_not_visible hv, hd]
            refine ⟨fun y hy => (hvis y).mpr ?_, htail ▸ h.2⟩
            rw [visible_cons, List.mem_cons, or_assoc, ← visible_cons] at hy
            exact hy.imp_right (h.1 y)

end Layers

/-! ## Layers of tables -/

/-- A stack of association lists, innermost first. -/
abbrev Tables (κ α : Type) := List (List (κ × α))

namespace Tables

variable {x y : κ} {a : α} {Γ : Tables κ α}

/-- Give the key a value in the innermost layer. -/
def put (x : κ) (a : α) : Tables κ α → Tables κ α
  | [] => []
  | l :: ls => ((x, a) :: l) :: ls

/-- The keys, layer by layer. -/
def keys (Γ : Tables κ α) : Layers κ := Γ.map (·.map Prod.fst)

@[simp] theorem keys_nil : keys ([] : Tables κ α) = [] := rfl

@[simp] theorem keys_cons (l : List (κ × α)) : keys (l :: Γ) = l.map Prod.fst :: keys Γ := rfl

@[simp] theorem keys_tail : keys Γ.tail = (keys Γ).tail := by cases Γ <;> rfl

theorem keys_put_cons (l : List (κ × α)) :
    keys (put x a (l :: Γ)) = (x :: l.map Prod.fst) :: keys Γ := rfl

@[simp] theorem put_tail : (put x a Γ).tail = Γ.tail := by cases Γ <;> rfl

@[simp] theorem length_put : (put x a Γ).length = Γ.length := by cases Γ <;> rfl

/-- The tables with other keys. -/
def mapKeys {κ' : Type} (f : κ → κ') (Γ : Tables κ α) : Tables κ' α := Γ.map (·.map (Prod.map f id))

section MapKeys

variable {κ' : Type} {f : κ → κ'}

theorem keys_mapKeys : keys (mapKeys f Γ) = (keys Γ).map (List.map f) := by
  simp [keys, mapKeys, Function.comp_def]

theorem mapKeys_put : mapKeys f (put x a Γ) = put (f x) a (mapKeys f Γ) := by cases Γ <;> rfl

end MapKeys

variable [DecidableEq κ]

/-- The value of the key in the innermost layer that holds it. -/
def lookup : Tables κ α → κ → Option α
  | [], _ => none
  | l :: ls, x =>
      match l.lookup x with
      | some a => some a
      | none => lookup ls x

@[simp] theorem lookup_open : lookup ([] :: Γ) x = lookup Γ x := rfl

theorem list_lookup_isSome {l : List (κ × α)} : (l.lookup x).isSome ↔ x ∈ l.map Prod.fst := by
  simp [List.lookup_isSome_iff]

/-- A key has a value exactly when some layer holds it. -/
theorem lookup_isSome : (lookup Γ x).isSome ↔ Layers.Visible x (keys Γ) := by
  induction Γ with
  | nil => simp [lookup]
  | cons l ls ih =>
      rw [keys_cons, Layers.visible_cons, ← list_lookup_isSome, ← ih, lookup]
      cases l.lookup x <;> simp

theorem lookup_eq_none : lookup Γ x = none ↔ ¬ Layers.Visible x (keys Γ) := by
  rw [← lookup_isSome]; cases lookup Γ x <;> simp

/-- A value that is found is an entry. -/
theorem mem_of_lookup (h : lookup Γ x = some a) : ∃ l ∈ Γ, (x, a) ∈ l := by
  induction Γ with
  | nil => cases h
  | cons l ls ih =>
      rw [lookup] at h
      cases ho : l.lookup x with
      | some b =>
          rw [ho] at h
          cases h
          obtain ⟨l1, l2, rfl, _⟩ := List.lookup_eq_some_iff.mp ho
          exact ⟨_, List.mem_cons_self, by simp⟩
      | none =>
          rw [ho] at h
          obtain ⟨l', hl', hp⟩ := ih h
          exact ⟨l', List.mem_cons_of_mem _ hl', hp⟩

theorem lookup_put_self (h : Γ ≠ []) : lookup (put x a Γ) x = some a := by
  cases Γ with
  | nil => exact absurd rfl h
  | cons l ls => simp [put, lookup]

theorem lookup_put_ne (h : y ≠ x) : lookup (put x a Γ) y = lookup Γ y := by
  cases Γ with
  | nil => rfl
  | cons l ls =>
      have hb : (y == x) = false := by simpa using h
      simp [put, lookup, List.lookup_cons, hb]

section MapKeys

variable {κ' κ'' : Type} [DecidableEq κ'] [DecidableEq κ''] {f : κ → κ'} {f' : κ → κ''} {x : κ'} {x' : κ''}

omit [DecidableEq κ] in
theorem list_lookup_mapKeys {l : List (κ × α)} (h : ∀ k ∈ l.map Prod.fst, (f k = x ↔ f' k = x')) :
    (l.map (Prod.map f id)).lookup x = (l.map (Prod.map f' id)).lookup x' := by
  induction l with
  | nil => rfl
  | cons p l ih =>
      obtain ⟨k, b⟩ := p
      have hk : (x == f k) = (x' == f' k) := by
        rw [Bool.eq_iff_iff, beq_iff_eq, beq_iff_eq, eq_comm, h k List.mem_cons_self, eq_comm]
      have ih := ih (fun k' hk' => h k' (List.mem_cons_of_mem _ hk'))
      simp only [List.map_cons, Prod.map, List.lookup_cons, hk, ih, id]

omit [DecidableEq κ] in
/-- Two names that stand for the same keys find the same value. -/
theorem lookup_mapKeys (h : ∀ k, Layers.Visible k (keys Γ) → (f k = x ↔ f' k = x')) :
    lookup (mapKeys f Γ) x = lookup (mapKeys f' Γ) x' := by
  induction Γ with
  | nil => rfl
  | cons l ls ih =>
      have hl := list_lookup_mapKeys (fun k hk => h k (Layers.visible_cons.mpr (.inl hk)))
      have hls := ih (fun k hk => h k (Layers.visible_cons.mpr (.inr hk)))
      show lookup (l.map (Prod.map f id) :: mapKeys f ls) x =
        lookup (l.map (Prod.map f' id) :: mapKeys f' ls) x'
      rw [lookup, lookup, hl, hls]

end MapKeys

/-! ### Updating in place -/

/-- Give the key a new value where the list holds it first. -/
def replace (x : κ) (a : α) : List (κ × α) → List (κ × α)
  | [] => []
  | (y, b) :: l => if x = y then (y, a) :: l else (y, b) :: replace x a l

/-- Give the key a new value in the innermost layer that holds it, or put it into the innermost layer. -/
def assign (x : κ) (a : α) : Tables κ α → Tables κ α
  | [] => []
  | l :: ls =>
      if Layers.Visible x (keys (l :: ls)) then update x a (l :: ls) else ((x, a) :: l) :: ls
where
  /-- The update, once some layer holds the key. -/
  update (x : κ) (a : α) : Tables κ α → Tables κ α
    | [] => []
    | l :: ls => if x ∈ l.map Prod.fst then replace x a l :: ls else l :: update x a ls

theorem replace_keys {l : List (κ × α)} : (replace x a l).map Prod.fst = l.map Prod.fst := by
  induction l with
  | nil => rfl
  | cons p l ih =>
      obtain ⟨y, b⟩ := p
      by_cases h : x = y
      · simp [replace, h]
      · simp [replace, h, ih]

theorem replace_lookup_self {l : List (κ × α)} (h : x ∈ l.map Prod.fst) :
    (replace x a l).lookup x = some a := by
  induction l with
  | nil => simp at h
  | cons p l ih =>
      obtain ⟨k, b⟩ := p
      by_cases hk : x = k
      · simp [replace, hk]
      · have hb : (x == k) = false := by simpa using hk
        rw [replace, if_neg hk, List.lookup_cons, hb]
        exact ih (by simpa [hk] using h)

theorem replace_lookup_ne {l : List (κ × α)} (h : y ≠ x) :
    (replace x a l).lookup y = l.lookup y := by
  induction l with
  | nil => rfl
  | cons p l ih =>
      obtain ⟨k, b⟩ := p
      by_cases hk : x = k
      · have hb : (y == k) = false := by simpa [← hk] using h
        simp [replace, hk, List.lookup_cons, hb]
      · rw [replace, if_neg hk, List.lookup_cons, List.lookup_cons, ih]

theorem update_keys : keys (assign.update x a Γ) = keys Γ := by
  induction Γ with
  | nil => rfl
  | cons l ls ih =>
      by_cases h : x ∈ l.map Prod.fst
      · simp only [assign.update, if_pos h, keys_cons, replace_keys]
      · simp only [assign.update, if_neg h, keys_cons, ih]

/-- An assignment declares the key. -/
theorem assign_keys : keys (assign x a Γ) = Layers.declare x (keys Γ) := by
  cases Γ with
  | nil => simp [assign, Layers.declare]
  | cons l ls =>
      by_cases h : Layers.Visible x (keys (l :: ls))
      · rw [assign, if_pos h, update_keys, Layers.declare_of_visible h]
      · rw [assign, if_neg h]
        rw [keys_cons] at h
        rw [keys_cons, keys_cons, Layers.declare_cons_of_not_visible h]
        rfl

theorem update_lookup_self (h : Layers.Visible x (keys Γ)) :
    lookup (assign.update x a Γ) x = some a := by
  induction Γ with
  | nil => simp at h
  | cons l ls ih =>
      by_cases hl : x ∈ l.map Prod.fst
      · rw [assign.update, if_pos hl, lookup, replace_lookup_self hl]
      · rw [assign.update, if_neg hl, lookup]
        have hnone : l.lookup x = none := by
          cases ho : l.lookup x with
          | none => rfl
          | some b => exact absurd (list_lookup_isSome.mp (by rw [ho]; rfl)) hl
        rw [hnone]
        exact ih ((Layers.visible_cons.mp h).resolve_left hl)

theorem update_lookup_ne (h : y ≠ x) : lookup (assign.update x a Γ) y = lookup Γ y := by
  induction Γ with
  | nil => rfl
  | cons l ls ih =>
      by_cases hl : x ∈ l.map Prod.fst
      · rw [assign.update, if_pos hl, lookup, lookup, replace_lookup_ne h]
      · rw [assign.update, if_neg hl, lookup, lookup, ih]

theorem assign_lookup_self (h : Γ ≠ []) : lookup (assign x a Γ) x = some a := by
  cases Γ with
  | nil => exact absurd rfl h
  | cons l ls =>
      by_cases hv : Layers.Visible x (keys (l :: ls))
      · rw [assign, if_pos hv]; exact update_lookup_self hv
      · rw [assign, if_neg hv]; simp [lookup]

theorem assign_lookup_ne (h : y ≠ x) : lookup (assign x a Γ) y = lookup Γ y := by
  cases Γ with
  | nil => rfl
  | cons l ls =>
      by_cases hv : Layers.Visible x (keys (l :: ls))
      · rw [assign, if_pos hv]; exact update_lookup_ne h
      · have hb : (y == x) = false := by simpa using h
        rw [assign, if_neg hv]
        simp [lookup, List.lookup_cons, hb]

/-- Without shadowing, closing the innermost layer changes no value that stays visible. -/
theorem lookup_tail (h : (keys Γ).Unshadowed) (hx : Layers.Visible x (keys Γ.tail)) :
    lookup Γ.tail x = lookup Γ x := by
  cases Γ with
  | nil => rfl
  | cons l ls =>
      show lookup ls x = lookup (l :: ls) x
      rw [lookup]
      cases ho : l.lookup x with
      | none => rfl
      | some b => exact absurd hx (h.1 x (list_lookup_isSome.mp (by rw [ho]; rfl)))

end Tables

end Lib
