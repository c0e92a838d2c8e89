import ParaCL.Lib.Layers
import Mathlib.Data.List.Induction

/-!
# `Lib.ScopeTrace` — declared before use, as a walk and as a law

A program is flattened into the events that matter to its names, in source order: a block opens or closes,
a name is bound or read. `run` walks over them with a stack of layers, declaring a name where no open layer
has it and noting the reads it cannot resolve. `Bound` says it without a stack: before every read there is
a binding of the name whose block no event between the two closes.

`missing_iff`: the walk notes nothing exactly when every read is bound.
-/

namespace Lib

inductive ScopeEvent (κ : Type) where
  | opens
  | closes
  | binds (x : κ)
  | reads (x : κ)
  deriving DecidableEq

namespace ScopeEvent

variable {κ : Type} [DecidableEq κ]

def isOpens : ScopeEvent κ → Bool
  | opens => true
  | _ => false

def isCloses : ScopeEvent κ → Bool
  | closes => true
  | _ => false

/-! ## The law -/

section Law

variable (t : List (ScopeEvent κ))

/-- How many blocks are opened and how many are closed. -/
def opened : Nat := t.countP isOpens

def closed : Nat := t.countP isCloses

/-- The block the events start in is not closed by any of them. -/
def Keeps : Prop := ∀ u, u <+: t → closed u ≤ opened u

/-- Every read has an earlier binding of its name in a block that is still open: its own block or one
    around it. -/
def Bound : Prop := ∀ pre x post, t = pre ++ reads x :: post →
  ∃ before between, pre = before ++ binds x :: between ∧ Keeps between

end Law

/-! ## The walk -/

/-- One event: the layers after it, and the name it cannot resolve. -/
def exec (Γ : Layers κ) : ScopeEvent κ → Layers κ × List κ
  | opens => ([] :: Γ, [])
  | closes => (Γ.tail, [])
  | binds x => (Layers.declare x Γ, [])
  | reads x => (Layers.declare x Γ, if Layers.Visible x Γ then [] else [x])

/-- The layers after some events, and the names that were read and not found. -/
def run : Layers κ → List (ScopeEvent κ) → Layers κ × List κ
  | Γ, [] => (Γ, [])
  | Γ, e :: t => ((run (exec Γ e).1 t).1, (exec Γ e).2 ++ (run (exec Γ e).1 t).2)

section Append

variable {Γ : Layers κ} {t u : List (ScopeEvent κ)} {e c : ScopeEvent κ} {x : κ}

@[simp] theorem run_nil : run Γ [] = (Γ, []) := rfl

theorem run_append : run Γ (t ++ u) =
    ((run (run Γ t).1 u).1, (run Γ t).2 ++ (run (run Γ t).1 u).2) := by
  induction t generalizing Γ with
  | nil => rfl
  | cons e t ih =>
      rw [List.cons_append, run, ih, run, List.append_assoc]

@[simp] theorem run_one : run Γ [e] = exec Γ e := by simp [run]

omit [DecidableEq κ] in
@[simp] theorem opened_append : opened (t ++ u) = opened t + opened u := List.countP_append

omit [DecidableEq κ] in
@[simp] theorem closed_append : closed (t ++ u) = closed t + closed u := List.countP_append

omit [DecidableEq κ] in
@[simp] theorem closed_opens : closed [(opens : ScopeEvent κ)] = 0 := rfl

omit [DecidableEq κ] in
@[simp] theorem opened_opens : opened [(opens : ScopeEvent κ)] = 1 := rfl

omit [DecidableEq κ] in
@[simp] theorem closed_closes : closed [(closes : ScopeEvent κ)] = 1 := rfl

omit [DecidableEq κ] in
@[simp] theorem opened_closes : opened [(closes : ScopeEvent κ)] = 0 := rfl

omit [DecidableEq κ] in
@[simp] theorem closed_binds : closed [binds x] = 0 := rfl

omit [DecidableEq κ] in
@[simp] theorem opened_binds : opened [binds x] = 0 := rfl

omit [DecidableEq κ] in
@[simp] theorem closed_reads : closed [reads x] = 0 := rfl

omit [DecidableEq κ] in
@[simp] theorem opened_reads : opened [reads x] = 0 := rfl

omit [DecidableEq κ] in
theorem keeps_nil : Keeps ([] : List (ScopeEvent κ)) := by
  intro u hu
  rw [List.prefix_nil.mp hu]
  exact Nat.le_refl 0

omit [DecidableEq κ] in
theorem Keeps.le (h : Keeps t) : closed t ≤ opened t := h t (List.prefix_refl t)

omit [DecidableEq κ] in
theorem keeps_snoc : Keeps (t ++ [e]) ↔ Keeps t ∧ closed (t ++ [e]) ≤ opened (t ++ [e]) := by
  constructor
  · intro h
    exact ⟨fun u hu => h u (hu.trans (List.prefix_append t [e])), h.le⟩
  · rintro ⟨h, hle⟩ u hu
    rcases List.prefix_concat_iff.mp hu with rfl | hu
    · exact hle
    · exact h u hu

omit [DecidableEq κ] in
/-- Where an event of a longer trace stands. -/
theorem snoc_eq_iff {before between : List (ScopeEvent κ)} : t ++ [e] = before ++ c :: between ↔
    (∃ between', between = between' ++ [e] ∧ t = before ++ c :: between') ∨
      (between = [] ∧ t = before ∧ e = c) := by
  constructor
  · intro h
    rcases List.eq_nil_or_concat between with rfl | ⟨between', e', rfl⟩
    · obtain ⟨rfl, he⟩ := List.append_inj' h rfl
      exact .inr ⟨rfl, rfl, List.head_eq_of_cons_eq he⟩
    · rw [List.concat_eq_append, ← List.cons_append, ← List.append_assoc] at h
      obtain ⟨rfl, he⟩ := List.append_inj' h rfl
      cases he
      exact .inl ⟨between', List.concat_eq_append, rfl⟩
  · rintro (⟨between', rfl, rfl⟩ | ⟨rfl, rfl, rfl⟩)
    · simp
    · rfl

end Append

/-- The trace closes exactly the blocks it opens. -/
structure WellNested (t : List (ScopeEvent κ)) : Prop where
  keeps : Keeps t
  closed : closed t = opened t

section WellNested

variable {t u : List (ScopeEvent κ)} {x : κ}

omit [DecidableEq κ] in
theorem wellNested_nil : WellNested ([] : List (ScopeEvent κ)) := ⟨keeps_nil, rfl⟩

omit [DecidableEq κ] in
theorem wellNested_binds : WellNested [binds x] := ⟨keeps_snoc.mpr ⟨keeps_nil, by simp⟩, rfl⟩

omit [DecidableEq κ] in
theorem wellNested_reads : WellNested [reads x] := ⟨keeps_snoc.mpr ⟨keeps_nil, by simp⟩, rfl⟩

omit [DecidableEq κ] in
/-- The beginnings of two traces one after the other. -/
theorem prefix_append_cases {w : List (ScopeEvent κ)} (h : w <+: t ++ u) :
    w <+: t ∨ ∃ v, w = t ++ v ∧ v <+: u := by
  rcases List.prefix_or_prefix_of_prefix h (List.prefix_append t u) with hw | ⟨v, rfl⟩
  · exact .inl hw
  · exact .inr ⟨v, rfl, (List.prefix_append_right_inj t).mp h⟩

omit [DecidableEq κ] in
theorem Keeps.append (ht : Keeps t) (hu : Keeps u) : Keeps (t ++ u) := by
  intro w hw
  rcases prefix_append_cases hw with hw | ⟨v, rfl, hv⟩
  · exact ht w hw
  · have h1 := ht.le
    have h2 := hu v hv
    rw [closed_append, opened_append]
    omega

omit [DecidableEq κ] in
theorem WellNested.append (ht : WellNested t) (hu : WellNested u) : WellNested (t ++ u) := by
  refine ⟨fun w hw => ?_, by rw [closed_append, opened_append, ht.closed, hu.closed]⟩
  rcases prefix_append_cases hw with hw | ⟨v, rfl, hv⟩
  · exact ht.keeps w hw
  · have := hu.keeps v hv
    rw [closed_append, opened_append, ht.closed]
    omega

omit [DecidableEq κ] in
/-- A block around a balanced trace. -/
theorem WellNested.block (h : WellNested t) : WellNested ([opens] ++ t ++ [closes]) := by
  have hends : ScopeEvent.closed ([opens] ++ t ++ [closes]) = opened ([opens] ++ t ++ [closes]) := by
    simp only [closed_append, opened_append, h.closed, closed_opens, opened_opens, closed_closes,
      opened_closes]
    omega
  have hopen : Keeps ([opens] ++ t) := by
    intro w hw
    rcases prefix_append_cases hw with hw | ⟨v, rfl, hv⟩
    · rcases List.prefix_concat_iff.mp (show w <+: [] ++ [opens] from hw) with rfl | hw
      · exact Nat.zero_le _
      · exact keeps_nil w hw
    · have := h.keeps v hv
      simp only [closed_append, opened_append, closed_opens, opened_opens]
      omega
  exact ⟨keeps_snoc.mpr ⟨hopen, Nat.le_of_eq hends⟩, hends⟩

end WellNested

/-! ## The walk follows the law -/

/-- There is a binding of the name in a block that is open at the end of the trace, at least `k` blocks
    around the innermost one. -/
def Declares (t : List (ScopeEvent κ)) (k : Nat) (x : κ) : Prop :=
  ∃ before between, t = before ++ binds x :: between ∧ Keeps between ∧
    closed between + k ≤ opened between

/-- The layers are the blocks open at the end of the trace, with the names bound in them. -/
structure Tracks (t : List (ScopeEvent κ)) (Γ : Layers κ) : Prop where
  depth : Γ.length + closed t = opened t + 1
  visible : ∀ k x, Layers.Visible x (Γ.drop k) ↔ Declares t k x

section Walk

variable {Γ : Layers κ} {t : List (ScopeEvent κ)} {e : ScopeEvent κ} {x y : κ} {k : Nat}

omit [DecidableEq κ] in
theorem declares_zero : Declares t 0 x ↔
    ∃ before between, t = before ++ binds x :: between ∧ Keeps between := by
  constructor
  · rintro ⟨before, between, h, hk, _⟩
    exact ⟨before, between, h, hk⟩
  · rintro ⟨before, between, h, hk⟩
    exact ⟨before, between, h, hk, hk.le⟩

omit [DecidableEq κ] in
/-- How one more event moves the bindings. -/
theorem declares_snoc : Declares (t ++ [e]) k x ↔
    (∃ before between, t = before ++ binds x :: between ∧ Keeps (between ++ [e]) ∧
      closed (between ++ [e]) + k ≤ opened (between ++ [e])) ∨ (k = 0 ∧ e = binds x) := by
  unfold Declares
  constructor
  · rintro ⟨before, between, h, hk, hle⟩
    rcases snoc_eq_iff.mp h with ⟨between', rfl, rfl⟩ | ⟨rfl, rfl, rfl⟩
    · exact .inl ⟨before, between', rfl, hk, hle⟩
    · refine .inr ⟨?_, rfl⟩
      simpa [closed, opened] using hle
  · rintro (⟨before, between, rfl, hk, hle⟩ | ⟨rfl, rfl⟩)
    · exact ⟨before, between ++ [e], by simp, hk, hle⟩
    · exact ⟨t, [], rfl, keeps_nil, Nat.le_refl 0⟩

omit [DecidableEq κ] in
/-- An event that binds nothing moves all the bindings alike. -/
theorem declares_snoc_of {j : Nat} (he : e ≠ binds x)
    (hj : ∀ between, Keeps between → (closed (between ++ [e]) ≤ opened (between ++ [e]) ∧
      closed (between ++ [e]) + k ≤ opened (between ++ [e]) ↔ closed between + j ≤ opened between)) :
    Declares (t ++ [e]) k x ↔ Declares t j x := by
  rw [declares_snoc]
  simp only [he, and_false, or_false, keeps_snoc]
  refine exists_congr (fun before => exists_congr (fun between => and_congr_right (fun _ => ?_)))
  rw [and_assoc]
  exact and_congr_right (hj between)

omit [DecidableEq κ] in
theorem declares_opens_zero : Declares (t ++ [opens]) 0 x ↔ Declares t 0 x := by
  refine declares_snoc_of (by simp) (fun between hk => ?_)
  have := hk.le
  simp only [closed_append, opened_append, closed_opens, opened_opens]
  omega

omit [DecidableEq κ] in
theorem declares_opens_succ : Declares (t ++ [opens]) (k + 1) x ↔ Declares t k x := by
  refine declares_snoc_of (by simp) (fun between hk => ?_)
  have := hk.le
  simp only [closed_append, opened_append, closed_opens, opened_opens]
  omega

omit [DecidableEq κ] in
theorem declares_closes : Declares (t ++ [closes]) k x ↔ Declares t (k + 1) x := by
  refine declares_snoc_of (by simp) (fun between hk => ?_)
  have := hk.le
  simp only [closed_append, opened_append, closed_closes, opened_closes]
  omega

omit [DecidableEq κ] in
theorem declares_name (he : e = binds y ∨ e = reads y) (hne : e ≠ binds x) :
    Declares (t ++ [e]) k x ↔ Declares t k x := by
  have hc : closed [e] = 0 := by rcases he with rfl | rfl <;> rfl
  have ho : opened [e] = 0 := by rcases he with rfl | rfl <;> rfl
  refine declares_snoc_of hne (fun between hk => ?_)
  have := hk.le
  simp only [closed_append, opened_append, hc, ho]
  omega

omit [DecidableEq κ] in
theorem declares_binds_self : Declares (t ++ [binds x]) k x ↔ k = 0 ∨ Declares t k x := by
  rw [declares_snoc]
  simp only [and_true, keeps_snoc, closed_append, opened_append, closed_binds, opened_binds, Nat.add_zero]
  constructor
  · rintro (⟨before, between, h, ⟨hk, _⟩, hle⟩ | hk)
    · exact .inr ⟨before, between, h, hk, hle⟩
    · exact .inl hk
  · rintro (hk | ⟨before, between, h, hk, hle⟩)
    · exact .inr hk
    · exact .inl ⟨before, between, h, ⟨hk, hk.le⟩, hle⟩

/-- **One event.** -/
theorem Tracks.exec (h : Tracks t Γ) (hk : Keeps (t ++ [e])) (hm : (exec Γ e).2 = []) :
    Tracks (t ++ [e]) (exec Γ e).1 := by
  have hle := (keeps_snoc.mp hk).2
  have hle' := (keeps_snoc.mp hk).1.le
  have hdepth := h.depth
  -- depth counts the open scopes, and the trace never closes the first
  have hne : Γ ≠ [] := by
    rintro rfl
    simp only [List.length_nil] at hdepth
    omega
  cases e with
  | opens =>
      refine ⟨?_, fun k x => ?_⟩
      · simp only [ScopeEvent.exec, List.length_cons, closed_append, opened_append, closed_opens,
          opened_opens]
        omega
      · cases k with
        | zero =>
            rw [declares_opens_zero, ← h.visible]
            exact Layers.visible_open
        | succ k =>
            rw [declares_opens_succ, ← h.visible]
            rfl
  -- the layers under the last one are those of the trace without it
  | closes =>
      simp only [closed_append, opened_append, closed_closes, opened_closes] at hle
      refine ⟨?_, fun k x => ?_⟩
      · simp only [ScopeEvent.exec, List.length_tail, closed_append, opened_append, closed_closes,
          opened_closes]
        omega
      · rw [declares_closes, ← h.visible, ← List.drop_tail]
        rfl
  | binds y =>
      refine ⟨?_, fun k x => ?_⟩
      · simp only [ScopeEvent.exec, Layers.length_declare, closed_append, opened_append,
          closed_binds, opened_binds]
        omega
      · have hvisible : Layers.Visible x ((Layers.declare y Γ).drop k) ↔
            (k = 0 ∧ x = y) ∨ Layers.Visible x (Γ.drop k) := by
          cases k with
          | zero => simp [Layers.visible_declare hne]
          | succ k => rw [← List.drop_tail, ← List.drop_tail, Layers.declare_tail]; simp
        rw [show (ScopeEvent.exec Γ (binds y)).1 = Layers.declare y Γ from rfl, hvisible, h.visible]
        by_cases hxy : x = y
        · subst hxy
          rw [declares_binds_self]
          simp
        · rw [declares_name (.inl rfl) (fun he => hxy (by injection he with he; exact he.symm))]
          simp [hxy]
  -- no name is missing, so reading declares nothing
  | reads y =>
      have hv : Layers.Visible y Γ := by
        by_contra hno
        simp [ScopeEvent.exec, hno] at hm
      rw [show (ScopeEvent.exec Γ (reads y)).1 = Γ from Layers.declare_of_visible hv]
      refine ⟨?_, fun k x => ?_⟩
      · simp only [closed_append, opened_append, closed_reads, opened_reads]
        exact hdepth
      · rw [declares_name (.inr rfl) (by simp), h.visible]

/-- **The walk over a trace** that closes no block it did not open. -/
theorem tracks_run (hk : Keeps t) (hm : (run [[]] t).2 = []) : Tracks t (run [[]] t).1 := by
  induction t using List.reverseRecOn with
  | nil =>
      refine ⟨rfl, fun k x => ?_⟩
      have hno : ¬ Declares ([] : List (ScopeEvent κ)) k x := by
        rintro ⟨before, between, h, _⟩
        simp at h
      refine iff_of_false (fun hv => ?_) hno
      obtain ⟨l, hl, hx⟩ := hv
      have hl : l ∈ [([] : List κ)] := List.mem_of_mem_drop hl
      rw [List.mem_singleton.mp hl] at hx
      cases hx
  | append_singleton t e ih =>
      rw [run_append, run_one] at hm ⊢
      obtain ⟨ht, he⟩ := List.append_eq_nil_iff.mp hm
      exact (ih (keeps_snoc.mp hk).1 ht).exec hk he

omit [DecidableEq κ] in
theorem bound_snoc : Bound (t ++ [e]) ↔ Bound t ∧ ∀ x, e = reads x → Declares t 0 x := by
  constructor
  · intro h
    refine ⟨fun pre x post ht => h pre x (post ++ [e]) (by simp [ht]), ?_⟩
    rintro x rfl
    exact declares_zero.mpr (h t x [] rfl)
  · rintro ⟨h, he⟩ pre x post ht
    rcases snoc_eq_iff.mp ht with ⟨post', rfl, rfl⟩ | ⟨rfl, rfl, hx⟩
    · exact h pre x post' rfl
    · exact declares_zero.mp (he x hx)

/-- **The walk notes nothing exactly when every read is bound.** -/
theorem missing_iff (hk : Keeps t) : (run [[]] t).2 = [] ↔ Bound t := by
  induction t using List.reverseRecOn with
  | nil =>
      refine iff_of_true rfl (fun pre x post h => ?_)
      simp at h
  | append_singleton t e ih =>
      have hkt := (keeps_snoc.mp hk).1
      rw [run_append, run_one, List.append_eq_nil_iff, bound_snoc, ih hkt]
      refine and_congr_right (fun hb => ?_)
      have htracks := tracks_run hkt ((ih hkt).mpr hb)
      cases e with
      | reads x => simp [ScopeEvent.exec, ← htracks.visible]
      | opens | closes | binds => simp [ScopeEvent.exec]

/-- The layer a trace starts in only grows, as long as the trace keeps it. -/
theorem grows_run (hne : Γ ≠ []) (hk : Keeps t) :
    Layers.Grows Γ ((run Γ t).1.drop (opened t - closed t)) := by
  induction t using List.reverseRecOn with
  | nil => exact .refl hne
  | append_singleton t e ih =>
      obtain ⟨hkt, hle⟩ := keeps_snoc.mp hk
      have hg := ih hkt
      have hle' := hkt.le
      rw [run_append, run_one]
      generalize (run Γ t).1 = Δ at hg
      -- a declaration reaches the layer itself or one above it
      have hdeclare : ∀ x, Layers.Grows Γ ((Layers.declare x Δ).drop (opened t - closed t)) := by
        intro x
        cases hd : opened t - closed t with
        | zero =>
            rw [hd] at hg
            exact hg.trans (Layers.grows_declare hg.ne_nil)
        | succ d =>
            rw [hd] at hg
            rw [← List.drop_tail, Layers.declare_tail, List.drop_tail]
            exact hg
      simp only [closed_append, opened_append] at hle ⊢
      cases e with
      | opens =>
          have hd : opened t + 1 - (closed t + 0) = opened t - closed t + 1 := by omega
          rw [closed_opens, opened_opens, hd]
          exact hg
      | closes =>
          rw [closed_closes, opened_closes] at hle ⊢
          have hd : opened t - closed t = (opened t + 0 - (closed t + 1)) + 1 := by omega
          rw [hd, ← List.drop_tail] at hg
          exact hg
      | binds x => exact hdeclare x
      | reads x => exact hdeclare x

theorem WellNested.grows_run (h : WellNested t) (hne : Γ ≠ []) : Layers.Grows Γ (run Γ t).1 := by
  have hg := ScopeEvent.grows_run hne h.keeps
  rwa [h.closed, Nat.sub_self] at hg

end Walk

/-! ## Runs without shadowing -/

section Unshadowed

variable {Γ : Layers κ} {t : List (ScopeEvent κ)}

theorem unshadowed_exec (h : Γ.Unshadowed) (e : ScopeEvent κ) : (exec Γ e).1.Unshadowed := by
  cases e with
  | opens => exact h.opened
  | closes => exact h.tail
  | binds x => exact h.declare
  | reads x => exact h.declare

theorem unshadowed_run (h : Γ.Unshadowed) : (run Γ t).1.Unshadowed := by
  induction t generalizing Γ with
  | nil => exact h
  | cons e t ih => exact ih (unshadowed_exec h e)

/-- A trace without reads misses nothing. -/
theorem missing_of_binds (h : ∀ x, reads x ∉ t) : (run Γ t).2 = [] := by
  induction t generalizing Γ with
  | nil => rfl
  | cons e t ih =>
      have ht := ih (Γ := (exec Γ e).1) (fun x hx => h x (List.mem_cons_of_mem _ hx))
      rw [run, ht]
      cases e with
      | reads x => exact absurd List.mem_cons_self (h x)
      | opens | closes | binds => rfl

end Unshadowed

/-! ## Anything that works like a stack -/

section StackLike

variable {ω β : Type} {event : ω → ScopeEvent κ} {f : List β → ω → List β} {Γ : List β} {t : List ω}

/-- Operations on a stack of layers, each with its event: `opens` puts a layer on the stack, `closes` takes
    one off, and a name is entered into the innermost one. -/
structure StackLike (event : ω → ScopeEvent κ) (f : List β → ω → List β) : Prop where
  opens : ∀ Γ o, event o = opens → (f Γ o).tail = Γ
  closes : ∀ Γ o, event o = closes → f Γ o = Γ.tail
  names : ∀ Γ o, event o ≠ .opens → event o ≠ .closes → (f Γ o).tail = Γ.tail

omit [DecidableEq κ] in
/-- The layers under the one a sequence starts in are still there at its end. -/
theorem drop_foldl (h : StackLike event f) (hk : Keeps (t.map event)) :
    (t.foldl f Γ).drop (opened (t.map event) - closed (t.map event) + 1) = Γ.tail := by
  induction t using List.reverseRecOn with
  | nil => exact List.drop_one
  | append_singleton t o ih =>
      rw [List.map_append, List.map_singleton] at hk ⊢
      obtain ⟨hkt, hle⟩ := keeps_snoc.mp hk
      have hle' := hkt.le
      have ih := ih hkt
      rw [List.foldl_append, List.foldl_cons, List.foldl_nil]
      simp only [closed_append, opened_append] at hle ⊢
      generalize t.foldl f Γ = Δ at ih ⊢
      by_cases ho : event o = .opens
      · have hd : opened (t.map event) + 1 - (closed (t.map event) + 0) =
            opened (t.map event) - closed (t.map event) + 1 := by omega
        rw [ho, closed_opens, opened_opens, hd, ← List.drop_tail, h.opens Δ o ho]
        exact ih
      · by_cases hc : event o = .closes
        · rw [hc, closed_closes, opened_closes] at hle
          have hd : opened (t.map event) - closed (t.map event) =
              opened (t.map event) + 0 - (closed (t.map event) + 1) + 1 := by omega
          rw [hc, closed_closes, opened_closes, h.closes Δ o hc, List.drop_tail, ← hd]
          exact ih
        · have hnames : closed [event o] = 0 ∧ opened [event o] = 0 := by
            cases he : event o with
            | opens => exact absurd he ho
            | closes => exact absurd he hc
            | binds x => exact ⟨rfl, rfl⟩
            | reads x => exact ⟨rfl, rfl⟩
          rw [hnames.1, hnames.2, Nat.add_zero, Nat.add_zero, ← List.drop_tail, h.names Δ o ho hc,
            List.drop_tail]
          exact ih

omit [DecidableEq κ] in
/-- **A block around balanced operations** gives back the whole stack. -/
theorem foldl_block (h : StackLike event f) {o c : ω} (ho : event o = .opens) (hc : event c = .closes)
    (hb : WellNested (t.map event)) : (o :: t ++ [c]).foldl f Γ = Γ := by
  have hd := drop_foldl h (Γ := f Γ o) hb.keeps
  rw [hb.closed, Nat.sub_self, h.opens Γ o ho, List.drop_one] at hd
  rw [List.foldl_append, List.foldl_cons, List.foldl_cons, List.foldl_nil, h.closes _ c hc]
  exact hd

end StackLike

end ScopeEvent

/-- Two layers have no key in common. -/
theorem Layers.Unshadowed.disjoint {κ : Type} {Γ : Layers κ} (h : Γ.Unshadowed) :
    Γ.Pairwise List.Disjoint := by
  induction Γ with
  | nil => exact .nil
  | cons l ls ih =>
      refine List.pairwise_cons.mpr ⟨fun m hm x hl hx => ?_, ih h.2⟩
      exact h.1 x hl ⟨m, hm, hx⟩

end Lib
