import ParaCL.Scopes.Operations

/-!
# `Scopes.Discipline` — stack discipline without shadowing

A sequence of calls that never pops the scope it started in leaves the layers that were under it alone
(`drop_foldl`). On a new table it keeps a name in one scope only, finds exactly the names added in a scope
that is still open, and after a `push`, balanced calls and the matching `pop` finds what it found before.
-/

namespace ParaCL

open Lib ScopeEvent

section Ops

variable {α : Type} {t u before between : List (ScopeOp α)} {x : Name} {a : α}

theorem not_reads (t : List (ScopeOp α)) (x : Name) : reads x ∉ t.map ScopeOp.event := by
  rw [List.mem_map]
  rintro ⟨op, _, hop⟩
  cases op <;> cases hop

theorem OpsKeep.initial (h : OpsKeep (t ++ u)) : OpsKeep t := by
  rw [OpsKeep, List.map_append] at h
  exact fun w hw => h w (hw.trans (List.prefix_append _ _))

/-- A `push`, balanced calls and the matching `pop`. -/
theorem OpsBalanced.block (h : OpsBalanced t) : OpsBalanced (.push :: t ++ [.pop]) := by
  rw [OpsBalanced, List.map_append, List.map_cons, ← List.singleton_append]
  exact WellNested.block h

/-- The names in the open scopes are those added in a scope that is still open. -/
theorem visible_iff (hk : OpsKeep t) :
    Layers.Visible x (ScopeEvent.run [[]] (t.map ScopeOp.event)).1 ↔
      ∃ before a between, t = before ++ .add x a :: between ∧ OpsKeep between := by
  have hv := (tracks_run hk (missing_of_binds (not_reads t))).visible 0 x
  rw [List.drop_zero] at hv
  rw [hv, declares_zero]
  constructor
  · rintro ⟨b, w, h, hw⟩
    obtain ⟨before, rest, rfl, rfl, hrest⟩ := List.map_eq_append_iff.mp h
    obtain ⟨op, between, rfl, hop, rfl⟩ := List.map_eq_cons_iff.mp hrest
    cases op with
    | push => cases hop
    | pop => cases hop
    | add y a =>
        cases hop
        exact ⟨before, a, between, rfl, hw⟩
  · rintro ⟨before, a, between, rfl, hw⟩
    exact ⟨_, _, by rw [List.map_append, List.map_cons]; rfl, hw⟩

end Ops

/-! ## `Scope` -/

namespace Scope

variable {s : Scope} {t u : List (ScopeOp Unit)} {x : Name}

/-- One call, on the layers. -/
def layersStep (Γ : Layers Name) (op : ScopeOp Unit) : Layers Name := (ScopeEvent.exec Γ op.event).1

theorem stackLike_layersStep : StackLike ScopeOp.event layersStep where
  opens Γ op h := by rw [layersStep, h]; rfl
  closes Γ op h := by rw [layersStep, h]; rfl
  names Γ op ho hc := by
    cases op with
    | push => exact absurd rfl ho
    | pop => exact absurd rfl hc
    | add x a => exact Layers.declare_tail

theorem exec_ok {op : ScopeOp Unit} (hne : s.scopes ≠ []) (hop : op.named) :
    s.exec op = .ok ⟨layersStep s.scopes op⟩ := by
  cases op with
  | push => rfl
  | pop =>
      obtain ⟨l, ls, hs⟩ := List.exists_cons_of_ne_nil hne
      obtain ⟨scopes⟩ := s
      subst hs
      rfl
  | add x a =>
      rw [exec, addVariableView_eq hop, addVariable_ok hne]
      rfl

theorem foldl_layersStep {Γ : Layers Name} :
    t.foldl layersStep Γ = (ScopeEvent.run Γ (t.map ScopeOp.event)).1 := by
  induction t generalizing Γ with
  | nil => rfl
  | cons op t ih => exact ih

theorem run_append : s.run (t ++ u) = s.run t >>= fun s' => s'.run u := List.foldlM_append

theorem run_snoc {op : ScopeOp Unit} : s.run (t ++ [op]) = s.run t >>= fun s' => s'.exec op := by
  rw [run_append]
  simp only [run, List.foldlM_cons, List.foldlM_nil, bind_pure]

/-- The calls do not throw, and the layers follow them. -/
theorem run_ok (hne : s.scopes ≠ []) (hnamed : ∀ op ∈ t, op.named) (hk : OpsKeep t) :
    s.run t = .ok ⟨t.foldl layersStep s.scopes⟩ := by
  induction t using List.reverseRecOn with
  | nil => rfl
  | append_singleton t op ih =>
      have hkt : OpsKeep t := OpsKeep.initial hk
      have hg := grows_run hne hkt
      rw [← foldl_layersStep] at hg
      have hne' : t.foldl layersStep s.scopes ≠ [] := fun h => by
        have := hg.ne_nil
        rw [h, List.drop_nil] at this
        exact this rfl
      rw [run_snoc, ih (fun o ho => hnamed o (List.mem_append_left _ ho)) hkt, List.foldl_append]
      exact exec_ok hne' (hnamed op (by simp))

end Scope

/-! ## `Scope_stack` -/

namespace ScopeStack

variable {α : Type} {s : ScopeStack α} {t u before between : List (ScopeOp (Option α))}
  {op : ScopeOp (Option α)} {x y : Name} {a : α} {o : Option α}

/-- `declare` goes through when no scope has the name. -/
def Fresh (s : ScopeStack α) (x : Name) : Prop := s.scopes ≠ [] ∧ s.lookup x = none

theorem declare_fresh (h : s.Fresh x) : s.declare x o = .ok ⟨Tables.put x o s.scopes⟩ := by
  have hf : ¬ s.find x = true := by rw [find, h.2]; exact Bool.false_ne_true
  rw [declare, if_neg h.1, if_neg hf]

theorem step_add_fresh (h : s.Fresh x) : s.step (.add x o) = ⟨Tables.put x o s.scopes⟩ := by
  rw [step, exec, declare_fresh h]
  rfl

theorem declare_isOk : (s.declare x o).isOk = true ↔ s.Fresh x := by
  constructor
  · intro h
    by_cases hne : s.scopes = []
    · rw [declare, if_pos hne] at h
      cases h
    · by_cases hf : s.find x = true
      · rw [declare, if_neg hne, if_pos hf] at h
        cases h
      · refine ⟨hne, ?_⟩
        rw [find, Bool.not_eq_true, Option.isSome_eq_false_iff, Option.isNone_iff_eq_none] at hf
        exact hf
  · intro h
    rw [declare_fresh h]
    rfl

theorem step_add_of_not (h : ¬ s.Fresh x) : s.step (.add x o) = s := by
  rw [← declare_isOk (o := o)] at h
  rw [step, exec]
  cases hd : s.declare x o with
  | ok s' => rw [hd] at h; exact absurd rfl h
  | error e => rfl

theorem stackLike_step : StackLike ScopeOp.event (fun Γ (op : ScopeOp (Option α)) => (step ⟨Γ⟩ op).scopes) where
  opens Γ op h := by
    cases op with
    | push => rfl
    | pop => cases h
    | add x a => cases h
  closes Γ op h := by
    cases op with
    | push => cases h
    | pop => cases Γ <;> rfl
    | add x a => cases h
  names Γ op ho hc := by
    cases op with
    | push => exact absurd rfl ho
    | pop => exact absurd rfl hc
    | add x a =>
        by_cases hf : Fresh ⟨Γ⟩ x
        · rw [step_add_fresh hf]
          exact Tables.put_tail
        · rw [step_add_of_not hf]

theorem run_scopes : (s.run t).scopes = t.foldl (fun Γ op => (step ⟨Γ⟩ op).scopes) s.scopes := by
  induction t generalizing s with
  | nil => rfl
  | cons op t ih => exact ih

theorem run_append : s.run (t ++ u) = (s.run t).run u := List.foldl_append

theorem run_snoc : s.run (t ++ [op]) = (s.run t).step op := by
  rw [run_append]
  rfl

/-- No scope holds a null pointer. -/
def Allocated (s : ScopeStack α) : Prop := ∀ l ∈ s.scopes, ∀ p ∈ l, p.2 ≠ none

theorem allocated_init : (init : ScopeStack α).Allocated := by
  intro l hl p hp
  rw [List.mem_singleton.mp hl] at hp
  cases hp

theorem Allocated.step (h : s.Allocated) (hop : op.allocated) : (s.step op).Allocated := by
  cases op with
  | push =>
      intro l hl
      rcases List.mem_cons.mp hl with rfl | hl
      · intro p hp
        cases hp
      · exact h l hl
  | pop =>
      obtain ⟨Γ⟩ := s
      cases Γ with
      | nil => exact h
      | cons l Γ => exact fun l' hl' => h l' (List.mem_cons_of_mem _ hl')
  | add x o =>
      by_cases hf : s.Fresh x
      · rw [step_add_fresh hf]
        obtain ⟨Γ⟩ := s
        cases Γ with
        | nil => exact h
        | cons l Γ =>
            intro l' hl' p hp
            rcases List.mem_cons.mp hl' with rfl | hl'
            · rcases List.mem_cons.mp hp with rfl | hp
              · exact hop
              · exact h l (List.mem_cons_self ..) p hp
            · exact h l' (List.mem_cons_of_mem _ hl') p hp
      · rw [step_add_of_not hf]
        exact h

theorem Allocated.run (h : s.Allocated) (ht : ∀ op ∈ t, op.allocated) : (s.run t).Allocated := by
  induction t generalizing s with
  | nil => exact h
  | cons op t ih =>
      exact ih (h.step (ht op (List.mem_cons_self ..))) (fun o ho => ht o (List.mem_cons_of_mem _ ho))

/-- What is found is an entry of some scope. -/
theorem lookup_eq_some : s.lookup x = some a ↔ Tables.lookup s.scopes x = some (some a) := by
  rw [lookup, Option.join_eq_some_iff]

/-- Without null pointers the names that are found are the names in the scopes. -/
theorem Allocated.lookup_eq_none (h : s.Allocated) :
    s.lookup x = none ↔ ¬ Layers.Visible x (Tables.keys s.scopes) := by
  rw [← Tables.lookup_eq_none, lookup]
  cases hl : Tables.lookup s.scopes x with
  | none => simp
  | some o =>
      obtain ⟨l, hmem, hp⟩ := Tables.mem_of_lookup hl
      cases o with
      | none => exact absurd rfl (h l hmem _ hp)
      | some a => simp

theorem Allocated.fresh_iff (h : s.Allocated) :
    s.Fresh x ↔ s.scopes ≠ [] ∧ ¬ Layers.Visible x (Tables.keys s.scopes) := by
  rw [Fresh, h.lookup_eq_none]

/-- The names follow the calls as they do in `Scope`. -/
theorem keys_step (h : s.Allocated) :
    Tables.keys (s.step op).scopes = (ScopeEvent.exec (Tables.keys s.scopes) op.event).1 := by
  cases op with
  | push => rfl
  | pop =>
      obtain ⟨Γ⟩ := s
      cases Γ <;> rfl
  | add x o =>
      show _ = Layers.declare x (Tables.keys s.scopes)
      by_cases hf : s.Fresh x
      · obtain ⟨hne, hv⟩ := h.fresh_iff.mp hf
        obtain ⟨l, ls, hs⟩ := List.exists_cons_of_ne_nil hne
        rw [step_add_fresh hf, hs, Tables.keys_put_cons, Tables.keys_cons]
        rw [hs, Tables.keys_cons] at hv
        rw [Layers.declare_cons_of_not_visible hv]
      · rw [step_add_of_not hf]
        by_cases hv : Layers.Visible x (Tables.keys s.scopes)
        · exact (Layers.declare_of_visible hv).symm
        · have hnil : s.scopes = [] := by
            by_contra hne
            exact hf (h.fresh_iff.mpr ⟨hne, hv⟩)
          rw [hnil]
          rfl

theorem keys_run (h : s.Allocated) (ht : ∀ op ∈ t, op.allocated) :
    Tables.keys (s.run t).scopes = (ScopeEvent.run (Tables.keys s.scopes) (t.map ScopeOp.event)).1 := by
  induction t generalizing s with
  | nil => rfl
  | cons op t ih =>
      rw [List.map_cons, ScopeEvent.run, ← keys_step h]
      exact ih (h.step (ht op (List.mem_cons_self ..))) (fun o ho => ht o (List.mem_cons_of_mem _ ho))

theorem unshadowed_init_run (ht : ∀ op ∈ t, op.allocated) :
    (Tables.keys (init.run t).scopes).Unshadowed := by
  rw [keys_run allocated_init ht]
  exact unshadowed_run ⟨fun _ hx => absurd hx List.not_mem_nil, trivial⟩

theorem run_ne_nil (hk : OpsKeep t) (ht : ∀ op ∈ t, op.allocated) : (init.run t).scopes ≠ [] := by
  have hg := grows_run (Γ := [[]]) (List.cons_ne_nil _ _) hk
  intro h
  have hkeys := keys_run allocated_init ht
  rw [h] at hkeys
  have hnil := hg.ne_nil
  rw [show ([[]] : Layers Name) = Tables.keys (init : ScopeStack α).scopes from rfl, ← hkeys] at hnil
  exact hnil List.drop_nil

/-- Without shadowing, what a stack finds under some of its layers it finds. -/
theorem lookup_of_drop {Γ : Tables Name (Option α)} {k : Nat} (h : (Tables.keys Γ).Unshadowed)
    (hl : Tables.lookup (Γ.drop k) x = some o) : Tables.lookup Γ x = some o := by
  induction k generalizing Γ with
  | zero => exact hl
  | succ k ih =>
      have htail : (Tables.keys Γ.tail).Unshadowed := Tables.keys_tail ▸ h.tail
      rw [← List.drop_tail] at hl
      have hl := ih htail hl
      have hv : Layers.Visible x (Tables.keys Γ.tail) := Tables.lookup_isSome.mp (by rw [hl]; rfl)
      rw [← Tables.lookup_tail h hv, hl]

/-- A slot stays where it is as long as its scope is open. -/
theorem lookup_drop_run (hx : Tables.lookup s.scopes x = some (some a)) (hk : OpsKeep t) :
    Tables.lookup ((s.run t).scopes.drop
      (opened (t.map ScopeOp.event) - closed (t.map ScopeOp.event))) x = some (some a) := by
  induction t using List.reverseRecOn with
  | nil => exact hx
  | append_singleton t op ih =>
      have hkt : OpsKeep t := OpsKeep.initial hk
      rw [OpsKeep, List.map_append, List.map_singleton] at hk
      have hle := (keeps_snoc.mp hk).2
      have hle' := hkt.le
      have ih := ih hkt
      rw [run_snoc, List.map_append, List.map_singleton]
      simp only [closed_append, opened_append] at hle ⊢
      generalize s.run t = r at ih ⊢
      cases op with
      | push =>
          have hd : opened (t.map ScopeOp.event) + 1 - (closed (t.map ScopeOp.event) + 0) =
              opened (t.map ScopeOp.event) - closed (t.map ScopeOp.event) + 1 := by omega
          rw [ScopeOp.event, closed_opens, opened_opens, hd]
          exact ih
      | pop =>
          rw [ScopeOp.event, closed_closes, opened_closes] at hle ⊢
          have hd : opened (t.map ScopeOp.event) - closed (t.map ScopeOp.event) =
              opened (t.map ScopeOp.event) + 0 - (closed (t.map ScopeOp.event) + 1) + 1 := by omega
          rw [hd, ← List.drop_tail] at ih
          rw [stackLike_step.closes r.scopes .pop rfl]
          exact ih
      | add y b =>
          rw [ScopeOp.event, closed_binds, opened_binds, Nat.add_zero, Nat.add_zero]
          by_cases hf : r.Fresh y
          · rw [step_add_fresh hf]
            cases hd : opened (t.map ScopeOp.event) - closed (t.map ScopeOp.event) with
            | zero =>
                rw [hd, List.drop_zero] at ih
                -- the slot found is not the one that is new
                have hne : x ≠ y := by
                  rintro rfl
                  have hnone := hf.2
                  rw [lookup_eq_some.mpr ih] at hnone
                  cases hnone
                rw [List.drop_zero, Tables.lookup_put_ne hne]
                exact ih
            | succ d =>
                rw [hd, ← List.drop_tail] at ih
                rw [← List.drop_tail, Tables.put_tail]
                exact ih
          · rw [step_add_of_not hf]
            exact ih

/-- A declaration that went through is found as long as its scope is open. -/
theorem lookup_of_declared (ht : ∀ op ∈ before ++ .add x (some a) :: between, op.allocated)
    (hf : (init.run before).Fresh x) (hk : OpsKeep between) :
    (init.run (before ++ .add x (some a) :: between)).lookup x = some a := by
  have hdrop := lookup_drop_run (s := (init.run before).step (.add x (some a))) (x := x) (a := a)
    (by rw [step_add_fresh hf]; exact Tables.lookup_put_self hf.1) hk
  rw [← run_snoc, ← run_append, ← List.append_cons] at hdrop
  exact lookup_eq_some.mpr (lookup_of_drop (unshadowed_init_run ht) hdrop)

/-- Behind a declaration in an open scope there is one that went through. -/
theorem exists_declared (n : Nat) (hn : before.length ≤ n) (hkb : OpsKeep before) (hk : OpsKeep between)
    (ht : ∀ op ∈ before, op.allocated) :
    ∃ before' o' between', before ++ .add x o :: between = before' ++ .add x o' :: between' ∧
      OpsKeep between' ∧ (init.run before').Fresh x := by
  induction n generalizing before o between with
  | zero =>
      have hnil : before = [] := List.length_eq_zero_iff.mp (Nat.le_zero.mp hn)
      subst hnil
      exact ⟨[], o, between, rfl, hk, List.cons_ne_nil _ _, rfl⟩
  | succ n ih =>
      by_cases hf : (init.run before).Fresh x
      · exact ⟨before, o, between, rfl, hk, hf⟩
      · -- it was refused, so an earlier one is in an open scope
        have hv : Layers.Visible x (Tables.keys (init.run before).scopes) := by
          by_contra hv
          exact hf ((allocated_init.run ht).fresh_iff.mpr ⟨run_ne_nil hkb ht, hv⟩)
        rw [keys_run allocated_init ht] at hv
        obtain ⟨before1, o1, between1, rfl, hk1⟩ := (visible_iff hkb).mp hv
        have hk2 : OpsKeep (between1 ++ .add x o :: between) := by
          rw [OpsKeep, List.map_append, List.map_cons, ← List.singleton_append]
          exact hk1.append (wellNested_binds.keeps.append hk)
        have hlen : before1.length ≤ n := by
          rw [List.length_append, List.length_cons] at hn
          omega
        rw [List.append_assoc, List.cons_append]
        exact ih hlen (OpsKeep.initial hkb) hk2 (fun op hop => ht op (List.mem_append_left _ hop))

/-- **`lookup`** finds the slot of the one declaration of the name that went through in an open scope. -/
theorem lookup_iff (hk : OpsKeep t) (ht : ∀ op ∈ t, op.allocated) : (init.run t).lookup x = some a ↔
    ∃ before between, t = before ++ .add x (some a) :: between ∧ OpsKeep between ∧
      (init.run before).Fresh x := by
  constructor
  · intro h
    have hv : Layers.Visible x (Tables.keys (init.run t).scopes) :=
      Tables.lookup_isSome.mp (by rw [lookup_eq_some.mp h]; rfl)
    rw [keys_run allocated_init ht] at hv
    obtain ⟨before1, o1, between1, rfl, hk1⟩ := (visible_iff hk).mp hv
    obtain ⟨before, o, between, hsplit, hkb, hf⟩ := exists_declared (o := o1) _ (Nat.le_refl _)
      (OpsKeep.initial hk) hk1 (fun op hop => ht op (List.mem_append_left _ hop))
    rw [hsplit] at h ht
    cases o with
    | none => exact absurd rfl (ht (.add x none) (by simp))
    | some b =>
        rw [lookup_of_declared ht hf hkb] at h
        cases h
        exact ⟨before, between, hsplit, hkb, hf⟩
  · rintro ⟨before, between, rfl, hkb, hf⟩
    exact lookup_of_declared ht hf hkb

/-- There is only one of them. -/
theorem declared_unique {before' between' : List (ScopeOp (Option α))} {o' : Option α}
    (ht : ∀ op ∈ t, op.allocated) (h : t = before ++ .add x o :: between)
    (h' : t = before' ++ .add x o' :: between') (hk : OpsKeep between) (hk' : OpsKeep between')
    (hf : (init.run before).Fresh x) (hf' : (init.run before').Fresh x) : before = before' := by
  have hlt : ∀ {c d : Option α} {p q v w : List (ScopeOp (Option α))}, t = p ++ .add x c :: v →
      t = q ++ .add x d :: w → p.length < q.length → OpsKeep v → (init.run p).Fresh x →
        ¬ (init.run q).Fresh x := by
    intro c d p q v w hp hq hl hv hfp hfq
    rcases List.append_eq_append_iff.mp (hp.symm.trans hq) with ⟨r, rfl, hr⟩ | ⟨r, rfl, hr⟩
    · cases r with
      | nil =>
          rw [List.append_nil] at hl
          exact absurd hl (Nat.lt_irrefl _)
      | cons e r =>
          rw [List.cons_append, List.cons.injEq] at hr
          obtain ⟨rfl, rfl⟩ := hr
          have hpre : ∀ op ∈ p ++ .add x c :: r, op.allocated := fun op hop => ht op (by
            rw [hq]
            exact List.mem_append_left _ hop)
          cases c with
          | none => exact absurd rfl (hpre (.add x none) (by simp))
          | some a =>
              have hnone := hfq.2
              rw [lookup_of_declared hpre hfp (OpsKeep.initial hv)] at hnone
              cases hnone
    · rw [List.length_append] at hl
      omega
  rcases Nat.lt_trichotomy before.length before'.length with hl | hl | hl
  · exact absurd hf' (hlt h h' hl hk hf)
  · exact (List.append_inj (h.symm.trans h') hl).1
  · exact absurd hf (hlt h' h hl hk' hf')

end ScopeStack

/-! ## The discipline -/

theorem not_disjoint {x : Name} : ¬ [[x], [x]].Pairwise (List.Disjoint (α := Name)) := by
  intro h
  have hd := (List.pairwise_cons.mp h).1 [x] List.mem_cons_self
  exact hd List.mem_cons_self List.mem_cons_self

theorem opsKeep_twice {α : Type} {x : Name} {a b : α} : OpsKeep [.add x a, .push, .add x b] := by
  show Keeps ([binds x] ++ ([opens] ++ [binds x]))
  refine wellNested_binds.keeps.append (Keeps.append ?_ wellNested_binds.keeps)
  exact keeps_snoc.mpr ⟨keeps_nil, by simp⟩

/-- The value that stands for "not found" is put into two scopes: the empty name of a `Scope`, which is found
    in neither, and a name declared with the null pointer in a `Scope_stack`. -/
theorem not_found_shadowed :
    (OpsKeep [.add "" (), .push, .add "" ()] ∧
      Scope.init.run [.add "" (), .push, .add "" ()] = .ok ⟨[[""], [""]]⟩ ∧
        ¬ [[""], [""]].Pairwise (List.Disjoint (α := Name)) ∧
          (⟨[[""], [""]]⟩ : Scope).findView "" = false) ∧
      OpsKeep [.add "x" none, .push, .add "x" (some 7)] ∧
        (ScopeStack.init.run [.add "x" none, .push, .add "x" (some 7)]).scopes =
          [[("x", some 7)], [("x", none)]] ∧
          ¬ (Tables.keys (ScopeStack.init.run [.add "x" none, .push, .add "x" (some 7)]).scopes).Pairwise
            List.Disjoint :=
  ⟨⟨opsKeep_twice, rfl, not_disjoint, rfl⟩, opsKeep_twice, rfl, not_disjoint⟩

/-- **Both tables keep the stack discipline**, `Scope` for names that are not empty and `Scope_stack` for
    slots that are not null. -/
theorem scope_tables_disciplined :
    (∀ t : List (ScopeOp Unit), (∀ op ∈ t, op.named) → OpsKeep t →
      ∃ s, Scope.init.run t = .ok s ∧ s.scopes.Pairwise List.Disjoint ∧
        (∀ x, s.findView x = true ↔ ∃ before between, t = before ++ .add x () :: between ∧ OpsKeep between) ∧
        ∀ u, (∀ op ∈ u, op.named) → OpsBalanced u →
          ∃ s', s.run (.push :: u ++ [.pop]) = .ok s' ∧ ∀ x, s'.lookupView x = s.lookupView x) ∧
    (∀ (α : Type) (t : List (ScopeOp (Option α))), (∀ op ∈ t, op.allocated) → OpsKeep t →
      (Tables.keys (ScopeStack.init.run t).scopes).Pairwise List.Disjoint ∧
        (∀ x a, (ScopeStack.init.run t).lookup x = some a ↔
          ∃ before between, t = before ++ .add x (some a) :: between ∧ OpsKeep between ∧
            ((ScopeStack.init.run before).declare x (some a)).isOk) ∧
        (∀ x a b before between before' between', t = before ++ .add x a :: between →
          t = before' ++ .add x b :: between' → OpsKeep between → OpsKeep between' →
          ((ScopeStack.init.run before).declare x a).isOk →
          ((ScopeStack.init.run before').declare x b).isOk → before = before') ∧
        ∀ u, OpsBalanced u →
          ∀ x, ((ScopeStack.init.run t).run (.push :: u ++ [.pop])).lookup x =
            (ScopeStack.init.run t).lookup x) := by
  constructor
  · intro t hnamed hk
    have hne : Scope.init.scopes ≠ [] := List.cons_ne_nil _ _
    have hrun := Scope.run_ok hne hnamed hk
    refine ⟨_, hrun, ?_, fun x => ?_, fun u hu hb => ?_⟩
    · rw [Scope.foldl_layersStep]
      have hglobal : Layers.Unshadowed ([[]] : Layers Name) :=
        ⟨fun _ hx => absurd hx List.not_mem_nil, trivial⟩
      exact (unshadowed_run hglobal).disjoint
    -- `find` answers no for the empty name, which is never added
    · by_cases hx : x = ""
      · subst hx
        refine iff_of_false (by simp [Scope.findView_empty]) ?_
        rintro ⟨before, between, rfl, _⟩
        exact hnamed (.add "" ()) (by simp) rfl
      · rw [Scope.findView_iff hx, Scope.foldl_layersStep]
        refine (visible_iff hk).trans ⟨?_, ?_⟩
        · rintro ⟨before, a, between, h⟩
          exact ⟨before, between, h⟩
        · rintro ⟨before, between, h⟩
          exact ⟨before, (), between, h⟩
    -- the block as a whole is a trace that keeps the global scope, so it runs
    · have hkall : OpsKeep (t ++ (.push :: u ++ [.pop])) := by
        rw [OpsKeep, List.map_append]
        exact Keeps.append hk (OpsBalanced.block hb).keeps
      have hnamedAll : ∀ op ∈ t ++ (.push :: u ++ [.pop]), op.named := by
        simp only [List.mem_append, List.mem_cons, List.not_mem_nil, or_false]
        rintro op (hop | (rfl | hop) | rfl)
        · exact hnamed op hop
        · trivial
        · exact hu op hop
        · trivial
      have hall := Scope.run_ok hne hnamedAll hkall
      rw [List.foldl_append, foldl_block Scope.stackLike_layersStep rfl rfl hb, Scope.run_append, hrun] at hall
      exact ⟨_, hall, fun x => rfl⟩
  · intro α t ht hk
    refine ⟨(ScopeStack.unshadowed_init_run ht).disjoint, fun x a => ?_, ?_, fun u hb x => ?_⟩
    · simp only [ScopeStack.declare_isOk]
      exact ScopeStack.lookup_iff hk ht
    -- two declarations of one name that both count are the same one
    · intro x a b before between before' between' h h' hkb hkb' hf hf'
      exact ScopeStack.declared_unique ht h h' hkb hkb' (ScopeStack.declare_isOk.mp hf)
        (ScopeStack.declare_isOk.mp hf')
    · rw [ScopeStack.lookup, ScopeStack.run_scopes,
        foldl_block ScopeStack.stackLike_step rfl rfl hb]
      rfl

/-- One name in the global scope of either table is found there, also after a block that uses it. -/
theorem scope_tables_one_name :
    (∃ s, Scope.init.run [.add "x" ()] = .ok s ∧ s.findView "x" = true) ∧
      (((ScopeStack.init.run [.add "x" (some 7)]).run (.push :: [.add "x" (some 8)] ++ [.pop])).lookup "x" =
        some 7) := by
  have hk (n : Nat) : OpsKeep [.add "x" (some n)] := (wellNested_binds (x := "x")).keeps
  have hku : OpsKeep [.add "x" ()] := (wellNested_binds (x := "x")).keeps
  constructor
  · obtain ⟨s, hs, _, hfind, _⟩ := scope_tables_disciplined.1 [.add "x" ()]
      (by simp [ScopeOp.named]) hku
    exact ⟨s, hs, (hfind "x").mpr ⟨[], [], rfl, keeps_nil⟩⟩
  · obtain ⟨_, _, _, hblock⟩ := scope_tables_disciplined.2 Nat [.add "x" (some 7)]
      (by simp [ScopeOp.allocated]) (hk 7)
    rw [hblock [.add "x" (some 8)] wellNested_binds]
    rfl

end ParaCL
