import ParaCL.Lib.Items

/-!
# `Lib.Slr` — checking a grammar's item sets once for all stacks

`Lookaheads` are tables of nullable, FIRST and FOLLOW that are closed under the productions. An `Slr`
grammar is one whose complete items stand alone in their item set and clash with no shift of a terminal
that may follow them. `explore` computes the finitely many item sets there are, so that the check of a
concrete grammar is one evaluation.

`kernel_mem` carries the check over to every stack, and `settled_of_check` says what it means there.
-/

namespace Lib

namespace Grammar

variable {T N R : Type} [DecidableEq T] [DecidableEq N] [DecidableEq R] (G : Grammar T N R)

/-! ## What can begin and follow -/

section Firsts

variable (nullable : N → Bool) (first : N → List T)

def allNullable : List (GrammarSymbol T N) → Bool
  | [] => true
  | .terminal _ :: _ => false
  | .nonterminal a :: β => nullable a && allNullable β

def firstOf : List (GrammarSymbol T N) → List T
  | [] => []
  | .terminal t :: _ => [t]
  | .nonterminal a :: β => first a ++ if nullable a then firstOf β else []

end Firsts

/-- Tables of what is empty, begins and follows, closed under the productions. -/
structure Lookaheads where
  nullable : N → Bool
  first : N → List T
  follow : N → List T
  nullable_rule : ∀ r, allNullable nullable (G.rhs r) = true → nullable (G.lhs r) = true
  first_rule : ∀ r, ∀ t ∈ firstOf nullable first (G.rhs r), t ∈ first (G.lhs r)
  follow_first : ∀ r d a, (G.rhs r)[d]? = some (.nonterminal a) →
    ∀ t ∈ firstOf nullable first ((G.rhs r).drop (d + 1)), t ∈ follow a
  follow_rule : ∀ r d a, (G.rhs r)[d]? = some (.nonterminal a) →
    allNullable nullable ((G.rhs r).drop (d + 1)) = true → ∀ t ∈ follow (G.lhs r), t ∈ follow a

/-! ## The kernels -/

/-- The symbols some item goes on with. -/
def nextSymbols (its : List (Item R)) : List (GrammarSymbol T N) := (its.filterMap G.next).dedup

/-- The kernels met from a worklist, if the bound suffices. -/
def explore : Nat → List (List (Item R)) → List (List (Item R)) → Option (List (List (Item R)))
  | _, [], found => some found
  | 0, _ :: _, _ => none
  | n + 1, k :: work, found =>
      if k ∈ found then explore n work found
      else
        let its := G.closure k
        explore n ((G.nextSymbols its).map (G.goto its) ++ work) (k :: found)

/-- A complete item stands alone, and nothing that may follow it can be shifted. -/
def Settled (follow : N → List T) (its : List (Item R)) : Prop :=
  ∀ it ∈ its, G.next it = none → ∀ i ∈ its,
    (G.next i = none → i = it) ∧ ∀ t ∈ follow (G.lhs it.rule), G.next i ≠ some (.terminal t)

instance (follow : N → List T) (its : List (Item R)) : Decidable (G.Settled follow its) :=
  inferInstanceAs (Decidable (∀ it ∈ its, _))

/-- The list holds the first kernel and every kernel after one of its own. -/
structure ClosedKernels (states : List (List (Item R))) : Prop where
  start : [⟨G.start, 0⟩] ∈ states
  goto : ∀ k ∈ states, ∀ x ∈ G.nextSymbols (G.closure k), G.goto (G.closure k) x ∈ states

variable {G} in
theorem explore_closed {n : Nat} {work found states : List (List (Item R))}
    (hfound : ∀ k ∈ found, ∀ x ∈ G.nextSymbols (G.closure k),
      G.goto (G.closure k) x ∈ found ∨ G.goto (G.closure k) x ∈ work)
    (h : G.explore n work found = some states) :
    (∀ k, k ∈ found ∨ k ∈ work → k ∈ states) ∧
      ∀ k ∈ states, ∀ x ∈ G.nextSymbols (G.closure k), G.goto (G.closure k) x ∈ states := by
  induction n generalizing work found with
  | zero =>
      cases work with
      | cons k work => cases h
      | nil =>
          cases h
          exact ⟨fun k hk => hk.resolve_right (by simp),
            fun k hk x hx => (hfound k hk x hx).resolve_right (by simp)⟩
  | succ n ih =>
      cases work with
      | nil =>
          cases h
          exact ⟨fun k hk => hk.resolve_right (by simp),
            fun k hk x hx => (hfound k hk x hx).resolve_right (by simp)⟩
      | cons k work =>
          rw [explore] at h
          -- a kernel already found is dropped; a new one is found and its successors wait
          split at h
          · rename_i hk
            obtain ⟨hin, hclosed⟩ := ih (fun k' hk' x hx => by
              rcases hfound k' hk' x hx with hf | hw
              · exact .inl hf
              · rcases List.mem_cons.mp hw with he | hw
                · exact .inl (he ▸ hk)
                · exact .inr hw) h
            refine ⟨fun k' hk' => hin k' ?_, hclosed⟩
            rcases hk' with hf | hw
            · exact .inl hf
            · rcases List.mem_cons.mp hw with rfl | hw
              · exact .inl hk
              · exact .inr hw
          · obtain ⟨hin, hclosed⟩ := ih (fun k' hk' x hx => by
              rcases List.mem_cons.mp hk' with rfl | hk'
              · exact .inr (List.mem_append_left _ (List.mem_map_of_mem hx))
              · rcases hfound k' hk' x hx with hf | hw
                · exact .inl (List.mem_cons_of_mem _ hf)
                · rcases List.mem_cons.mp hw with he | hw
                  · exact .inl (List.mem_cons.mpr (.inl he))
                  · exact .inr (List.mem_append_right _ hw)) h
            refine ⟨fun k' hk' => hin k' ?_, hclosed⟩
            rcases hk' with hf | hw
            · exact .inl (List.mem_cons_of_mem _ hf)
            · rcases List.mem_cons.mp hw with rfl | hw
              · exact .inl (List.mem_cons_self ..)
              · exact .inr (List.mem_append_right _ hw)

variable {G} in
/-- **Exploring from the first kernel** finds a closed list. -/
theorem closedKernels_of_explore {n : Nat} {states : List (List (Item R))}
    (h : G.explore n [[⟨G.start, 0⟩]] [] = some states) : G.ClosedKernels states :=
  have hc := explore_closed (by simp) h
  ⟨hc.1 _ (.inr (List.mem_singleton.mpr rfl)), hc.2⟩

/-- The exploration ends and settles every item set it meets. -/
def checkSettled (follow : N → List T) (n : Nat) : Bool :=
  match G.explore n [[⟨G.start, 0⟩]] [] with
  | some states => states.all (fun k => decide (G.Settled follow (G.closure k)))
  | none => false

/-- A grammar whose item sets settle every choice with one terminal of lookahead. -/
structure Slr extends G.Lookaheads where
  settled : ∀ γ, G.Settled follow (G.items γ)

variable {G} {γ : List (GrammarSymbol T N)} {it i : Item R}

omit [DecidableEq R] in
/-- Every kernel is in a closed list, or the stack is no viable prefix. -/
theorem ClosedKernels.kernel_mem {states : List (List (Item R))} (h : G.ClosedKernels states)
    (γ : List (GrammarSymbol T N)) : G.kernel γ ∈ states ∨ G.kernel γ = [] := by
  induction γ with
  | nil => exact .inl h.1
  | cons x γ ih =>
      show G.goto (G.closure (G.kernel γ)) x ∈ states ∨ _ = []
      by_cases hx : x ∈ G.nextSymbols (G.closure (G.kernel γ))
      · rcases ih with hk | hk
        · exact .inl (h.2 _ hk x hx)
        · rw [hk] at hx
          simp [closure, nextSymbols] at hx
      · right
        unfold kernel Grammar.goto
        rw [List.map_eq_nil_iff, List.filter_eq_nil_iff]
        intro i hi hn
        refine hx (List.mem_dedup.mpr (List.mem_filterMap.mpr ⟨i, hi, ?_⟩))
        simpa using hn

/-- **Every stack is settled** after a check that went through. -/
theorem settled_of_check {follow : N → List T} {n : Nat} (h : G.checkSettled follow n = true)
    (γ : List (GrammarSymbol T N)) : G.Settled follow (G.items γ) := by
  unfold checkSettled at h
  split at h
  · rename_i states he
    rcases (closedKernels_of_explore he).kernel_mem γ with hk | hk
    · exact of_decide_eq_true (List.all_eq_true.mp h _ hk)
    · intro it hit
      rw [items, hk] at hit
      simp [closure] at hit
  · cases h

omit [DecidableEq R] in
/-- The parser finds the complete item there is. -/
theorem Slr.complete_eq (C : G.Slr) (h : it ∈ G.items γ) (hn : G.next it = none) :
    G.complete γ = some it := by
  cases hc : G.complete γ with
  | none => exact absurd hn (complete_none.mp hc it h)
  | some i =>
      obtain ⟨hi, hni⟩ := complete_some hc
      rw [(C.settled γ it h hn i hi).1 hni]

omit [DecidableEq R] in
/-- Nothing that may follow a complete item can be shifted. -/
theorem Slr.not_shifts (C : G.Slr) (h : it ∈ G.items γ) (hn : G.next it = none) {t : T}
    (ht : t ∈ C.follow (G.lhs it.rule)) : G.shifts γ t = false := by
  refine eq_false_of_ne_true (fun hs => ?_)
  obtain ⟨i, hi, hx⟩ := shifts_iff.mp hs
  exact (C.settled γ it h hn i hi).2 t ht hx

end Grammar

end Lib
