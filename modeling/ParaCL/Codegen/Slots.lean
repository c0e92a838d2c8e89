import ParaCL.Codegen.Growth
import ParaCL.Codegen.Resolution

/-!
# `Codegen.Slots` — which function's slots an instruction uses

`scope_stack_` has one scope for each function being generated, and `lookup` goes through all of them: a
name that an outer function has a slot for is loaded from, or stored to, the outer function's slot. A use is
in order exactly if the name's slot is in the innermost scope (`slots_own_iff`).
-/

namespace ParaCL

open Lib

/-- The slot that a value is the address of. -/
def Value.slot? : Value → Option AllocaInst
  | .slot a => some a
  | _ => none

/-- The slots that a load, a store or a call works on. -/
def Instruction.slots : Instruction → List AllocaInst
  | .load _ a => [a]
  | .store _ a => [a]
  | .call _ _ _ args => args.filterMap Value.slot?
  | _ => []

namespace CodeGenerator

/-- The function has a load, a store or a call that works on the slot. -/
def Uses (g : CodeGenerator) (f : Nat) (a : AllocaInst) : Prop :=
  ∃ b < g.blockCount, (g.blocks b).parent = f ∧ ∃ i ∈ (g.blocks b).instrs, a ∈ i.slots

/-- The function allocates the slot. -/
def Allocates (g : CodeGenerator) (f : Nat) (a : AllocaInst) : Prop :=
  ∃ b < g.blockCount, (g.blocks b).parent = f ∧ .alloca a ∈ (g.blocks b).instrs

/-- **Own slots.** What a function works on it allocates itself. -/
def UsesOwnSlots (g : CodeGenerator) : Prop := ∀ f a, g.Uses f a → g.Allocates f a

/-- The uses of `g'` are those of `g` and, in the function `f`, of the slots `as`. -/
def UsesMore (g g' : CodeGenerator) (f : Nat) (as : List AllocaInst) : Prop :=
  ∀ f' a, g'.Uses f' a ↔ g.Uses f' a ∨ (f' = f ∧ a ∈ as)

variable {M : Llvm} {g g' g1 g2 : CodeGenerator} {f : Nat} {i : Instruction} {a : AllocaInst}
  {as : List AllocaInst} {P Q : Prop} {v : Value}

/-- An appended instruction uses its slots in the function of the insertion point. -/
theorem UsesMore.insert (hr : g.Ready) : UsesMore g (g.insert i) g.currentFunction i.slots := by
  intro f a
  constructor
  · rintro ⟨b, hb, hp, j, hj, ha⟩
    rw [insert_parent] at hp
    rcases mem_insert_instrs.mp hj with hj | ⟨rfl, rfl⟩
    · exact .inl ⟨b, hb, hp, j, hj, ha⟩
    · exact .inr ⟨hp.symm.trans hr.parent, ha⟩
  · rintro (⟨b, hb, hp, j, hj, ha⟩ | ⟨rfl, ha⟩)
    · exact ⟨b, hb, by rw [insert_parent]; exact hp, j, mem_insert_instrs.mpr (.inl hj), ha⟩
    · exact ⟨g.insertBlock, hr.insertLt, by rw [insert_parent]; exact hr.parent, i,
        mem_insert_instrs.mpr (.inr ⟨rfl, rfl⟩), ha⟩

/-- New empty blocks use nothing. -/
theorem UsesMore.of_blocks (f : Nat) (hc : g.blockCount ≤ g'.blockCount)
    (hold : ∀ b < g.blockCount, g'.blocks b = g.blocks b)
    (hnew : ∀ b, g.blockCount ≤ b → b < g'.blockCount → (g'.blocks b).instrs = []) :
    UsesMore g g' f [] := by
  intro f' a
  constructor
  · rintro ⟨b, hb, hp, j, hj, ha⟩
    by_cases hlt : b < g.blockCount
    · rw [hold b hlt] at hp hj
      exact .inl ⟨b, hlt, hp, j, hj, ha⟩
    · rw [hnew b (by omega) hb] at hj
      cases hj
  · rintro (⟨b, hb, hp, j, hj, ha⟩ | ⟨_, ha⟩)
    · exact ⟨b, by omega, by rw [hold b hb]; exact hp, j, by rw [hold b hb]; exact hj, ha⟩
    · cases ha

/-- A new slot is not used yet. -/
theorem UsesMore.createEntryAlloca {ty : Ty} (hr : g.Ready) : UsesMore g (g.createEntryAlloca ty) f [] := by
  intro f' a
  constructor
  · rintro ⟨b, hb, hp, j, hj, ha⟩
    rw [createEntryAlloca_parent _ hr] at hp
    rcases mem_createEntryAlloca hr hj with hj | ⟨_, rfl⟩
    · exact .inl ⟨b, hb, hp, j, hj, ha⟩
    · cases ha
  · rintro (⟨b, hb, hp, j, hj, ha⟩ | ⟨_, ha⟩)
    · have hframe := Frame.createEntryAlloca ty hr
      exact ⟨b, hb, (hframe.parent b hb).trans hp, j, hframe.mem_instrs hb hj, ha⟩
    · cases ha

/-! ## Own slots, by the slots' records -/

/-- What a function works on is recorded for it. -/
def Own (g : CodeGenerator) : Prop := ∀ f a, g.Uses f a → a.func = f

/-- What is worked on is allocated in the function it is recorded for. -/
def Sound (g : CodeGenerator) : Prop := ∀ f a, g.Uses f a → g.Allocates a.func a

/-- A slot is allocated in the function it is recorded for and in no other, so both notions of an own slot come
    to the same. -/
theorem usesOwnSlots_iff (hp : g.Placed) (hs : g.Sound) : g.UsesOwnSlots ↔ g.Own := by
  constructor
  · intro h f a hu
    obtain ⟨b, hb, hf, ha⟩ := h f a hu
    rw [hp.allocas b hb a ha, hf]
  · intro h f a hu
    have ha := hs f a hu
    rw [h f a hu] at ha
    exact ha

/-- A slot in scope is allocated in the function it is recorded for. -/
theorem Ready.allocates (hr : g.Ready) {x : Name} (h : g.lookup x = some a) :
    g.Allocates a.func a := by
  obtain ⟨l, hl, hp⟩ := Tables.mem_of_lookup h
  obtain ⟨b, hb, hmem⟩ := hr.allocated a (mem_slots hl hp)
  exact ⟨b, hb, (hr.allocas b hb _ hmem).symm, hmem⟩

/-- Allocations stay. -/
theorem Frame.allocates (h : Frame g g') (ha : g.Allocates f a) : g'.Allocates f a := by
  obtain ⟨b, hb, hp, hmem⟩ := ha
  exact ⟨b, Nat.lt_of_lt_of_le hb h.count, (h.parent b hb).trans hp, h.mem_instrs hb hmem⟩

/-- From `g` to `g'` only such uses have been added that `g'` is in order if `g` is and `P` holds. -/
structure Emits (P : Prop) (g g' : CodeGenerator) : Prop where
  own : g'.Own ↔ g.Own ∧ P
  sound : g.Sound → g'.Sound

/-- The condition may be put differently. -/
theorem Emits.congr (h : Emits P g g') (hPQ : P ↔ Q) : Emits Q g g' := ⟨by rw [h.own, hPQ], h.sound⟩

/-- The uses of two steps are in order if those of each are. -/
theorem Emits.trans (h1 : Emits P g g1) (h2 : Emits Q g1 g2) : Emits (P ∧ Q) g g2 :=
  ⟨by rw [h2.own, h1.own, and_assoc], fun h => h2.sound (h1.sound h)⟩

/-- What has to hold of an instruction: the slots it works on are of the function it stands in. -/
theorem Emits.of_usesMore (h : UsesMore g g' f as) (hframe : Frame g g')
    (ha : ∀ a ∈ as, g.Allocates a.func a) : Emits (∀ a ∈ as, a.func = f) g g' where
  own := by
    constructor
    · exact fun ho => ⟨fun f' a hu => ho f' a ((h f' a).mpr (.inl hu)),
        fun a ha => ho f a ((h f a).mpr (.inr ⟨rfl, ha⟩))⟩
    · rintro ⟨ho, hP⟩ f' a hu
      rcases (h f' a).mp hu with hu | ⟨rfl, ha⟩
      · exact ho f' a hu
      · exact hP a ha
  sound hs f' a hu := by
    rcases (h f' a).mp hu with hu | ⟨rfl, hmem⟩
    · exact hframe.allocates (hs f' a hu)
    · exact hframe.allocates (ha a hmem)

/-- Code that works on no slot. -/
abbrev Quiet (g g' : CodeGenerator) : Prop := Emits True g g'

/-- Nothing is asked of an instruction that works on no slot. -/
theorem Quiet.of_usesMore (h : UsesMore g g' f []) (hframe : Frame g g') : Quiet g g' :=
  (Emits.of_usesMore h hframe (by simp)).congr (by simp)

theorem Quiet.refl : Quiet g g := ⟨by simp, id⟩

theorem Quiet.trans (h1 : Quiet g g1) (h2 : Quiet g1 g2) : Quiet g g2 :=
  (Emits.trans h1 h2).congr (by simp)

/-- Arithmetic, jumps and returns work on no slot. -/
theorem Quiet.insert (hr : g.Ready) (hi : i.slots = []) : Quiet g (g.insert i) :=
  .of_usesMore (hi ▸ UsesMore.insert hr) (.insert g i)

theorem Emits.setLast (h : Emits P g g') : Emits P g (g'.setLast v) := ⟨h.own, h.sound⟩

theorem Emits.setInsertPoint {b : Nat} (h : Emits P g g') : Emits P g (g'.setInsertPoint b) :=
  ⟨h.own, h.sound⟩

/-- So do all calls that `IRBuilder` makes for an operator. -/
theorem Quiet.emit {α : Type} (m : Emit α) (hr : g.Ready) : Quiet g (emit M m g).2 := by
  induction m generalizing g with
  | pure a => exact .refl
  | create opcode args next ih =>
      unfold CodeGenerator.emit
      split
      · exact ih _ hr
      · have h := Grown.insert hr (i := .op g.nextId opcode args) trivial
        exact (Quiet.insert hr rfl).trans (ih _ h.ready)

theorem Quiet.createBlocks (n : Nat) (hr : g.Ready) : Quiet g (createBlocks n g) := by
  have h := createBlocks_blocks n g
  have hc : g.blockCount ≤ (CodeGenerator.createBlocks n g).blockCount := by rw [h.count]; omega
  exact .of_usesMore (.of_blocks 0 hc h.old (fun b hge hlt => by rw [h.new b hge hlt]; rfl))
    (Grown.createBlocks n hr).frame

theorem Quiet.openBlocks (n : Nat) (hr : g.Ready) (hi : i.slots = []) : Quiet g (openBlocks n i g) :=
  ((Quiet.createBlocks n hr).trans
    (.insert (Grown.createBlocks n hr).ready hi)).setLast.setInsertPoint

theorem Quiet.branchUnlessTerminated (target : Nat) (hr : g.Ready) :
    Quiet g (g.branchUnlessTerminated target) := by
  unfold CodeGenerator.branchUnlessTerminated
  split
  · exact .refl
  · exact .insert hr rfl

theorem Quiet.returnUnlessTerminated (v : Value) (hr : g.Ready) :
    Quiet g (g.returnUnlessTerminated v) := by
  unfold CodeGenerator.returnUnlessTerminated
  split
  · exact .refl
  · exact .insert hr rfl

theorem Quiet.openIf (hr : g.Ready) : Quiet g (g.openIf M) :=
  (Quiet.emit _ hr).trans (.openBlocks 2 (condition_grown (M := M) hr).1.ready rfl)

theorem Quiet.openIfElse (hr : g.Ready) : Quiet g (g.openIfElse M) :=
  (Quiet.emit _ hr).trans (.openBlocks 3 (condition_grown (M := M) hr).1.ready rfl)

theorem Quiet.openBody (hr : g.Ready) : Quiet g (g.openBody M) :=
  (Quiet.emit _ hr).trans (.openBlocks 2 (condition_grown (M := M) hr).1.ready rfl)

theorem Quiet.openLoop (hr : g.Ready) : Quiet g g.openLoop := .openBlocks 1 hr rfl

theorem Quiet.closeBranch (mergeBb next : Nat) (hr : g.Ready) : Quiet g (g.closeBranch mergeBb next) :=
  (Quiet.branchUnlessTerminated mergeBb hr).setInsertPoint

/-- A declaration has no code. -/
theorem Quiet.getFunc (name : String) : Quiet g (g.getFunc name).2 := by
  unfold CodeGenerator.getFunc
  split
  · exact .refl
  · exact ⟨by simp only [and_true]; rfl, id⟩

end CodeGenerator

/-! ## Names and slots -/

/-- A name in scope is in the innermost scope. -/
def OwnName (x : Name) (Γ : Layers Name) : Prop := Layers.Visible x Γ → ∃ l ∈ Γ.head?, x ∈ l

/-- A name of its own is declared in the innermost scope, which changes nothing for the others. -/
theorem ownName_declare {x : Name} {Γ : Layers Name} (hne : Γ ≠ []) :
    OwnName x (Layers.declare x Γ) ↔ OwnName x Γ := by
  by_cases hv : Layers.Visible x Γ
  · rw [Layers.declare_of_visible hv]
  · obtain ⟨l, ls, rfl⟩ := List.exists_cons_of_ne_nil hne
    rw [Layers.declare_cons_of_not_visible hv]
    exact ⟨fun _ h => absurd h hv, fun _ _ => ⟨x :: l, rfl, List.mem_cons_self⟩⟩

namespace CodeGenerator

variable {M : Llvm} {g g1 : CodeGenerator} {x : Name} {a : AllocaInst}

/-- The slot that is found is the current function's if and only if its name is in the innermost scope. -/
theorem Ready.own_iff (hr : g.Ready) (h : g.lookup x = some a) :
    a.func = g.currentFunction ↔ OwnName x g.names.scopes := by
  have hv : Layers.Visible x g.names.scopes := lookup_visible.mp (by rw [h]; rfl)
  obtain ⟨l, ls, hs⟩ := List.exists_cons_of_ne_nil hr.scopes
  have hown := hr.own
  have hforeign := hr.foreign
  have hhead : OwnName x g.names.scopes ↔ x ∈ l.map Prod.fst := by
    have hscopes : g.names.scopes = l.map Prod.fst :: Tables.keys ls := by simp [names, hs]
    rw [hscopes] at hv ⊢
    constructor
    · intro h
      obtain ⟨_, hl, hx⟩ := h hv
      cases hl
      exact hx
    · exact fun h _ => ⟨_, rfl, h⟩
  rw [hhead, ← Tables.list_lookup_isSome]
  unfold lookup at h
  rw [hs] at h hown hforeign
  rw [Tables.lookup] at h
  -- the innermost scope holds slots of the current function only, the others none of them
  cases ho : l.lookup x with
  | some b =>
      rw [ho] at h
      cases h
      obtain ⟨l1, l2, rfl, _⟩ := List.lookup_eq_some_iff.mp ho
      exact ⟨fun _ => rfl, fun _ => hown _ rfl (x, a) (by simp)⟩
  | none =>
      rw [ho] at h
      obtain ⟨l', hl', hp⟩ := Tables.mem_of_lookup h
      exact ⟨fun hf => absurd hf (hforeign l' hl' (x, a) hp), fun hn => by cases hn⟩

/-- A load is in order exactly if the name is the function's own. -/
theorem createLoad_emits (hr : g.Ready) (h : g.lookup x = some a) :
    Emits (OwnName x g.names.scopes) g (g.createLoad a) := by
  have hu := UsesMore.insert (i := .load g.nextId a) hr
  refine ((Emits.of_usesMore hu (.insert g _) ?_).congr ?_).setLast
  · exact fun b hb => by cases List.mem_singleton.mp hb; exact hr.allocates h
  · rw [← hr.own_iff h]
    simp [Instruction.slots]

/-- So is a store. -/
theorem createStore_emits (v : Value) (hr : g.Ready) (h : g.lookup x = some a) :
    Emits (OwnName x g.names.scopes) g (g.createStore v a) := by
  have hu := UsesMore.insert (i := .store v a) hr
  refine (Emits.of_usesMore hu (.insert g _) ?_).congr ?_
  · exact fun b hb => by cases List.mem_singleton.mp hb; exact hr.allocates h
  · rw [← hr.own_iff h]
    simp [Instruction.slots]

/-- Taking a slot emits no use, and the name is own afterwards if it was. -/
theorem slotFor_quiet (x : Name) (ty : Ty) (hr : g.Ready) :
    ∃ a g', g.slotFor x ty = .ok (a, g') ∧ Grown g g' ∧ g'.lookup x = some a ∧
      g'.lastValue = g.lastValue ∧ Quiet g g' ∧
      (OwnName x g'.names.scopes ↔ OwnName x g.names.scopes) := by
  rcases slotFor_cases hr.scopes with ⟨a, hl, h⟩ | ⟨hl, h⟩
  · exact ⟨a, g, h, .refl hr, hl, rfl, .refl, .rfl⟩
  · have hq : Quiet g (g.createEntryAlloca ty) :=
      .of_usesMore (f := 0) (.createEntryAlloca hr) (.createEntryAlloca ty hr)
    refine ⟨_, _, h, .addSlot _ hr hl, Tables.lookup_put_self hr.scopes, rfl, ⟨hq.own, hq.sound⟩, ?_⟩
    rw [addSlot_names hr.scopes hl]
    exact ownName_declare (names_ne_nil.mpr hr.scopes)

end CodeGenerator

/-! ## The uses along the events -/

/-- Using a name works on a slot of the current function. -/
def OwnEvent (Γ : Layers Name) : Event → Prop
  | .read x => OwnName x Γ
  | .slot x => OwnName x Γ
  | .enter _ _ => True
  | .leave => True

/-- Every event up to the first exception is in order. -/
def OwnRun : List Event → NameView → Prop
  | [], _ => True
  | e :: es, v => OwnEvent v.scopes e ∧ ∀ w, v.step e = .ok w → OwnRun es w

instance (x : Name) (Γ : Layers Name) : Decidable (OwnName x Γ) :=
  inferInstanceAs (Decidable (Layers.Visible x Γ → ∃ l ∈ Γ.head?, x ∈ l))

instance (Γ : Layers Name) : ∀ e, Decidable (OwnEvent Γ e)
  | .read x | .slot x => inferInstanceAs (Decidable (OwnName x Γ))
  | .enter _ _ | .leave => inferInstanceAs (Decidable True)

/-- The events are walked through once, with the names in scope. -/
instance decidableOwnRun : ∀ es v, Decidable (OwnRun es v)
  | [], _ => inferInstanceAs (Decidable True)
  | e :: es, v =>
      match h : v.step e with
      | .ok w =>
          have := decidableOwnRun es w
          decidable_of_iff (OwnEvent v.scopes e ∧ OwnRun es w) (by simp [OwnRun, h])
      | .error _ => decidable_of_iff (OwnEvent v.scopes e) (by simp [OwnRun, h])

theorem ownRun_singleton {e : Event} {v : NameView} : OwnRun [e] v ↔ OwnEvent v.scopes e := by
  simp [OwnRun]

/-- A text in two parts: the second one starts with the names the first one leaves. -/
theorem ownRun_append {es fs : List Event} {v : NameView} :
    OwnRun (es ++ fs) v ↔ OwnRun es v ∧ ∀ w, NameView.run es v = .ok w → OwnRun fs w := by
  induction es generalizing v with
  | nil => simp [OwnRun, NameView.run]
  | cons e es ih =>
      rw [List.cons_append, OwnRun, OwnRun, NameView.run]
      cases hs : v.step e with
      | error err => simp [bind, Except.bind]
      | ok u =>
          have hu := ih (v := u)
          simp only [Except.ok.injEq, forall_eq']
          rw [hu, and_assoc]
          rfl

/-- The value is no slot; only `scanf` is handed one. -/
def Value.Plain (v : Value) : Prop := v.slot? = none

namespace CodeGenerator

variable {M : Llvm} {g g' g1 : CodeGenerator} {x : Name} {a : AllocaInst} {P : Prop}
  {r : Except Thrown CodeGenerator} {es fs : List Event}

/-- The result of an opcode is no slot. -/
theorem createBinOp_plain (opcode : Opcode) (args : List Value) : (Emit.call opcode args).Yields Value.Plain :=
  .call (fun _ => rfl) (fun _ _ => rfl)

/-- Neither is a widened bit. -/
theorem createZExt_plain {v : Value} (hv : v.Plain) : (createZExt v).Yields Value.Plain := by
  unfold createZExt
  split
  · exact hv
  · exact createBinOp_plain _ _

theorem lowerCompare_plain (p : Predicate) (l r : Value) : (lowerCompare p l r).Yields Value.Plain :=
  .bind (createBinOp_plain _ _) (fun _ => createZExt_plain)

theorem lowerLogical_plain (opcode : Opcode) (l r : Value) :
    (lowerLogical opcode l r).Yields Value.Plain :=
  .bind (createBinOp_plain _ _) (fun _ _ => .bind (createBinOp_plain _ _)
    (fun _ _ => .bind (createBinOp_plain _ _) (fun _ => createZExt_plain)))

/-- **No operator hands a slot on**, whichever way it is lowered. -/
theorem lowerBinary_plain (op : BinaryOperators) (l r : Value) :
    (lowerBinary op l r).Yields Value.Plain := by
  cases op with
  | eq | neq | less | lessEq | greater => exact lowerCompare_plain _ l r
  | greaterEq => exact .bind (lowerCompare_plain .sge l r) (fun _ _ => createBinOp_plain _ _)
  | logOr | logAnd => exact lowerLogical_plain _ l r
  | add | sub | mul | div | remDiv | and | xor | or => exact createBinOp_plain _ _

/-- The unary plus hands on its operand. -/
theorem lowerUnary_plain (op : UnaryOperators) {v : Value} (hv : v.Plain) :
    (lowerUnary op v).Yields Value.Plain := by
  cases op with
  | neg => exact createBinOp_plain _ _
  | plus => exact hv
  | not => exact .bind (createBinOp_plain _ _) (fun _ => createZExt_plain)

/-- What has been emitted, finished or not, is in order exactly if the events are. A result in `R` ends in
    the state `state`. -/
def FollowsTo {β : Type} (state : β → CodeGenerator) (R : β → Prop) (es : List Event) (g : CodeGenerator)
    (r : Except Thrown β) : Prop :=
  Ensures r (fun b => R b ∧ Emits (OwnRun es g.names) g (state b))
    (fun t => Emits (OwnRun es g.names) g t.state)

/-- A visitor follows its events. -/
abbrev Follows (es : List Event) (g : CodeGenerator) (r : Except Thrown CodeGenerator) : Prop :=
  FollowsTo id (fun g' => g'.lastValue.Plain) es g r

/-- One part of a visitor after another; what the first one reaches may be used for the second. -/
theorem FollowsTo.append {β : Type} {state : β → CodeGenerator} {R : β → Prop} {C : CodeGenerator → Prop}
    {k : CodeGenerator → Except Thrown β} (hn : namesOf r = NameView.run es g.names)
    (hC : ∀ g1, r = .ok g1 → C g1) (h1 : Follows es g r)
    (h2 : ∀ g1, C g1 → g1.lastValue.Plain → FollowsTo state R fs g1 (k g1)) :
    FollowsTo state R (es ++ fs) g (r >>= k) := by
  cases r with
  | error t =>
      refine Emits.congr (Ensures.of_error h1 rfl) ?_
      have hrun : ∀ w, NameView.run es g.names ≠ .ok w := fun w hw => by
        rw [← hn] at hw
        cases hw
      rw [ownRun_append]
      exact ⟨fun h => ⟨h, fun w hw => absurd hw (hrun w)⟩, And.left⟩
  | ok g1 =>
      obtain ⟨hp, he⟩ := Ensures.of_ok h1 rfl
      have hrun : NameView.run es g.names = .ok g1.names := hn.symm
      have hiff : OwnRun es g.names ∧ OwnRun fs g1.names ↔ OwnRun (es ++ fs) g.names := by
        rw [ownRun_append, hrun]
        simp
      exact (h2 g1 (hC g1 rfl) hp).weaken (fun g2 h => ⟨h.1, (he.trans h.2).congr hiff⟩)
        (fun t h => (he.trans h).congr hiff)

/-- Quiet code before the visit. -/
theorem FollowsTo.before (hq : Quiet g g1) (hn : g1.names = g.names) (h : Follows es g1 r) :
    Follows es g r := by
  have hiff : True ∧ OwnRun es g1.names ↔ OwnRun es g.names := by rw [true_and, hn]
  exact Ensures.weaken h (fun g2 h => ⟨h.1, (Emits.trans hq h.2).congr hiff⟩)
    (fun t h => (Emits.trans hq h).congr hiff)

/-- Quiet code after the visit. -/
theorem FollowsTo.after {k : CodeGenerator → CodeGenerator} (hg : Grows g r) (h : Follows es g r)
    (hk : ∀ g1, g1.Ready → g1.lastValue.Plain → (k g1).lastValue.Plain ∧ Quiet g1 (k g1)) :
    Follows es g (r >>= fun g1 => .ok (k g1)) := by
  refine Ensures.bind (Ensures.and hg h |>.weaken (fun _ => id) (fun _ h => h.2)) (fun g1 h1 => ?_)
  obtain ⟨hp, hq⟩ := hk g1 h1.1.ready h1.2.1
  exact .ok ⟨hp, (h1.2.2.trans hq).congr (by simp)⟩

/-- A part without events works on no slot. -/
theorem FollowsTo.quiet (h : Quiet g g') (hp : g'.lastValue.Plain) : Follows [] g (.ok g') :=
  .ok ⟨hp, h.congr (by simp [OwnRun])⟩

/-! ### The pieces -/

/-- A variable that is loaded uses its slot; one that names a function uses none. -/
theorem visitVariable_follows (x : Name) (hr : g.Ready) : Follows [.read x] g (g.visitVariable x) := by
  unfold visitVariable
  cases hl : g.lookup x with
  | some a =>
      exact .ok ⟨rfl, (createLoad_emits hr hl).congr (ownRun_singleton (e := .read x)).symm⟩
  | none =>
      have hown : True ↔ OwnRun [.read x] g.names := by
        rw [ownRun_singleton, true_iff]
        intro hv
        rw [← lookup_visible, hl] at hv
        cases hv
      cases g.functionTable x with
      | some f => exact .ok ⟨rfl, Emits.congr (Quiet.refl.setLast) hown⟩
      | none => exact .error (Emits.congr Quiet.refl hown)

/-- An assignment stores to the slot of its name, found or new. -/
theorem assign_follows (x : Name) (hr : g.Ready) (hp : g.lastValue.Plain) :
    Follows [.slot x] g (g.assign x) := by
  obtain ⟨a, g1, h, hg, hl, hlast, hq, hown⟩ := slotFor_quiet x g.lastValue.ty hr
  rw [assign, h]
  have he := Emits.trans hq (createStore_emits g.lastValue hg.ready hl)
  exact .ok ⟨hlast.symm ▸ hp, he.congr (by rw [ownRun_singleton, true_and, hown]; rfl)⟩

/-- `scanf` is handed the slot it writes to. -/
theorem createCall_slot_emits (arity : Nat) (callee : Value) (c : Constant) (hr : g.Ready)
    (h : g.lookup x = some a) :
    Emits (OwnName x g.names.scopes) g (g.createCall arity callee [.const c, .slot a]) := by
  have hslots : Instruction.slots (.call g.nextId arity callee [.const c, .slot a]) = [a] := rfl
  have hu := UsesMore.insert (i := .call g.nextId arity callee [.const c, .slot a]) hr
  rw [hslots] at hu
  refine ((Emits.of_usesMore hu (.insert g _) ?_).congr ?_).setLast
  · exact fun b hb => by cases List.mem_singleton.mp hb; exact hr.allocates h
  · rw [← hr.own_iff h]
    simp

/-- Any other call is handed values only. -/
theorem createCall_quiet {arity : Nat} {callee : Value} {args : List Value} (hr : g.Ready)
    (h : ∀ v ∈ args, v.Plain) : Quiet g (g.createCall arity callee args) := by
  have hslots : Instruction.slots (.call g.nextId arity callee args) = [] :=
    List.filterMap_eq_nil_iff.mpr h
  exact (Quiet.insert hr hslots).setLast

/-- An input uses the slot of `__input_var`, to write and to read it. -/
theorem visitInput_follows (hr : g.Ready) : Follows [.slot inputVar] g g.visitInput := by
  obtain ⟨a, g1, h, hg, hl, _, hq, hown⟩ := slotFor_quiet inputVar .i32 hr
  have hg2 := Grown.getFunc "scanf" hg.ready
  have hl2 : (g1.getFunc "scanf").2.lookup inputVar = some a := by
    unfold getFunc
    split <;> exact hl
  have hn2 := getFunc_names "scanf" g1
  have h3 := createCall_grown 2 (.const (.func (g1.getFunc "scanf").1)) [.const (.str "%d"), .slot a] hg2.ready
  have he2 := Emits.trans hq (Quiet.getFunc (g := g1) "scanf")
  have he3 := Emits.trans he2 (createCall_slot_emits 2
    (.const (.func (g1.getFunc "scanf").1)) (.str "%d") hg2.ready hl2)
  have he4 := Emits.trans he3 (createLoad_emits h3.ready hl2)
  rw [visitInput, h]
  refine .ok ⟨rfl, he4.congr ?_⟩
  rw [ownRun_singleton, OwnEvent, ← hown, ← hn2]
  simp only [true_and]
  exact and_self_iff

/-- `printf` is handed the last value. -/
theorem print_quiet (hr : g.Ready) (hp : g.lastValue.Plain) : Quiet g g.print := by
  have hg := Grown.getFunc "printf" hr
  refine (Quiet.getFunc "printf").trans (createCall_quiet hg.ready ?_)
  simp [Value.Plain, Value.slot?] at hp ⊢
  exact hp

/-- A parameter's store goes to a slot that has just been made in the same function. -/
theorem storeParam_quiet (f k : Nat) (hr : g.Ready) : Quiet g (g.storeParam f k) := by
  have h1 : Grown g (g.createAlloca .i32) := .insert hr rfl
  have hq : Quiet g (g.createAlloca .i32) := .insert hr rfl
  refine hq.trans ?_
  have hu := UsesMore.insert (i := .store (.arg f k) (g.newSlot .i32)) h1.ready
  refine (Emits.of_usesMore hu (.insert _ _) ?_).congr ?_
  · intro b hb
    cases List.mem_singleton.mp hb
    exact ⟨g.insertBlock, hr.insertLt, insert_parent _, mem_insert_instrs.mpr (.inr ⟨rfl, rfl⟩)⟩
  · simp [Instruction.slots, newSlot, h1.frame.current, hr.parent]

/-- Parameters are in order also where one of them clashes. -/
theorem bindParams_quiet (f : Nat) (ps : List Name) (k : Nat) (hr : g.Ready) :
    Ensures (bindParams f ps k g) (fun g' => g'.lastValue = g.lastValue ∧ Quiet g g')
      (fun t => Quiet g t.state) := by
  induction ps generalizing g k with
  | nil => exact .ok ⟨rfl, .refl⟩
  | cons x ps ih =>
      have hq := storeParam_quiet f k hr
      cases hl : g.lookup x with
      | some a =>
          rw [bindParams_clash hr.scopes (by rw [hl]; rfl)]
          exact .error hq
      | none =>
          rw [bindParams_cons hr.scopes hl]
          have hq' : Quiet g (g.addParam f k x) := ⟨hq.own, hq.sound⟩
          have h := Grown.addParam (f := f) (k := k) hr hl
          exact (ih (k + 1) h.ready).weaken (fun _ h2 => ⟨h2.1, hq'.trans h2.2⟩) (fun _ h2 => hq'.trans h2)

/-- Entering a function makes its own slots only. -/
theorem enterFunction_follows (name : Option Name) (ps : List Name) (hr : g.Ready)
    (hp : g.lastValue.Plain) : Follows [.enter name ps] g (g.enterFunction M name ps) := by
  have ho := openFunction_opened (M := M) name ps.length g
  have hlast : (g.openFunction M name ps.length).lastValue = g.lastValue := by cases name <;> rfl
  have hq : Quiet g (g.openFunction M name ps.length) := by
    have hu : UsesMore g (g.createBlock g.functions.length) 0 [] :=
      .of_blocks 0 (Nat.le_succ _) (fun b hb => createBlock_blocks hb) (fun b hge hlt => by
        cases Nat.le_antisymm hge (Nat.le_of_lt_succ hlt)
        rw [createBlock_new]
        rfl)
    have hc : Quiet g (g.createBlock g.functions.length) := .of_usesMore hu (.createBlock hr _)
    cases name <;> exact ⟨hc.own, hc.sound⟩
  have hown : True ∧ True ↔ OwnRun [.enter name ps] g.names := by simp [ownRun_singleton, OwnEvent]
  refine (bindParams_quiet g.functions.length ps 0 (ho.ready hr)).weaken
    (fun g' h => ⟨?_, (Emits.trans hq h.2).congr hown⟩) (fun t h => (Emits.trans hq h).congr hown)
  have hlast' : g'.lastValue = g.lastValue := h.1.trans hlast
  show g'.lastValue.Plain
  rw [hlast']
  exact hp

/-- Leaving it returns a value. -/
theorem leaveFunction_follows {saved : CodeGenerator} (hr : g.Ready) :
    Follows [.leave] g (leaveFunction saved g) := by
  have hq := Quiet.returnUnlessTerminated g.lastValue hr
  rw [leaveFunction_ok hr.scopes]
  exact .ok ⟨rfl, Emits.congr ⟨hq.own, hq.sound⟩ (by simp [ownRun_singleton, OwnEvent])⟩

theorem closeBranch_quiet (mergeBb next : Nat) (hr : g.Ready) (hp : g.lastValue.Plain) :
    (g.closeBranch mergeBb next).lastValue.Plain ∧ Quiet g (g.closeBranch mergeBb next) := by
  have hlast : (g.closeBranch mergeBb next).lastValue = g.lastValue := by
    unfold closeBranch branchUnlessTerminated
    split <;> rfl
  exact ⟨hlast.symm ▸ hp, .closeBranch mergeBb next hr⟩

theorem ready_of_grows (h : Grows g r) {g1 : CodeGenerator} (h1 : r = .ok g1) : g1.Ready :=
  (h.of_ok h1).ready

/-! ### The visitors -/

mutual

/-- **Uses follow events.** -/
theorem visit_follows : ∀ (e : Expression) {g : CodeGenerator}, g.Ready → g.lastValue.Plain →
    Follows e.events g (visit M .source e g)
  | .number _, g, _, _ => .quiet Quiet.refl.setLast rfl
  | .var x, g, hr, _ => visitVariable_follows x hr
  | .assignmentExpr x e, g, hr, hp =>
      .append (visit_names e (names_ne_nil.mpr hr.scopes)) (fun _ => ready_of_grows (visit_grows e hr))
        (visit_follows e hr hp) (fun _ h1 hp1 => assign_follows x h1 hp1)
  | .binaryOperator op a b, g, hr, hp =>
      .append (visit_names a (names_ne_nil.mpr hr.scopes)) (fun _ => ready_of_grows (visit_grows a hr))
        (visit_follows a hr hp) (fun g1 h1 hp1 =>
          .after (visit_grows b h1) (visit_follows b h1 hp1) (fun g2 h2 _ =>
            ⟨emit_yields M (lowerBinary_plain op _ _) g2, (Quiet.emit _ h2).setLast⟩))
  | .unaryOperator op e, g, hr, hp =>
      .after (visit_grows e hr) (visit_follows e hr hp) (fun g1 h1 hp1 =>
        ⟨emit_yields M (lowerUnary_plain op hp1) g1, (Quiet.emit _ h1).setLast⟩)
  | .input, g, hr, _ => visitInput_follows hr
  | .blockExpr ss, g, hr, hp => visitStmts_follows ss hr hp
  | .func f ps body, g, hr, hp => by
      have ho := openFunction_opened (M := M) f ps.length g
      -- the parameters are stored first, then the body uses what it reads
      have henter : ∀ g1, g.enterFunction M f ps = .ok g1 → g1.Ready :=
        fun g1 h1 => (Ensures.of_ok (bindParams_grows (ho.ready hr)) h1).ready
      have hfollows := enterFunction_follows (M := M) f ps hr hp
      refine FollowsTo.append ?_ henter hfollows (fun g1 h1 hp1 => ?_)
      · rw [NameView.run_singleton]
        exact enterFunction_names f ps g
      · exact .append (visit_names body (names_ne_nil.mpr h1.scopes))
          (fun _ => ready_of_grows (visit_grows body h1)) (visit_follows body h1 hp1)
          (fun g2 h2 _ => leaveFunction_follows h2)
  | .call t es, g, hr, hp => by
      refine .append (visit_names t (names_ne_nil.mpr hr.scopes))
        (fun _ => ready_of_grows (visit_grows t hr)) (visit_follows t hr hp) (fun g1 h1 hp1 => ?_)
      have hargs := (visitArgs_grows es h1).and (visitArgs_follows es h1 hp1)
      refine (hargs.weaken (fun _ => id) (fun _ h => h.2)).bind (fun r h => ?_)
      exact .ok ⟨rfl, (h.2.2.trans (createCall_quiet h.1.ready h.2.1)).congr (by simp)⟩

/-- So does a statement. -/
theorem visitStmt_follows : ∀ (s : Statement) {g : CodeGenerator}, g.Ready → g.lastValue.Plain →
    Follows s.events g (visitStmt M .source s g)
  | .emptyStmt, g, _, hp => .quiet .refl hp
  | .exprStmt e, g, hr, hp => visit_follows e hr hp
  | .ifStmt c t none, g, hr, hp => by
      refine .append (visit_names c (names_ne_nil.mpr hr.scopes))
        (fun _ => ready_of_grows (visit_grows c hr)) (visit_follows c hr hp) (fun g1 h1 hp1 => ?_)
      have ho := openIf_opens (M := M) h1
      refine .before (.openIf (M := M) h1) (openIf_names g1) ?_
      exact .after (visit_grows t ho.ready) (visit_follows t ho.ready rfl)
        (fun g2 h2 hp2 => closeBranch_quiet _ _ h2 hp2)
  | .ifStmt c t (some e), g, hr, hp => by
      refine .append (visit_names c (names_ne_nil.mpr hr.scopes))
        (fun _ => ready_of_grows (visit_grows c hr)) (visit_follows c hr hp) (fun g1 h1 hp1 => ?_)
      have ho := openIfElse_opens (M := M) h1
      refine .before (.openIfElse (M := M) h1) (openIfElse_names g1) ?_
      refine .append (visit_names t (names_ne_nil.mpr ho.ready.scopes))
        (fun _ h2 => (visit_grows t ho.ready).of_ok h2) (visit_follows t ho.ready rfl) (fun g2 h2 hp2 => ?_)
      obtain ⟨hp3, hq3⟩ := closeBranch_quiet (g1.blockCount + 2) (g1.blockCount + 1) h2.ready hp2
      have h3 : (g2.closeBranch (g1.blockCount + 2) (g1.blockCount + 1)).Ready :=
        (Grown.goOn h1 ho (h2.trans ho.ready (branchUnlessTerminated_grown h2.ready _))
          (by omega) (by omega)).ready
      -- the jump at the end of the `then` part uses no slot
      refine .before hq3 (closeBranch_names _ _ g2) ?_
      exact .after (visit_grows e h3) (visit_follows e h3 hp3)
        (fun g4 h4 hp4 => closeBranch_quiet _ _ h4 hp4)
  | .whileStmt c b, g, hr, hp => by
      have hl := openLoop_opens hr
      refine .before (.openLoop hr) rfl ?_
      refine .append (visit_names c (names_ne_nil.mpr hl.ready.scopes))
        (fun _ => ready_of_grows (visit_grows c hl.ready)) (visit_follows c hl.ready rfl) (fun g1 h1 _ => ?_)
      have ho := openBody_opens (M := M) h1
      refine .before (.openBody (M := M) h1) (openBody_names g1) ?_
      exact .after (visit_grows b ho.ready) (visit_follows b ho.ready rfl)
        (fun g2 h2 _ => ⟨rfl, (Quiet.insert (i := .br g.blockCount) h2 rfl).setLast.setInsertPoint⟩)
  | .printStmt e, g, hr, hp =>
      .after (visit_grows e hr) (visit_follows e hr hp) (fun g1 h1 hp1 => ⟨rfl, print_quiet h1 hp1⟩)
  | .returnStmt none, g, hr, hp => .quiet (.insert hr rfl) hp
  | .returnStmt (some e), g, hr, hp =>
      .after (visit_grows e hr) (visit_follows e hr hp) (fun g1 h1 hp1 => ⟨hp1, .insert h1 rfl⟩)

theorem visitStmts_follows : ∀ (ss : List Statement) {g : CodeGenerator}, g.Ready → g.lastValue.Plain →
    Follows (eventsOfStmts ss) g (visitStmts M .source ss g)
  | [], _, _, hp => .quiet .refl hp
  | s :: ss, _, hr, hp =>
      .append (visitStmt_names s (names_ne_nil.mpr hr.scopes))
        (fun _ => ready_of_grows (visitStmt_grows s hr)) (visitStmt_follows s hr hp)
        (fun _ h1 hp1 => visitStmts_follows ss h1 hp1)

/-- Arguments are values, and no slots. -/
theorem visitArgs_follows : ∀ (es : List Expression) {g : CodeGenerator}, g.Ready → g.lastValue.Plain →
    FollowsTo Prod.snd (fun r => ∀ v ∈ r.1, v.Plain) (eventsOfArgs es) g (visitArgs M .source es g)
  | [], g, _, _ => .ok ⟨by simp, Quiet.refl.congr (by simp [eventsOfArgs, OwnRun])⟩
  | e :: es, g, hr, hp => by
      refine .append (visit_names e (names_ne_nil.mpr hr.scopes))
        (fun _ => ready_of_grows (visit_grows e hr)) (visit_follows e hr hp) (fun g1 h1 hp1 => ?_)
      refine (visitArgs_follows es h1 hp1).bind (fun r h => ?_)
      exact .ok ⟨List.forall_mem_cons.mpr ⟨hp1, h.1⟩, h.2⟩

end

/-- Where the generator stops: the state it returns, or the one an exception leaves behind. -/
def finalState : Except Thrown CodeGenerator → CodeGenerator
  | .ok g => g
  | .error t => t.state

/-- What a program compiles to, up to an exception, is in order exactly if its events are. -/
theorem visitProgram_follows (p : Program) :
    Follows p.events (enterMain M) (visitProgram M .source p) := by
  have hp : (enterMain M).lastValue.Plain := rfl
  refine .after (visitStmts_grows p.stmts enterMain_ready)
    (visitStmts_follows p.stmts enterMain_ready hp) (fun g1 h1 hp1 => ?_)
  have hlast (v : Value) : (g1.returnUnlessTerminated v).lastValue = g1.lastValue := by
    unfold returnUnlessTerminated
    split <;> rfl
  exact ⟨(hlast _).symm ▸ hp1, .returnUnlessTerminated _ h1⟩

/-- The empty `main` uses no slot. -/
theorem enterMain_uses {f : Nat} {a : AllocaInst} : ¬ (enterMain M).Uses f a := by
  rintro ⟨b, hb, _, i, hi, _⟩
  cases Nat.lt_one_iff.mp hb
  cases hi

/-- The code of a program is in order exactly if its events are. -/
theorem visitProgram_ownRun (p : Program) :
    (finalState (visitProgram M .source p)).UsesOwnSlots ↔ OwnRun p.events .init := by
  have hown : (enterMain M).Own := fun f a hu => absurd hu enterMain_uses
  have hsound : (enterMain M).Sound := fun f a hu => absurd hu enterMain_uses
  have hf := visitProgram_follows (M := M) p
  have hg := visitProgram_grows (M := M) (L := .source) p
  have hcases (g : CodeGenerator) (hp : g.Placed) (he : Emits (OwnRun p.events .init) (enterMain M) g) :
      g.UsesOwnSlots ↔ OwnRun p.events .init := by
    rw [usesOwnSlots_iff hp (he.sound hsound), he.own]
    simp [hown]
  cases hv : visitProgram M .source p with
  | ok g => exact hcases g (hg.of_ok hv).ready.toPlaced (hf.of_ok hv).2
  | error t => exact hcases t.state (hg.of_error hv) (hf.of_error hv)

end CodeGenerator

/-! ## When the slots are own slots -/

/-- Whatever name is used, up to the first parameter that clashes: if a slot for it is in scope, then it is
    one of the function the use is in. -/
def OwnEvents (es : List Event) : Prop :=
  ∀ a e b, es = a ++ e :: b → ParamsFresh a → OwnEvent (live a) e

/-- The run, event by event. -/
theorem ownRun_iff {es : List Event} {v : NameView} :
    OwnRun es v ↔ ∀ a e b u, es = a ++ e :: b → NameView.run a v = .ok u → OwnEvent u.scopes e := by
  induction es generalizing v with
  | nil => simp [OwnRun]
  | cons e es ih =>
      rw [OwnRun]
      constructor
      · rintro ⟨he, hrest⟩ a e' b u heq hr
        cases a with
        | nil =>
            injection heq with h1 h2
            cases hr
            exact h1 ▸ he
        | cons e1 a =>
            injection heq with h1 h2
            subst h1
            obtain ⟨w, hw, hr⟩ := bind_ok_iff.mp hr
            exact ih.mp (hrest w hw) a e' b u h2 hr
      · intro h
        refine ⟨h [] e es v rfl rfl, fun w hw => ih.mpr (fun a e' b u heq hr => ?_)⟩
        exact h (e :: a) e' b u (by rw [heq]; rfl) (bind_ok_iff.mpr ⟨w, hw, hr⟩)

/-- On an accepted program every stretch from the start resolves. -/
theorem stretch_resolved {p : Program} (hp : Accepted p) {a b : List Event} (h : p.events = a ++ b) :
    Ensures (NameView.run a .init) (fun _ => True) NotUndeclared := by
  have hr := program_resolved hp
  rw [h, NameView.run_append] at hr
  cases ha : NameView.run a .init with
  | ok u => exact trivial
  | error e =>
      rw [ha] at hr
      exact hr

/-- For an accepted text the scopes of the generator are those of the text. -/
theorem ownEvents_iff {p : Program} (hp : Accepted p) : OwnRun p.events .init ↔ OwnEvents p.events := by
  rw [ownRun_iff]
  constructor
  · intro h a e b heq hfresh
    obtain ⟨u, hu⟩ := (run_ok_iff (stretch_resolved hp heq)).mpr hfresh
    have hlive : u.scopes = live a := NameView.run_scopes hu
    exact hlive ▸ h a e b u heq hu
  · intro h a e b u heq hu
    have hlive : u.scopes = live a := NameView.run_scopes hu
    exact hlive.symm ▸ h a e b heq ((run_ok_iff (stretch_resolved hp heq)).mp ⟨u, hu⟩)

section OwnSlots

variable {M : Llvm}

/-- **When the slots are own slots.** On an accepted program no load, store or `scanf` call works on another
    function's slot exactly if no name is used in a function while an outer one has the slot for it. -/
theorem own_slots_iff {p : Program} (hp : Accepted p) :
    (CodeGenerator.finalState (CodeGenerator.visitProgram M .source p)).UsesOwnSlots ↔
      OwnEvents p.events := by
  rw [CodeGenerator.visitProgram_ownRun, ownEvents_iff hp]

/-- A function that reads its parameter and its own name only. -/
theorem own_slots_iff_factorial :
    (CodeGenerator.finalState (CodeGenerator.visitProgram .standard .source factorial)).UsesOwnSlots := by
  have hp : Accepted factorial := by decide
  have hown : OwnEvents factorial.events := (ownEvents_iff hp).mp (by decide)
  exact (own_slots_iff hp).mpr hown

/-- `x = 5; f = func() { x; };` -/
def outerVariable : Program where
  stmts := [
    .exprStmt (.assignmentExpr "x" (.number 5)),
    .exprStmt (.assignmentExpr "f" (.func none [] (.blockExpr [.exprStmt (.var "x")])))]

/-- A function that reads a variable of `main` loads from `main`'s slot. -/
theorem own_slots_outerVariable : ¬ ∀ p, Accepted p →
    (CodeGenerator.finalState (CodeGenerator.visitProgram .standard .source p)).UsesOwnSlots := by
  intro h
  have hown := h outerVariable (by decide)
  rw [CodeGenerator.visitProgram_ownRun, ownRun_iff] at hown
  have hread := hown [.slot "x", .enter none []] (.read "x") [.leave, .slot "f"] _ rfl rfl
  obtain ⟨l, hl, hx⟩ := hread ⟨["x"], by decide, by decide⟩
  cases hl
  cases hx

end OwnSlots

end ParaCL
