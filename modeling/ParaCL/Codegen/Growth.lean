import ParaCL.Codegen.Generator
import ParaCL.Lib.Ensures

/-!
# `Codegen.Growth` — what a visitor leaves alone

A visitor appends to the insertion block, makes new blocks, and hoists slots into the entry block of the
current function; whatever else was there before it is unchanged (`Frame`). In the end the insertion point
is where it was or in a new block, always of the current function, and every slot in scope is allocated in
the function it is recorded for (`Ready`). Every later result about the generated code stands on this frame.
-/

namespace ParaCL

open Lib

namespace CodeGenerator

/-- The slots in scope, innermost scope first. -/
def slots (g : CodeGenerator) : List AllocaInst := g.scopeStack.flatten.map Prod.snd

/-- What holds of the blocks alone: they belong to functions of the module, only an entry block has hoisted
    instructions, these are allocations, and a slot is allocated in the function it is recorded for. -/
structure Placed (g : CodeGenerator) : Prop where
  parents : ∀ b < g.blockCount, (g.blocks b).parent < g.functions.length
  hoisted : ∀ b < g.blockCount, (g.blocks b).hoisted ≠ [] → g.entryBlock (g.blocks b).parent = some b
  onlyAllocas : ∀ b < g.blockCount, ∀ i ∈ (g.blocks b).hoisted, ∃ a, i = .alloca a
  allocas : ∀ b < g.blockCount, ∀ a, .alloca a ∈ (g.blocks b).instrs → a.func = (g.blocks b).parent

/-- The state between two visits. The innermost scope holds the slots of the current function, the others
    those of the functions around it. -/
structure Ready (g : CodeGenerator) : Prop extends Placed g where
  insertLt : g.insertBlock < g.blockCount
  parent : g.block.parent = g.currentFunction
  scopes : g.scopeStack ≠ []
  fresh : ∀ a ∈ g.slots, a.id < g.nextId
  distinct : (g.slots.map AllocaInst.id).Nodup
  allocated : ∀ a ∈ g.slots, ∃ b < g.blockCount, .alloca a ∈ (g.blocks b).instrs
  own : ∀ l ∈ g.scopeStack.head?, ∀ p ∈ l, p.2.func = g.currentFunction
  foreign : ∀ l ∈ g.scopeStack.tail, ∀ p ∈ l, p.2.func ≠ g.currentFunction

/-- From `g` to `g'` the code has only grown, at the places where a visitor may add to it. -/
structure Frame (g g' : CodeGenerator) : Prop where
  count : g.blockCount ≤ g'.blockCount
  ids : g.nextId ≤ g'.nextId
  functions : g.functions <+: g'.functions
  parent : ∀ b < g.blockCount, (g'.blocks b).parent = (g.blocks b).parent
  body : (g.blocks g.insertBlock).body <+: (g'.blocks g.insertBlock).body
  others : ∀ b < g.blockCount, b ≠ g.insertBlock → (g'.blocks b).body = (g.blocks b).body
  hoists : ∀ b < g.blockCount, (g.blocks b).hoisted <:+ (g'.blocks b).hoisted
  insertBlock : g'.insertBlock = g.insertBlock ∨ g.blockCount ≤ g'.insertBlock
  current : g'.currentFunction = g.currentFunction
  scopeTail : g'.scopeStack.tail = g.scopeStack.tail
  lookup : ∀ x a, g.lookup x = some a → g'.lookup x = some a

/-- What a visitor does to a state that is ready. -/
structure Grown (g g' : CodeGenerator) : Prop where
  ready : g'.Ready
  frame : Frame g g'

variable {M : Llvm} {L : Lowering} {g g' g1 g2 : CodeGenerator} {i : Instruction} {v : Value}

/-! ## Entry blocks -/

/-- The entry block of a function is one of its blocks. -/
theorem entryBlock_some {f e : Nat} (h : g.entryBlock f = some e) :
    e < g.blockCount ∧ (g.blocks e).parent = f := by
  have hp := List.find?_some h
  have hm := List.mem_of_find?_eq_some h
  exact ⟨List.mem_range.mp hm, by simpa using hp⟩

/-- A function with a block has an entry block. -/
theorem exists_entryBlock {f b : Nat} (hb : b < g.blockCount) (hf : (g.blocks b).parent = f) :
    ∃ e, g.entryBlock f = some e := by
  refine Option.isSome_iff_exists.mp (List.find?_isSome.mpr ⟨b, List.mem_range.mpr hb, ?_⟩)
  simpa using hf

/-- The entry block is the first one, so later blocks do not change it. -/
theorem entryBlock_of_parents {f e : Nat} (h : g.entryBlock f = some e)
    (hc : g.blockCount ≤ g'.blockCount)
    (hp : ∀ b < g.blockCount, (g'.blocks b).parent = (g.blocks b).parent) :
    g'.entryBlock f = some e := by
  rw [entryBlock, List.find?_range_eq_some] at h ⊢
  obtain ⟨h1, h2, h3⟩ := h
  have he := List.mem_range.mp h2
  refine ⟨?_, List.mem_range.mpr (by omega), fun b hlt => ?_⟩
  · rw [hp e he]; exact h1
  · rw [hp b (by omega)]; exact h3 b hlt

/-! ## Frames compose -/

theorem Frame.refl (g : CodeGenerator) : Frame g g where
  count := Nat.le_refl _
  ids := Nat.le_refl _
  functions := List.prefix_refl _
  parent _ _ := rfl
  body := List.prefix_refl _
  others _ _ _ := rfl
  hoists _ _ := List.suffix_refl _
  insertBlock := .inl rfl
  current := rfl
  scopeTail := rfl
  lookup _ _ h := h

/-- Blocks are appended, so the first block of a function stays the first. -/
theorem Frame.entryBlock (h : Frame g g') {f e : Nat} (he : g.entryBlock f = some e) :
    g'.entryBlock f = some e := entryBlock_of_parents he h.count h.parent

/-- No block loses instructions. -/
theorem Frame.grow (h : Frame g g') {b : Nat} (hb : b < g.blockCount) :
    (g.blocks b).body <+: (g'.blocks b).body := by
  by_cases hi : b = g.insertBlock
  · subst hi
    exact h.body
  · exact ⟨[], by rw [List.append_nil, h.others b hb hi]⟩

/-- An instruction that is there stays there. -/
theorem Frame.mem_instrs (h : Frame g g') {b : Nat} (hb : b < g.blockCount)
    (hi : i ∈ (g.blocks b).instrs) : i ∈ (g'.blocks b).instrs := by
  rcases List.mem_append.mp hi with hi | hi
  · exact List.mem_append_left _ ((h.hoists b hb).subset hi)
  · exact List.mem_append_right _ ((h.grow hb).subset hi)

/-- Two frames make one: the second insertion point is the first or a block that is new to both. -/
theorem Frame.trans (hr : g.Ready) (h1 : Frame g g1) (h2 : Frame g1 g2) : Frame g g2 where
  count := Nat.le_trans h1.count h2.count
  ids := Nat.le_trans h1.ids h2.ids
  functions := List.IsPrefix.trans h1.functions h2.functions
  parent b hb := by rw [h2.parent b (by have := h1.count; omega), h1.parent b hb]
  body := h1.body.trans (h2.grow (by have := h1.count; have := hr.insertLt; omega))
  others b hb hne := by
    have hb1 : b < g1.blockCount := by have := h1.count; omega
    have hne1 : b ≠ g1.insertBlock := by
      rcases h1.insertBlock with he | he
      · rw [he]; exact hne
      · omega
    rw [h2.others b hb1 hne1, h1.others b hb hne]
  hoists b hb := (h1.hoists b hb).trans (h2.hoists b (by have := h1.count; omega))
  insertBlock := by
    rcases h2.insertBlock with he | he
    · rw [he]; exact h1.insertBlock
    · exact .inr (Nat.le_trans h1.count he)
  current := h2.current.trans h1.current
  scopeTail := h2.scopeTail.trans h1.scopeTail
  lookup x a hx := h2.lookup x a (h1.lookup x a hx)

theorem Grown.refl (hr : g.Ready) : Grown g g := ⟨hr, .refl g⟩

/-- Visits one after the other. -/
theorem Grown.trans (hr : g.Ready) (h1 : Grown g g1) (h2 : Grown g1 g2) : Grown g g2 :=
  ⟨h2.ready, h1.frame.trans hr h2.frame⟩

/-- `last_value_` is no part of the code. -/
theorem Ready.setLast (hr : g.Ready) : (g.setLast v).Ready := { hr with }

theorem Frame.setLast (h : Frame g g') : Frame g (g'.setLast v) := { h with }

theorem Grown.setLast (h : Grown g g') : Grown g (g'.setLast v) := ⟨h.ready.setLast, h.frame.setLast⟩

/-! ## Appending an instruction -/

/-- An instruction leaves every block in its function. -/
@[simp] theorem insert_parent (b : Nat) : ((g.insert i).blocks b).parent = (g.blocks b).parent := by
  by_cases hb : b = g.insertBlock
  · subst hb
    simp [insert, block]
  · simp [insert, hb]

/-- Only slots are hoisted. -/
@[simp] theorem insert_hoisted (b : Nat) : ((g.insert i).blocks b).hoisted = (g.blocks b).hoisted := by
  by_cases hb : b = g.insertBlock
  · subst hb
    simp [insert, block]
  · simp [insert, hb]

/-- The instruction is the last one of the insertion block. -/
theorem insert_body : ((g.insert i).blocks g.insertBlock).body = g.block.body ++ [i] := by
  simp [insert]

/-- The other blocks are as before. -/
theorem insert_blocks_ne {b : Nat} (hb : b ≠ g.insertBlock) : (g.insert i).blocks b = g.blocks b := by
  simp [insert, hb]

theorem insert_body_ne {b : Nat} (hb : b ≠ g.insertBlock) :
    ((g.insert i).blocks b).body = (g.blocks b).body := by
  rw [insert_blocks_ne hb]

/-- The instructions of a block after an insertion: those before it, and the new one. -/
theorem mem_insert_instrs {j : Instruction} {b : Nat} :
    j ∈ ((g.insert i).blocks b).instrs ↔ j ∈ (g.blocks b).instrs ∨ (b = g.insertBlock ∧ j = i) := by
  unfold BasicBlock.instrs
  by_cases hb : b = g.insertBlock
  · subst hb
    rw [insert_hoisted, insert_body]
    simp [block, or_assoc]
  · rw [insert_hoisted, insert_body_ne hb]
    simp [hb]

/-- An insertion only grows the code. -/
theorem Frame.insert (g : CodeGenerator) (i : Instruction) : Frame g (g.insert i) where
  count := Nat.le_refl _
  ids := Nat.le_succ _
  functions := List.prefix_refl _
  parent b _ := insert_parent b
  body := by rw [insert_body]; exact List.prefix_append _ _
  others b _ hne := insert_body_ne hne
  hoists b _ := ⟨[], by rw [insert_hoisted, List.nil_append]⟩
  insertBlock := .inl rfl
  current := rfl
  scopeTail := rfl
  lookup _ _ h := h

/-- A slot may be allocated where it is recorded for. -/
def AllocaAt (f : Nat) : Instruction → Prop
  | .alloca a => a.func = f
  | _ => True

/-- An allocation has to stand in the function of its slot; any other instruction may stand anywhere. -/
theorem Ready.insert (hr : g.Ready) (hi : AllocaAt g.block.parent i) : (g.insert i).Ready where
  parents b hb := by rw [insert_parent]; exact hr.parents b hb
  hoisted b hb h := by
    rw [insert_hoisted] at h
    rw [insert_parent]
    exact (Frame.insert g i).entryBlock (hr.hoisted b hb h)
  onlyAllocas b hb := by rw [insert_hoisted]; exact hr.onlyAllocas b hb
  allocas b hb a ha := by
    rw [insert_parent]
    rcases mem_insert_instrs.mp ha with ha | ⟨rfl, rfl⟩
    · exact hr.allocas b hb a ha
    · exact hi
  insertLt := hr.insertLt
  parent := (insert_parent _).trans hr.parent
  scopes := hr.scopes
  fresh a ha := Nat.lt_succ_of_lt (hr.fresh a ha)
  distinct := hr.distinct
  allocated a ha := by
    obtain ⟨b, hb, hmem⟩ := hr.allocated a ha
    exact ⟨b, hb, (Frame.insert g i).mem_instrs hb hmem⟩
  own := hr.own
  foreign := hr.foreign

/-- Both together. -/
theorem Grown.insert (hr : g.Ready) (hi : AllocaAt g.block.parent i) : Grown g (g.insert i) :=
  ⟨hr.insert hi, .insert g i⟩

/-- No `IRBuilder` expression makes a slot. -/
theorem Grown.emit {α : Type} (m : Emit α) (hr : g.Ready) : Grown g (CodeGenerator.emit M m g).2 := by
  induction m generalizing g with
  | pure a => exact .refl hr
  | create opcode args next ih =>
      unfold CodeGenerator.emit
      split
      · exact ih _ hr
      · have h := Grown.insert hr (i := .op g.nextId opcode args) trivial
        exact h.trans hr (ih _ h.ready)

theorem Grown.emitLast (m : Emit Value) (hr : g.Ready) : Grown g (CodeGenerator.emitLast M m g) :=
  (Grown.emit m hr).setLast

/-! ## Slots and scopes -/

/-- The new slot goes to the front of the entry block. -/
theorem createEntryAlloca_blocks (ty : Ty) (hr : g.Ready) :
    ∃ e < g.blockCount, g.entryBlock g.currentFunction = some e ∧
      (g.createEntryAlloca ty).blocks = Function.update g.blocks e
        { g.blocks e with hoisted := .alloca (g.newSlot ty) :: (g.blocks e).hoisted } := by
  obtain ⟨e, he⟩ := exists_entryBlock hr.insertLt hr.parent
  have hparent : g.block.parent = g.currentFunction := hr.parent
  refine ⟨e, (entryBlock_some he).1, he, ?_⟩
  unfold createEntryAlloca
  simp only [hparent, he, Option.getD_some]

/-- A hoisted slot leaves every block in its function. -/
theorem createEntryAlloca_parent (ty : Ty) (hr : g.Ready) (b : Nat) :
    ((g.createEntryAlloca ty).blocks b).parent = (g.blocks b).parent := by
  obtain ⟨e, _, _, hblocks⟩ := createEntryAlloca_blocks ty hr
  by_cases hb : b = e
  · subst hb; simp [hblocks]
  · simp [hblocks, hb]

/-- It goes in front of the body, which stays as it was. -/
theorem createEntryAlloca_body (ty : Ty) (hr : g.Ready) (b : Nat) :
    ((g.createEntryAlloca ty).blocks b).body = (g.blocks b).body := by
  obtain ⟨e, _, _, hblocks⟩ := createEntryAlloca_blocks ty hr
  by_cases hb : b = e
  · subst hb; simp [hblocks]
  · simp [hblocks, hb]

/-- Only the entry block of the current function gets it. -/
theorem createEntryAlloca_hoisted (ty : Ty) (hr : g.Ready) (b : Nat) :
    ((g.createEntryAlloca ty).blocks b).hoisted = (g.blocks b).hoisted ∨
      (g.entryBlock g.currentFunction = some b ∧ ((g.createEntryAlloca ty).blocks b).hoisted =
        .alloca (g.newSlot ty) :: (g.blocks b).hoisted) := by
  obtain ⟨e, _, he, hblocks⟩ := createEntryAlloca_blocks ty hr
  by_cases hb : b = e
  · subst hb
    exact .inr ⟨he, by simp [hblocks]⟩
  · exact .inl (by simp [hblocks, hb])

/-- No other instruction is new. -/
theorem mem_createEntryAlloca {ty : Ty} {b : Nat} (hr : g.Ready)
    (h : i ∈ ((g.createEntryAlloca ty).blocks b).instrs) :
    i ∈ (g.blocks b).instrs ∨ (g.entryBlock g.currentFunction = some b ∧ i = .alloca (g.newSlot ty)) := by
  unfold BasicBlock.instrs at h
  rw [createEntryAlloca_body _ hr] at h
  rcases createEntryAlloca_hoisted ty hr b with hh | ⟨he, hh⟩
  · rw [hh] at h
    exact .inl h
  · rw [hh, List.cons_append] at h
    exact (List.mem_cons.mp h).symm.imp_right (fun hi => ⟨he, hi⟩)

/-- A hoisted slot only grows the code. -/
theorem Frame.createEntryAlloca (ty : Ty) (hr : g.Ready) : Frame g (g.createEntryAlloca ty) :=
  { Frame.refl g with
    ids := Nat.le_succ _
    parent := fun b _ => createEntryAlloca_parent _ hr b
    body := ⟨[], by rw [createEntryAlloca_body _ hr, List.append_nil]⟩
    others := fun b _ _ => createEntryAlloca_body _ hr b
    hoists := fun b _ => by
      rcases createEntryAlloca_hoisted ty hr b with hh | ⟨_, hh⟩
      · exact ⟨[], by rw [hh, List.nil_append]⟩
      · exact ⟨[_], by rw [hh, List.singleton_append]⟩ }

/-- It is recorded for the current function, where it stands. -/
theorem Grown.createEntryAlloca (ty : Ty) (hr : g.Ready) : Grown g (g.createEntryAlloca ty) := by
  have hframe := Frame.createEntryAlloca ty hr
  refine ⟨{ hr with
    parents := fun b hb => ?_
    hoisted := fun b hb h => ?_
    onlyAllocas := fun b hb i hi => ?_
    allocas := fun b hb a ha => ?_
    parent := (createEntryAlloca_parent _ hr _).trans hr.parent
    fresh := fun a ha => Nat.lt_succ_of_lt (hr.fresh a ha)
    allocated := fun a ha => ?_ }, hframe⟩
  · rw [createEntryAlloca_parent _ hr]
    exact hr.parents b hb
  · rw [createEntryAlloca_parent _ hr]
    refine hframe.entryBlock ?_
    rcases createEntryAlloca_hoisted ty hr b with hh | ⟨he, _⟩
    · rw [hh] at h
      exact hr.hoisted b hb h
    · rw [(entryBlock_some he).2]
      exact he
  -- what stands in front of an entry block is allocas only: the old ones, or one more
  · rcases createEntryAlloca_hoisted ty hr b with hh | ⟨_, hh⟩
    · rw [hh] at hi
      exact hr.onlyAllocas b hb i hi
    · rw [hh] at hi
      rcases List.mem_cons.mp hi with rfl | hi
      · exact ⟨_, rfl⟩
      · exact hr.onlyAllocas b hb i hi
  · rw [createEntryAlloca_parent _ hr]
    rcases mem_createEntryAlloca hr ha with ha | ⟨he, ha⟩
    · exact hr.allocas b hb a ha
    · cases ha
      exact hr.parent.trans (entryBlock_some he).2.symm
  · obtain ⟨b, hb, hmem⟩ := hr.allocated a ha
    exact ⟨b, hb, hframe.mem_instrs hb hmem⟩

/-- The new slot is in its place. -/
theorem createEntryAlloca_allocated (ty : Ty) (hr : g.Ready) :
    ∃ b < g.blockCount, .alloca (g.newSlot ty) ∈ ((g.createEntryAlloca ty).blocks b).instrs := by
  obtain ⟨e, hlt, _, hblocks⟩ := createEntryAlloca_blocks ty hr
  exact ⟨e, hlt, by simp [hblocks, BasicBlock.instrs]⟩

/-- Declaring a slot that has just been allocated. -/
theorem Ready.put {x : Name} {a : AllocaInst} (hr : g.Ready) (hid : a.id < g.nextId)
    (hnew : ∀ a' ∈ g.slots, a'.id ≠ a.id) (hf : a.func = g.currentFunction)
    (ha : ∃ b < g.blockCount, .alloca a ∈ (g.blocks b).instrs) :
    { g with scopeStack := Tables.put x a g.scopeStack : CodeGenerator }.Ready := by
  obtain ⟨l, ls, hs⟩ := List.exists_cons_of_ne_nil hr.scopes
  have hslots : ({ g with scopeStack := Tables.put x a g.scopeStack } : CodeGenerator).slots =
      a :: g.slots := by
    simp [slots, hs, Tables.put]
  refine { hr with
    scopes := by simp [hs, Tables.put]
    fresh := ?_
    distinct := ?_
    allocated := ?_
    own := ?_
    foreign := ?_ }
  · rw [hslots]
    exact List.forall_mem_cons.mpr ⟨hid, hr.fresh⟩
  · rw [hslots, List.map_cons, List.nodup_cons]
    -- the new slot has an identifier of its own
    refine ⟨fun h => ?_, hr.distinct⟩
    obtain ⟨a', ha', he⟩ := List.mem_map.mp h
    exact hnew a' ha' he
  · rw [hslots]
    exact List.forall_mem_cons.mpr ⟨ha, hr.allocated⟩
  · intro l' hl' p hp
    have hown := hr.own
    simp only [hs, Tables.put, List.head?_cons, Option.mem_some_iff] at hl' hown
    subst hl'
    rcases List.mem_cons.mp hp with rfl | hp
    · exact hf
    · exact hown l rfl p hp
  · rw [Tables.put_tail]
    exact hr.foreign

/-- A name that was free is declared, so no other name is looked up differently. -/
theorem Frame.put {x : Name} {a : AllocaInst} (h : g.lookup x = none) :
    Frame g { g with scopeStack := Tables.put x a g.scopeStack } :=
  { Frame.refl g with
    scopeTail := Tables.put_tail
    lookup := fun y b hy => by
      have hne : y ≠ x := by
        rintro rfl
        rw [h] at hy
        cases hy
      exact (Tables.lookup_put_ne hne).trans hy }

/-- A new slot, allocated and declared. -/
theorem Grown.addSlot {x : Name} (ty : Ty) (hr : g.Ready) (h : g.lookup x = none) :
    Grown g (g.addSlot x ty) := by
  have hg := Grown.createEntryAlloca ty hr
  have hput : (g.addSlot x ty).Ready :=
    hg.ready.put (Nat.lt_succ_self _) (fun a' ha' => Nat.ne_of_lt (hr.fresh a' ha')) hr.parent
      (createEntryAlloca_allocated ty hr)
  exact ⟨hput, hg.frame.trans hr (Frame.put h)⟩

/-- Taking a slot: it is found, and it was there or is the new one. -/
theorem Grown.slotFor (x : Name) (ty : Ty) (hr : g.Ready) :
    ∃ a g', g.slotFor x ty = .ok (a, g') ∧ Grown g g' ∧ g'.lookup x = some a := by
  rcases slotFor_cases hr.scopes with ⟨a, hl, h⟩ | ⟨hl, h⟩
  · exact ⟨a, g, h, .refl hr, hl⟩
  · exact ⟨_, _, h, .addSlot _ hr hl, Tables.lookup_put_self hr.scopes⟩

/-- The argument goes into the slot of its parameter. -/
theorem Grown.storeParam (f k : Nat) (hr : g.Ready) : Grown g (g.storeParam f k) := by
  have h1 : Grown g (g.createAlloca .i32) := .insert hr rfl
  exact h1.trans hr (.insert h1.ready trivial)

/-- A parameter: its slot, its name and its value. -/
theorem Grown.addParam {f k : Nat} {x : Name} (hr : g.Ready) (h : g.lookup x = none) :
    Grown g (g.addParam f k x) := by
  have h2 := Grown.storeParam f k hr
  refine ⟨h2.ready.put ?_ (fun a' ha' => Nat.ne_of_lt (hr.fresh a' ha')) hr.parent ?_,
    h2.frame.trans hr (Frame.put h)⟩
  · exact Nat.lt_succ_of_lt (Nat.lt_succ_self _)
  · exact ⟨g.insertBlock, hr.insertLt,
      mem_insert_instrs.mpr (.inl (mem_insert_instrs.mpr (.inr ⟨rfl, rfl⟩)))⟩

/-! ## Functions and blocks that are new -/

/-- A declaration or definition at the end of the module. -/
theorem Grown.appendFunctions (fs : List IrFunction) (hr : g.Ready) :
    Grown g { g with functions := g.functions ++ fs } where
  ready := { hr with
    parents := fun b hb => by
      have := hr.parents b hb
      simp only [List.length_append]
      omega }
  frame := { Frame.refl g with functions := List.prefix_append _ _ }

/-- `getOrInsertFunction` finds the function or appends it. -/
theorem Grown.getFunc (name : String) (hr : g.Ready) : Grown g (CodeGenerator.getFunc name g).2 := by
  unfold CodeGenerator.getFunc
  split
  · exact .refl hr
  · exact .appendFunctions _ hr

/-- A new block leaves the old ones alone. -/
theorem createBlock_blocks {f b : Nat} (hb : b < g.blockCount) :
    (g.createBlock f).blocks b = g.blocks b := by
  simp [createBlock, Nat.ne_of_lt hb]

/-- It is empty and in the function it was made for. -/
theorem createBlock_new {f : Nat} : (g.createBlock f).blocks g.blockCount = ⟨f, [], []⟩ := by
  simp [createBlock]

theorem Frame.createBlock (hr : g.Ready) (f : Nat) : Frame g (g.createBlock f) :=
  { Frame.refl g with
    count := Nat.le_succ _
    parent := fun b hb => by rw [createBlock_blocks hb]
    body := ⟨[], by rw [createBlock_blocks hr.insertLt, List.append_nil]⟩
    others := fun b hb _ => by rw [createBlock_blocks hb]
    hoists := fun b hb => ⟨[], by rw [createBlock_blocks hb, List.nil_append]⟩ }

/-- An empty block has nothing hoisted. -/
theorem Placed.createBlock {f : Nat} (hp : g.Placed) (hf : f < g.functions.length) :
    (g.createBlock f).Placed := by
  have hcases (b : Nat) (hb : b < (g.createBlock f).blockCount) : b < g.blockCount ∨ b = g.blockCount :=
    Nat.lt_succ_iff_lt_or_eq.mp hb
  refine ⟨fun b hb => ?_, fun b hb h => ?_, fun b hb i hi => ?_, fun b hb a ha => ?_⟩
  · rcases hcases b hb with hb | rfl
    · rw [createBlock_blocks hb]; exact hp.parents b hb
    · rw [createBlock_new]; exact hf
  · rcases hcases b hb with hb | rfl
    · rw [createBlock_blocks hb] at h ⊢
      exact entryBlock_of_parents (hp.hoisted b hb h) (Nat.le_succ _)
        (fun b hb => by rw [createBlock_blocks hb])
    · rw [createBlock_new] at h
      exact absurd rfl h
  · rcases hcases b hb with hb | rfl
    · rw [createBlock_blocks hb] at hi; exact hp.onlyAllocas b hb i hi
    · rw [createBlock_new] at hi
      cases hi
  · rcases hcases b hb with hb | rfl
    · rw [createBlock_blocks hb] at ha ⊢; exact hp.allocas b hb a ha
    · rw [createBlock_new] at ha
      cases ha

theorem Grown.createBlock (hr : g.Ready) : Grown g (g.createBlock g.currentFunction) := by
  have hf : g.currentFunction < g.functions.length := hr.parent ▸ hr.parents _ hr.insertLt
  refine ⟨{ hr with
    toPlaced := hr.toPlaced.createBlock hf
    insertLt := Nat.lt_succ_of_lt hr.insertLt
    parent := ?_
    allocated := fun a ha => ?_ }, .createBlock hr _⟩
  · unfold block
    exact (congrArg BasicBlock.parent (createBlock_blocks hr.insertLt)).trans hr.parent
  · obtain ⟨b, hb, hmem⟩ := hr.allocated a ha
    exact ⟨b, Nat.lt_succ_of_lt hb, by rw [createBlock_blocks hb]; exact hmem⟩

/-- Going on in a new block of the current function. -/
theorem Grown.setInsertPoint {b : Nat} (h : Grown g g') (hge : g.blockCount ≤ b)
    (hlt : b < g'.blockCount) (hp : (g'.blocks b).parent = g.currentFunction) :
    Grown g (g'.setInsertPoint b) where
  ready := { h.ready with insertLt := hlt, parent := hp.trans h.frame.current.symm }
  frame := { h.frame with insertBlock := .inr hge }

/-! ## Branches and loops -/

/-- `IRBuilder` calls stay in the block. -/
theorem emit_place {α : Type} (m : Emit α) (g : CodeGenerator) :
    (emit M m g).2.blockCount = g.blockCount ∧ (emit M m g).2.insertBlock = g.insertBlock ∧
      (emit M m g).2.currentFunction = g.currentFunction := by
  induction m generalizing g with
  | pure a => exact ⟨rfl, rfl, rfl⟩
  | create opcode args next ih =>
      unfold emit
      split
      · exact ih _ g
      · exact ih _ (g.insert _)

/-- Some new blocks of the current function. -/
def createBlocks : Nat → CodeGenerator → CodeGenerator
  | 0, g => g
  | n + 1, g => createBlocks n (g.createBlock g.currentFunction)

/-- New blocks, a terminator, and on in the first of them. -/
def openBlocks (n : Nat) (i : Instruction) (g : CodeGenerator) : CodeGenerator :=
  (((createBlocks n g).insert i).setLast (.inst g.nextId .void)).setInsertPoint g.blockCount

/-- The new blocks are empty, the others as before, and nothing else happens. -/
structure Blocks (n : Nat) (g g' : CodeGenerator) : Prop where
  count : g'.blockCount = g.blockCount + n
  point : g'.insertBlock = g.insertBlock
  ids : g'.nextId = g.nextId
  current : g'.currentFunction = g.currentFunction
  old : ∀ b < g.blockCount, g'.blocks b = g.blocks b
  new : ∀ b, g.blockCount ≤ b → b < g'.blockCount → g'.blocks b = ⟨g.currentFunction, [], []⟩

/-- Blocks made in a row. -/
theorem createBlocks_blocks (n : Nat) (g : CodeGenerator) : Blocks n g (createBlocks n g) := by
  induction n generalizing g with
  | zero => exact ⟨rfl, rfl, rfl, rfl, fun _ _ => rfl, fun b h h' => absurd h' (by simpa [createBlocks] using h)⟩
  | succ n ih =>
      have h := ih (g.createBlock g.currentFunction)
      have hc : (g.createBlock g.currentFunction).blockCount = g.blockCount + 1 := rfl
      refine ⟨by rw [createBlocks, h.count]; omega, h.point, h.ids, h.current, fun b hb => ?_,
        fun b hge hlt => ?_⟩
      · rw [createBlocks, h.old b (by omega), createBlock_blocks hb]
      · by_cases hb : b = g.blockCount
        · subst hb
          rw [createBlocks, h.old _ (by omega), createBlock_new]
        · exact h.new b (by omega) hlt

theorem Grown.createBlocks (n : Nat) (hr : g.Ready) : Grown g (createBlocks n g) := by
  induction n generalizing g with
  | zero => exact .refl hr
  | succ n ih =>
      have h := Grown.createBlock hr
      exact h.trans hr (ih h.ready)

/-- What opening a branch leaves: the insertion point in the first of some new blocks, the others of them
    still empty. -/
structure Opens (n : Nat) (g g' : CodeGenerator) : Prop extends Grown g g' where
  count : g'.blockCount = g.blockCount + n
  point : g'.insertBlock = g.blockCount
  empty : ∀ b, g.blockCount ≤ b → b < g'.blockCount → g'.blocks b = ⟨g.currentFunction, [], []⟩

/-- What every branch does to open its blocks. -/
theorem Opens.openBlocks {n : Nat} (hn : 0 < n) (hr : g.Ready) (hi : AllocaAt g.block.parent i) :
    Opens n g (openBlocks n i g) := by
  have hb := createBlocks_blocks n g
  have h1 := Grown.createBlocks n hr
  have hblock : (CodeGenerator.createBlocks n g).block = g.block := by
    unfold block
    rw [hb.point, hb.old _ hr.insertLt]
  have h2 := h1.trans hr (.insert h1.ready (hblock.symm ▸ hi))
  have hempty (b : Nat) (hge : g.blockCount ≤ b) (hlt : b < (CodeGenerator.createBlocks n g).blockCount) :
      ((CodeGenerator.createBlocks n g).insert i).blocks b = ⟨g.currentFunction, [], []⟩ := by
    have hne : b ≠ (CodeGenerator.createBlocks n g).insertBlock := by
      have := hr.insertLt
      rw [hb.point]
      omega
    rw [insert_blocks_ne hne]
    exact hb.new b hge hlt
  have hlt : g.blockCount < (CodeGenerator.createBlocks n g).blockCount := by rw [hb.count]; omega
  exact {
    toGrown := h2.setLast.setInsertPoint (Nat.le_refl _) hlt
      (congrArg BasicBlock.parent (hempty _ (Nat.le_refl _) hlt))
    count := hb.count
    point := rfl
    empty := hempty }

/-- First the condition, which stays in the block. -/
theorem Opens.after {n : Nat} (hr : g.Ready) (h1 : Grown g g1) (hc : g1.blockCount = g.blockCount)
    (h2 : Opens n g1 g2) : Opens n g g2 where
  toGrown := h1.trans hr h2.toGrown
  count := by rw [h2.count, hc]
  point := by rw [h2.point, hc]
  empty b hge hlt := by rw [h2.empty b (by omega) hlt, h1.frame.current]

/-- A condition stays in its block. -/
theorem condition_grown (hr : g.Ready) :
    Grown g (g.condition M).2 ∧ (g.condition M).2.blockCount = g.blockCount :=
  ⟨.emit _ hr, (emit_place _ g).1⟩

/-- Two blocks, for the branch and what follows. -/
theorem openIf_opens (hr : g.Ready) : Opens 2 g (g.openIf M) := by
  obtain ⟨h1, hc⟩ := condition_grown (M := M) hr
  have h2 : Opens 2 (g.condition M).2 (g.openIf M) := .openBlocks (by omega) h1.ready trivial
  exact h2.after hr h1 hc

/-- Three, for both branches and what follows. -/
theorem openIfElse_opens (hr : g.Ready) : Opens 3 g (g.openIfElse M) := by
  obtain ⟨h1, hc⟩ := condition_grown (M := M) hr
  have h2 : Opens 3 (g.condition M).2 (g.openIfElse M) := .openBlocks (by omega) h1.ready trivial
  exact h2.after hr h1 hc

/-- Two, for the body and what follows the loop. -/
theorem openBody_opens (hr : g.Ready) : Opens 2 g (g.openBody M) := by
  obtain ⟨h1, hc⟩ := condition_grown (M := M) hr
  have h2 : Opens 2 (g.condition M).2 (g.openBody M) := .openBlocks (by omega) h1.ready trivial
  exact h2.after hr h1 hc

/-- One, for the condition. -/
theorem openLoop_opens (hr : g.Ready) : Opens 1 g g.openLoop := .openBlocks (by omega) hr trivial

/-- The insertion point moves on to a block made when the branch was opened. -/
theorem Grown.goOn {n b : Nat} (hr : g.Ready) (ho : Opens n g g1) (h : Grown g1 g2)
    (hge : g.blockCount ≤ b) (hlt : b < g.blockCount + n) : Grown g (g2.setInsertPoint b) := by
  have hlt1 : b < g1.blockCount := by rw [ho.count]; exact hlt
  have hc := h.frame.count
  refine (ho.toGrown.trans hr h).setInsertPoint hge (by omega) ?_
  rw [h.frame.parent b hlt1, ho.empty b hge hlt1]

/-- A branch is an instruction like any other here. -/
theorem branchUnlessTerminated_grown (hr : g.Ready) (target : Nat) :
    Grown g (g.branchUnlessTerminated target) := by
  unfold branchUnlessTerminated
  split
  · exact .refl hr
  · exact .insert hr trivial

theorem returnUnlessTerminated_grown (hr : g.Ready) (v : Value) :
    Grown g (g.returnUnlessTerminated v) := by
  unfold returnUnlessTerminated
  split
  · exact .refl hr
  · exact .insert hr trivial

/-- The branch of an `if` with `else` is closed, and the other one begins. -/
theorem closeThen_grown (hr : g.Ready) (h : Grown (g.openIfElse M) g1) :
    Grown g (g1.closeBranch (g.blockCount + 2) (g.blockCount + 1)) := by
  have ho := openIfElse_opens (M := M) hr
  have hb := h.trans ho.ready (branchUnlessTerminated_grown h.ready (g.blockCount + 2))
  exact .goOn hr ho hb (by omega) (by omega)

/-- Both branches have been closed: the merge block is as old as they are. -/
theorem closeElse_grown (hr : g.Ready) (h : Grown (g.openIfElse M) g1)
    (h' : Grown (g1.closeBranch (g.blockCount + 2) (g.blockCount + 1)) g2) :
    Grown g (g2.closeBranch (g.blockCount + 2) (g.blockCount + 2)) := by
  have ho := openIfElse_opens (M := M) hr
  have h3 := closeThen_grown hr h
  have hb := h.trans ho.ready (branchUnlessTerminated_grown h.ready (g.blockCount + 2))
  have hb' := h'.trans h3.ready (branchUnlessTerminated_grown h'.ready (g.blockCount + 2))
  have hmerge : g.blockCount + 2 < (g.openIfElse M).blockCount := by rw [ho.count]; omega
  have hmerge3 : g.blockCount + 2 < (g1.branchUnlessTerminated (g.blockCount + 2)).blockCount :=
    Nat.lt_of_lt_of_le hmerge hb.frame.count
  refine (h3.trans hr hb').setInsertPoint (by omega) (Nat.lt_of_lt_of_le hmerge3 hb'.frame.count) ?_
  rw [hb'.frame.parent _ hmerge3]
  exact (hb.frame.parent _ hmerge).trans (by rw [ho.empty _ (by omega) hmerge])

/-! ## Functions -/

/-- A function has been opened: its entry block is new and empty, and so is its scope. -/
structure Opened (g g1 : CodeGenerator) : Prop where
  functions : ∃ f, g1.functions = g.functions ++ [f]
  blocks : g1.blocks = (g.createBlock g.functions.length).blocks
  count : g1.blockCount = g.blockCount + 1
  ids : g1.nextId = g.nextId
  point : g1.insertBlock = g.blockCount
  current : g1.currentFunction = g.functions.length
  scopeStack : g1.scopeStack = [] :: g.scopeStack

/-- What `openFunction` leaves behind. -/
theorem openFunction_opened (name : Option Name) (n : Nat) (g : CodeGenerator) :
    Opened g (g.openFunction M name n) := by
  cases name <;> exact ⟨⟨_, rfl⟩, rfl, rfl, rfl, rfl, rfl, rfl⟩

/-- A new function leaves the old blocks alone. -/
theorem Opened.old (h : Opened g g1) {b : Nat} (hb : b < g.blockCount) : g1.blocks b = g.blocks b := by
  rw [h.blocks, createBlock_blocks hb]

/-- The slots around the function belong to functions before it. -/
theorem Ready.slots_func (hr : g.Ready) {a : AllocaInst} (ha : a ∈ g.slots) :
    a.func < g.functions.length := by
  obtain ⟨b, hb, hmem⟩ := hr.allocated a ha
  rw [hr.allocas b hb a hmem]
  exact hr.parents b hb

/-- What a scope holds is in scope. -/
theorem mem_slots {l : List (Name × AllocaInst)} {p : Name × AllocaInst} (hl : l ∈ g.scopeStack)
    (hp : p ∈ l) : p.2 ∈ g.slots :=
  List.mem_map.mpr ⟨p, List.mem_flatten.mpr ⟨l, hl, hp⟩, rfl⟩

/-- A function that has just been opened is ready for its body: the slots around it are foreign to it. -/
theorem Opened.ready (hr : g.Ready) (h : Opened g g1) : g1.Ready := by
  obtain ⟨f, hf⟩ := h.functions
  have hslots : g1.slots = g.slots := by simp [slots, h.scopeStack]
  -- the only new block is the entry of the new function, and it is empty
  have hplaced : g1.Placed := by
    have hp := (Grown.appendFunctions [f] hr).ready.toPlaced.createBlock
      (f := g.functions.length) (by simp)
    have hentry (k : Nat) : g1.entryBlock k = (g.createBlock g.functions.length).entryBlock k := by
      simp only [entryBlock, h.blocks, h.count]
      rfl
    refine ⟨fun b hb => ?_, fun b hb hne => ?_, fun b hb => ?_, fun b hb => ?_⟩
    · rw [h.count] at hb
      rw [h.blocks, hf]
      exact hp.parents b hb
    · rw [h.count] at hb
      rw [hentry]
      rw [h.blocks] at hne ⊢
      exact hp.hoisted b hb hne
    · rw [h.count] at hb
      rw [h.blocks]
      exact hp.onlyAllocas b hb
    · rw [h.count] at hb
      rw [h.blocks]
      exact hp.allocas b hb
  exact { hplaced with
    insertLt := by rw [h.point, h.count]; exact Nat.lt_succ_self _
    parent := by rw [block, h.point, h.blocks, createBlock_new, h.current]
    scopes := by rw [h.scopeStack]; exact List.cons_ne_nil _ _
    fresh := by rw [hslots, h.ids]; exact hr.fresh
    distinct := by rw [hslots]; exact hr.distinct
    allocated := by
      rw [hslots]
      intro a ha
      obtain ⟨b, hb, hmem⟩ := hr.allocated a ha
      exact ⟨b, by rw [h.count]; omega, by rw [h.old hb]; exact hmem⟩
    own := by
      rw [h.scopeStack]
      intro l hl p hp
      cases hl
      cases hp
    -- a slot in scope belongs to a function that existed before, not to the one just opened
    foreign := by
      rw [h.scopeStack, h.current]
      intro l hl p hp
      exact Nat.ne_of_lt (hr.slots_func (mem_slots hl hp)) }

/-- After the body only the innermost scope has changed, and that is the one that goes. -/
theorem closeFunction_scopeStack (ho : Opened g g1) (h : Grown g1 g2) :
    (closeFunction g g2).scopeStack = g.scopeStack := by
  show g2.scopeStack.tail = _
  rw [h.frame.scopeTail, ho.scopeStack]
  rfl

/-- **Leaving a function** puts everything back but for the code that has been added. -/
theorem Grown.leave (hr : g.Ready) (ho : Opened g g1) (h : Grown g1 g2) :
    Grown g (closeFunction g g2) := by
  have h3 := h.trans (ho.ready hr) (returnUnlessTerminated_grown h.ready g2.lastValue)
  have hscopes := closeFunction_scopeStack ho h
  have hslots : (closeFunction g g2).slots = g.slots := by simp only [slots, hscopes]
  have hc := h3.frame.count
  rw [ho.count] at hc
  -- blocks from before the function are outside its frame
  have hbody (b : Nat) (hb : b < g.blockCount) :
      ((closeFunction g g2).blocks b).body = (g.blocks b).body := by
    have hne : b ≠ g1.insertBlock := by rw [ho.point]; omega
    exact (h3.frame.others b (by rw [ho.count]; omega) hne).trans (by rw [ho.old hb])
  have hparent (b : Nat) (hb : b < g.blockCount) :
      ((closeFunction g g2).blocks b).parent = (g.blocks b).parent :=
    (h3.frame.parent b (by rw [ho.count]; omega)).trans (by rw [ho.old hb])
  have hframe : Frame g (closeFunction g g2) := {
    count := by show _ ≤ (g2.returnUnlessTerminated _).blockCount; omega
    ids := ho.ids ▸ h3.frame.ids
    functions := by
      obtain ⟨f, hf⟩ := ho.functions
      have hpre := h3.frame.functions
      rw [hf] at hpre
      exact List.IsPrefix.trans (List.prefix_append _ _) hpre
    parent := hparent
    body := ⟨[], by rw [hbody _ hr.insertLt, List.append_nil]⟩
    others := fun b hb _ => hbody b hb
    -- an entry block may have got allocas in front: the function can use slots of the enclosing one
    hoists := fun b hb => by
      have hsuf := h3.frame.hoists b (by rw [ho.count]; omega)
      rw [ho.old hb] at hsuf
      exact hsuf
    insertBlock := .inl rfl
    current := rfl
    scopeTail := by rw [hscopes]
    lookup := fun x a hx => by
      unfold CodeGenerator.lookup
      rw [hscopes]
      exact hx }
  refine ⟨{ h3.ready.toPlaced with
    insertLt := Nat.lt_of_lt_of_le hr.insertLt hframe.count
    parent := (hparent _ hr.insertLt).trans hr.parent
    scopes := hscopes ▸ hr.scopes
    fresh := ?_
    distinct := hslots ▸ hr.distinct
    allocated := ?_
    own := hscopes ▸ hr.own
    foreign := hscopes ▸ hr.foreign }, hframe⟩
  · rw [hslots]
    exact fun a ha => Nat.lt_of_lt_of_le (hr.fresh a ha) hframe.ids
  · rw [hslots]
    intro a ha
    obtain ⟨b, hb, hmem⟩ := hr.allocated a ha
    exact ⟨b, Nat.lt_of_lt_of_le hb hframe.count, hframe.mem_instrs hb hmem⟩

/-! ## The visitors -/

/-- The exception leaves code behind that is in its place. -/
abbrev Grows (g : CodeGenerator) (r : Except Thrown CodeGenerator) : Prop :=
  Ensures r (Grown g) (fun t => t.state.Placed)

/-- A visitor step after another. -/
theorem Grows.andThen {r : Except Thrown CodeGenerator} {f : CodeGenerator → Except Thrown CodeGenerator}
    (hr : g.Ready) (h : Grows g r) (hf : ∀ g1, g1.Ready → Grows g1 (f g1)) : Grows g (r >>= f) :=
  Ensures.bind h (fun g1 h1 => (hf g1 h1.ready).weaken (fun _ h2 => h1.trans hr h2) (fun _ => id))

theorem createLoad_grown (a : AllocaInst) (hr : g.Ready) : Grown g (g.createLoad a) :=
  (Grown.insert (i := .load g.nextId a) hr trivial).setLast

theorem createStore_grown (v : Value) (a : AllocaInst) (hr : g.Ready) : Grown g (g.createStore v a) :=
  .insert (i := .store v a) hr trivial

theorem createCall_grown (arity : Nat) (callee : Value) (args : List Value) (hr : g.Ready) :
    Grown g (g.createCall arity callee args) :=
  (Grown.insert (i := .call g.nextId arity callee args) hr trivial).setLast

/-- A variable is loaded, named as a function, or unknown. -/
theorem visitVariable_grows (x : Name) (hr : g.Ready) : Grows g (g.visitVariable x) := by
  unfold visitVariable
  cases g.lookup x with
  | some a => exact .ok (createLoad_grown a hr)
  | none =>
      cases g.functionTable x with
      | some f => exact .ok (Grown.refl hr).setLast
      | none => exact .error hr.toPlaced

/-- An assignment may make a slot, and stores. -/
theorem assign_grows (x : Name) (hr : g.Ready) : Grows g (g.assign x) := by
  obtain ⟨a, g1, h, hg, _⟩ := Grown.slotFor x g.lastValue.ty hr
  rw [assign, h]
  exact .ok (hg.trans hr (createStore_grown _ a hg.ready))

/-- An input may make the slot of `__input_var`. -/
theorem visitInput_grows (hr : g.Ready) : Grows g g.visitInput := by
  obtain ⟨a, g1, h, hg, _⟩ := Grown.slotFor inputVar .i32 hr
  have h2 := hg.trans hr (.getFunc "scanf" hg.ready)
  have h3 := h2.trans hr (createCall_grown 2 (.const (.func (g1.getFunc "scanf").1))
    [.const (.str "%d"), .slot a] h2.ready)
  rw [visitInput, h]
  exact .ok (h3.trans hr (createLoad_grown a h3.ready))

theorem print_grown (hr : g.Ready) : Grown g g.print := by
  have h := Grown.getFunc "printf" hr
  exact h.trans hr (createCall_grown _ _ _ h.ready)

/-- Each parameter in turn. -/
theorem bindParams_grows {f : Nat} {ps : List Name} {k : Nat} (hr : g.Ready) :
    Grows g (bindParams f ps k g) := by
  induction ps generalizing g k with
  | nil => exact .ok (.refl hr)
  | cons x ps ih =>
      cases hl : g.lookup x with
      | some a =>
          rw [bindParams_clash hr.scopes (by rw [hl]; rfl)]
          exact .error (Grown.storeParam f k hr).ready.toPlaced
      | none =>
          rw [bindParams_cons hr.scopes hl]
          have h := Grown.addParam (f := f) (k := k) hr hl
          exact (ih h.ready).weaken (fun _ h2 => h.trans hr h2) (fun _ => id)

mutual

/-- **Visitors only add.** -/
theorem visit_grows : ∀ (e : Expression) {g : CodeGenerator}, g.Ready → Grows g (visit M L e g)
  | .number _, g, hr => .ok (Grown.refl hr).setLast
  | .var x, g, hr => visitVariable_grows x hr
  | .assignmentExpr x e, g, hr => .andThen hr (visit_grows e hr) (fun _ h1 => assign_grows x h1)
  | .binaryOperator op a b, g, hr =>
      .andThen hr (visit_grows a hr) (fun g1 h1 =>
        .andThen h1 (visit_grows b h1) (fun _ h2 => .ok (.emitLast _ h2)))
  | .unaryOperator op e, g, hr => .andThen hr (visit_grows e hr) (fun _ h1 => .ok (.emitLast _ h1))
  | .input, g, hr => visitInput_grows hr
  | .blockExpr ss, g, hr => visitStmts_grows ss hr
  | .func f ps body, g, hr => by
      have ho := openFunction_opened (M := M) f ps.length g
      have h1 : Ensures (g.enterFunction M f ps) (Grown (g.openFunction M f ps.length)) _ :=
        bindParams_grows (ho.ready hr)
      rw [visit]
      refine h1.bind (fun g1 h1 => ?_)
      refine (visit_grows body h1.ready).bind (fun g2 h2 => ?_)
      rw [leaveFunction_ok h2.ready.scopes]
      exact .ok (.leave hr ho (h1.trans (ho.ready hr) h2))
  | .call t es, g, hr => by
      rw [visit]
      refine .andThen hr (visit_grows t hr) (fun g1 h1 => ?_)
      refine (visitArgs_grows es h1).bind (fun r h2 => ?_)
      exact .ok (h2.trans h1 (createCall_grown _ _ _ h2.ready))

/-- So does every statement. -/
theorem visitStmt_grows : ∀ (s : Statement) {g : CodeGenerator}, g.Ready → Grows g (visitStmt M L s g)
  | .emptyStmt, g, hr => .ok (.refl hr)
  | .exprStmt e, g, hr => visit_grows e hr
  | .ifStmt c t none, g, hr => by
      rw [visitStmt]
      refine .andThen hr (visit_grows c hr) (fun g1 h1 => ?_)
      have ho := openIf_opens (M := M) h1
      refine (visit_grows t ho.ready).bind (fun g2 h2 => ?_)
      have hb := h2.trans ho.ready (branchUnlessTerminated_grown h2.ready (g1.blockCount + 1))
      exact .ok (.goOn h1 ho hb (by omega) (by omega))
  | .ifStmt c t (some e), g, hr => by
      rw [visitStmt]
      refine .andThen hr (visit_grows c hr) (fun g1 h1 => ?_)
      have ho := openIfElse_opens (M := M) h1
      refine (visit_grows t ho.ready).bind (fun g2 h2 => ?_)
      have h3 := closeThen_grown h1 h2
      exact (visit_grows e h3.ready).bind (fun g4 h4 => .ok (closeElse_grown h1 h2 h4))
  | .whileStmt c b, g, hr => by
      have hl := openLoop_opens hr
      rw [visitStmt]
      refine (visit_grows c hl.ready).bind (fun g1 h1 => ?_)
      have ho := openBody_opens (M := M) h1.ready
      refine (visit_grows b ho.ready).bind (fun g2 h2 => ?_)
      have hb : Grown (g1.openBody M) (g2.createBrLast g.blockCount) :=
        h2.trans ho.ready (Grown.insert (i := .br g.blockCount) h2.ready trivial).setLast
      have h3 : Grown g1 (g2.closeLoop g.blockCount (g1.blockCount + 1)) :=
        .goOn h1.ready ho hb (by omega) (by omega)
      exact .ok (hl.toGrown.trans hr (h1.trans hl.ready h3))
  | .printStmt e, g, hr => .andThen hr (visit_grows e hr) (fun _ h1 => .ok (print_grown h1))
  | .returnStmt none, g, hr => .ok (.insert (i := .ret (.const (.int 0))) hr trivial)
  | .returnStmt (some e), g, hr =>
      .andThen hr (visit_grows e hr) (fun g1 h1 => .ok (.insert (i := .ret g1.lastValue) h1 trivial))

theorem visitStmts_grows : ∀ (ss : List Statement) {g : CodeGenerator}, g.Ready →
    Grows g (visitStmts M L ss g)
  | [], _, hr => .ok (.refl hr)
  | s :: ss, _, hr => .andThen hr (visitStmt_grows s hr) (fun _ h1 => visitStmts_grows ss h1)

theorem visitArgs_grows : ∀ (es : List Expression) {g : CodeGenerator}, g.Ready →
    Ensures (visitArgs M L es g) (fun r => Grown g r.2) (fun t => t.state.Placed)
  | [], g, hr => .ok (.refl hr)
  | e :: es, g, hr => by
      rw [visitArgs]
      refine (visit_grows e hr).bind (fun g1 h1 => ?_)
      refine (visitArgs_grows es h1.ready).bind (fun r h2 => ?_)
      exact .ok (h1.trans hr h2)

end

theorem enterMain_ready : (enterMain M).Ready where
  parents b hb := by
    cases Nat.lt_one_iff.mp hb
    exact Nat.zero_lt_one
  hoisted b hb h := by
    cases Nat.lt_one_iff.mp hb
    exact absurd rfl h
  onlyAllocas b hb i hi := by
    cases Nat.lt_one_iff.mp hb
    cases hi
  allocas b hb a ha := by
    cases Nat.lt_one_iff.mp hb
    cases ha
  insertLt := Nat.zero_lt_one
  parent := rfl
  scopes := List.cons_ne_nil _ _
  fresh a ha := by cases ha
  distinct := List.nodup_nil
  allocated a ha := by cases ha
  own l hl p hp := by
    cases hl
    cases hp
  foreign l hl := by cases hl

/-- A whole program grows out of the entry of `main`. -/
theorem visitProgram_grows (p : Program) : Grows (enterMain M) (visitProgram M L p) :=
  .andThen enterMain_ready (visitStmts_grows p.stmts enterMain_ready)
    (fun _ h => .ok (returnUnlessTerminated_grown h _))

end CodeGenerator

end ParaCL
