import ParaCL.Codegen.Growth
import ParaCL.Codegen.Outline
import ParaCL.Codegen.Resolution

/-!
# `Codegen.Terminators` — one terminator for each block, at its end

Wherever a visitor leaves a block for good it puts a terminator there (`Leaves`), so every block of a finished
program ends in one. Whether that is the only one is what the outline of the program says: a terminator
stands before other instructions exactly if the pass fails (`Draws`).
-/

namespace ParaCL

open Lib

/-- **Well terminated.** One terminator, and it is the last instruction. -/
def BasicBlock.WellTerminated (b : BasicBlock) : Prop :=
  ∃ is t, b.instrs = is ++ [t] ∧ t.isTerminator ∧ ∀ i ∈ is, ¬ i.isTerminator

namespace BasicBlock

/-- Some terminator is the last instruction. -/
def Ended (b : BasicBlock) : Prop := ∃ is t, b.body = is ++ [t] ∧ t.isTerminator

/-- No terminator stands before another instruction. -/
def Tidy (b : BasicBlock) : Prop := ∀ is t js, b.body = is ++ t :: js → t.isTerminator → js = []

variable {b c : BasicBlock}

/-- Hoisted instructions are allocations, so the terminator is in the body. -/
theorem hasTerminator_iff (h : ∀ i ∈ b.hoisted, ∃ a, i = .alloca a) : b.hasTerminator ↔ b.Ended := by
  unfold hasTerminator instrs Ended
  rcases List.eq_nil_or_concat b.body with hb | ⟨is, t, hb⟩
  · rw [hb, List.append_nil]
    constructor
    · intro ht
      cases hl : b.hoisted.getLast? with
      | none => rw [hl] at ht; cases ht
      | some i =>
          obtain ⟨a, rfl⟩ := h i (List.mem_of_getLast? hl)
          rw [hl] at ht
          cases ht
    · rintro ⟨is, t, he, _⟩
      exact absurd he (by simp)
  · rw [hb, List.concat_eq_append, ← List.append_assoc, List.getLast?_concat]
    constructor
    · exact fun ht => ⟨is, t, rfl, ht⟩
    · rintro ⟨is', t', he, ht⟩
      obtain ⟨_, rfl⟩ := List.append_inj' he rfl |>.imp id List.singleton_inj.mp
      exact ht

/-- One terminator at the end is: a terminator at the end, and none before. -/
theorem wellTerminated_iff (h : ∀ i ∈ b.hoisted, ∃ a, i = .alloca a) :
    b.WellTerminated ↔ b.Ended ∧ b.Tidy := by
  constructor
  · rintro ⟨is, t, he, ht, his⟩
    have hended : b.Ended := (hasTerminator_iff h).mp (by simp [hasTerminator, he, ht])
    have ⟨is', t', hb, _⟩ := hended
    rw [instrs, hb, ← List.append_assoc] at he
    obtain ⟨hpre, _⟩ := List.append_inj' he rfl
    refine ⟨hended, fun as t2 js h2 ht2 => ?_⟩
    -- a terminator with anything after it is not the last instruction
    rcases List.eq_nil_or_concat js with rfl | ⟨js', i', rfl⟩
    · rfl
    · rw [hb, List.concat_eq_append] at h2
      have h2' : is' ++ [t'] = (as ++ t2 :: js') ++ [i'] := by rw [h2]; simp
      obtain ⟨hmid, _⟩ := List.append_inj' h2' rfl
      exact absurd ht2 (his t2 (by rw [← hpre, hmid]; simp))
  · rintro ⟨⟨is, t, hb, ht⟩, htidy⟩
    refine ⟨b.hoisted ++ is, t, by rw [instrs, hb, List.append_assoc], ht, fun i hi hterm => ?_⟩
    -- what stands in front is an alloca, and behind a terminator nothing is left for the last one
    rcases List.mem_append.mp hi with hi | hi
    · obtain ⟨a, rfl⟩ := h i hi
      cases hterm
    · obtain ⟨as, bs, rfl⟩ := List.append_of_mem hi
      have hnil := htidy as i (bs ++ [t]) (by rw [hb]; simp) hterm
      exact absurd hnil (by simp)

/-- An instruction after the last terminator, or at the end of an open block. -/
theorem tidy_append {i : Instruction} (ht : b.Tidy) (hc : c.body = b.body ++ [i]) :
    c.Tidy ↔ ¬ b.Ended := by
  constructor
  · rintro h ⟨is, t, he, hterm⟩
    have hnil := h is t [i] (by rw [hc, he]; simp) hterm
    cases hnil
  · intro hne is t js he hterm
    rcases List.eq_nil_or_concat js with rfl | ⟨js', i', rfl⟩
    · rfl
    · rw [hc, List.concat_eq_append] at he
      have he' : b.body ++ [i] = (is ++ t :: js') ++ [i'] := by rw [he]; simp
      obtain ⟨hb, _⟩ := List.append_inj' he' rfl
      have hnil := ht is t js' hb hterm
      subst hnil
      exact absurd ⟨is, t, hb, hterm⟩ hne

end BasicBlock

namespace CodeGenerator

variable {M : Llvm} {L : Lowering} {g g' g1 g2 : CodeGenerator} {i : Instruction} {v : Value}
  {o : Option Outline} {pending : List Nat} {b : Nat}

/-- Every block is tidy. -/
def Tidy (g : CodeGenerator) : Prop := ∀ b < g.blockCount, (g.blocks b).Tidy

/-- What has been left is ended: the blocks that are new and the one that the visitor started in, but for
    the block it ends in and those it is still going to continue. -/
def Leaves (pending : List Nat) (g g' : CodeGenerator) : Prop :=
  ∀ b < g'.blockCount, b ≠ g'.insertBlock → b ∉ pending → (g.blockCount ≤ b ∨ b = g.insertBlock) →
    (g'.blocks b).Ended

/-- The outline of a state. -/
def outline (g : CodeGenerator) : Outline where
  functions := g.functions
  nextId := g.nextId
  currentFunction := g.currentFunction
  scopeStack := g.scopeStack
  functionTable := g.functionTable
  funcCounter := g.funcCounter
  lastValue := g.lastValue
  closed := g.terminated

/-- The outline follows the state, or the state is spoiled. -/
def Sketch : Option Outline → CodeGenerator → Prop
  | some o, g => g.outline = o ∧ g.Tidy
  | none, g => ¬ g.Tidy

/-- From `g` to `g'`, and in the outline from `g.outline` to `o`. -/
structure Draws (pending : List Nat) (o : Option Outline) (g g' : CodeGenerator) : Prop where
  grown : Grown g g'
  leaves : Leaves pending g g'
  sketch : g.Tidy → Sketch o g'

/-- A visitor appends to its own block only, so the others stay ended. -/
theorem Frame.ended (h : Frame g g') (hb : b < g.blockCount) (hne : b ≠ g.insertBlock)
    (he : (g.blocks b).Ended) : (g'.blocks b).Ended := by
  unfold BasicBlock.Ended
  rw [h.others b hb hne]
  exact he

/-- What is spoiled stays so. -/
theorem Frame.not_tidy (h : Frame g g') (hn : ¬ g.Tidy) : ¬ g'.Tidy := by
  intro ht
  refine hn (fun b hb is t js he hterm => ?_)
  obtain ⟨ks, hks⟩ := h.grow hb
  have hnil := ht b (Nat.lt_of_lt_of_le hb h.count) is t (js ++ ks) (by rw [← hks, he]; simp) hterm
  exact (List.append_eq_nil_iff.mp hnil).1

/-- Nothing is left by a step that stays in its block. -/
theorem Leaves.straight (hc : g'.blockCount = g.blockCount) (hi : g'.insertBlock = g.insertBlock) :
    Leaves pending g g' := by
  rintro b hb hne _ (hge | rfl)
  · omega
  · exact absurd hi.symm hne

/-- What two steps leave, and what the second one does not reopen. -/
theorem Leaves.trans {pending' : List Nat} (hf2 : Frame g1 g2) (h1 : Leaves pending g g1)
    (h2 : Leaves pending' g1 g2) : Leaves (pending ++ pending') g g2 := by
  intro b hb hne hp hor
  have hp1 : b ∉ pending := fun h => hp (List.mem_append_left _ h)
  have hp2 : b ∉ pending' := fun h => hp (List.mem_append_right _ h)
  by_cases hnew : g1.blockCount ≤ b ∨ b = g1.insertBlock
  · exact h2 b hb hne hp2 hnew
  · obtain ⟨hlt, hne1⟩ := not_or.mp hnew
    exact hf2.ended (by omega) hne1 (h1 b (by omega) hne1 hp1 hor)

/-- A block that has been ended may be left for one that was pending. -/
theorem Leaves.goOn {next : Nat} (h : Leaves (next :: pending) g g') (he : g'.block.Ended) :
    Leaves pending g (g'.setInsertPoint next) := by
  intro b hb hne hp hor
  by_cases hi : b = g'.insertBlock
  · subst hi
    exact he
  · exact h b hb hi (fun hm => (List.mem_cons.mp hm).elim hne hp) hor

theorem Draws.refl (hr : g.Ready) : Draws [] (some g.outline) g g :=
  ⟨.refl hr, .straight rfl rfl, fun ht => ⟨rfl, ht⟩⟩

/-- **Sequencing.** -/
theorem Draws.append {pending' : List Nat} {k : Outline → Option Outline} (hr : g.Ready)
    (h1 : Draws pending o g g1) (h2 : Draws pending' (k g1.outline) g1 g2) :
    Draws (pending ++ pending') (o.bind k) g g2 where
  grown := h1.grown.trans hr h2.grown
  leaves := .trans h2.grown.frame h1.leaves h2.leaves
  sketch ht := by
    have hs := h1.sketch ht
    cases o with
    | none => exact h2.grown.frame.not_tidy hs
    | some o1 =>
        obtain ⟨rfl, ht1⟩ := hs
        exact h2.sketch ht1

/-- One step after another; the outline goes on where the first one ended. -/
theorem Draws.trans {k : Outline → Option Outline} (hr : g.Ready) (h1 : Draws pending o g g1)
    (h2 : Draws [] (k g1.outline) g1 g2) : Draws pending (o.bind k) g g2 :=
  List.append_nil pending ▸ h1.append hr h2

theorem Draws.congr {o' : Option Outline} (h : Draws pending o g g') (he : o = o') :
    Draws pending o' g g' := he ▸ h

/-- A result of the outline that is changed as the state is. -/
theorem Draws.map {pending' : List Nat} {f : Outline → Outline} (h : Draws pending' o g g1) (hg : Grown g g2)
    (hl : Leaves pending g g2) (ho : g2.outline = f g1.outline) (ht : g2.Tidy ↔ g1.Tidy) :
    Draws pending (o.map f) g g2 := by
  refine ⟨hg, hl, fun htidy => ?_⟩
  have hs := h.sketch htidy
  cases o with
  | none => exact fun h2 => hs (ht.mp h2)
  | some o1 => exact ⟨ho.trans (congrArg f hs.1), ht.mpr hs.2⟩

/-! ## Instructions -/

/-- `getTerminator` sees a terminator exactly at the end of the block. -/
theorem Placed.terminated_iff (hp : g.Placed) (hlt : g.insertBlock < g.blockCount) :
    g.terminated ↔ g.block.Ended := BasicBlock.hasTerminator_iff (hp.onlyAllocas _ hlt)

theorem Ready.terminated_iff (hr : g.Ready) : g.terminated ↔ g.block.Ended :=
  hr.toPlaced.terminated_iff hr.insertLt

/-- A new block is open. -/
theorem Ready.terminated_of_empty (hr : g.Ready) (h : g.block.body = []) : g.terminated = false := by
  rw [Bool.eq_false_iff]
  intro ht
  obtain ⟨is, t, he, _⟩ := hr.terminated_iff.mp ht
  rw [h] at he
  exact absurd he (by simp)

theorem insert_terminated : (g.insert i).terminated = i.isTerminator := by
  have hb : (g.insert i).block.instrs = (g.block.hoisted ++ g.block.body) ++ [i] := by
    simp [block, insert, BasicBlock.instrs]
  unfold terminated BasicBlock.hasTerminator
  rw [hb, List.getLast?_concat]

/-- An instruction takes a number and closes the block or leaves it open. -/
theorem outline_of_insert : (g.insert i).outline =
    { g.outline with nextId := g.nextId + 1, closed := i.isTerminator } := by
  unfold outline
  rw [insert_terminated]
  rfl

/-- The pass fails exactly where the generator would put an instruction behind a terminator. -/
theorem insert_outline :
    g.outline.insert i.isTerminator = if g.terminated then none else some (g.insert i).outline := by
  rw [outline_of_insert]
  rfl

/-- An instruction keeps the blocks tidy exactly if the block is open. -/
theorem insert_tidy (hr : g.Ready) (ht : g.Tidy) : (g.insert i).Tidy ↔ ¬ g.terminated := by
  have happend := BasicBlock.tidy_append (ht _ hr.insertLt) (insert_body (g := g) (i := i))
  rw [hr.terminated_iff]
  constructor
  · exact fun h => happend.mp (h _ hr.insertLt)
  · intro h b hb
    by_cases hi : b = g.insertBlock
    · subst hi
      exact happend.mpr h
    · rw [insert_blocks_ne hi]
      exact ht b hb

/-- **One instruction.** It keeps the blocks tidy exactly if the block is open. -/
theorem Draws.insert (hr : g.Ready) (hi : AllocaAt g.block.parent i) :
    Draws [] (g.outline.insert i.isTerminator) g (g.insert i) := by
  refine ⟨.insert hr hi, .straight rfl rfl, fun ht => ?_⟩
  have htidy := insert_tidy (i := i) hr ht
  rw [insert_outline]
  cases hterm : g.terminated with
  | true => exact fun h => htidy.mp h hterm
  | false => exact ⟨rfl, htidy.mpr (by simp [hterm])⟩

/-- `last_value_` is kept in the outline. -/
theorem Draws.setLast (h : Draws pending o g g') : Draws pending (o.map (Outline.setLast v)) g (g'.setLast v) :=
  h.map h.grown.setLast h.leaves rfl .rfl

/-- An instruction with its value. -/
theorem Draws.insertLast {ty : Ty} (hr : g.Ready) (hi : AllocaAt g.block.parent i) :
    Draws [] (g.outline.insertLast i.isTerminator ty) g ((g.insert i).setLast (.inst g.nextId ty)) :=
  (Draws.insert hr hi).setLast

/-- The calls are made, or fail, as in the outline. -/
theorem emit_draws {α : Type} (m : Emit α) (hr : g.Ready) :
    Draws [] ((Outline.emit M m g.outline).map Prod.snd) g (emit M m g).2 ∧
      ∀ r, Outline.emit M m g.outline = some r → r.1 = (emit M m g).1 := by
  induction m generalizing g with
  | pure a => exact ⟨.refl hr, fun r h => by cases h; rfl⟩
  | create opcode args next ih =>
      rw [emit, Outline.emit]
      cases hf : foldValue M opcode args with
      -- folded to a constant: nothing is inserted
      | some c => exact ih _ hr
      | none =>
          have hins := Draws.insert hr (i := .op g.nextId opcode args) trivial
          have hout := insert_outline (g := g) (i := .op g.nextId opcode args)
          obtain ⟨hd, hv⟩ := ih (.inst g.nextId (opcode.resultTy args)) hins.grown.ready
          rw [show Instruction.isTerminator (.op g.nextId opcode args) = false from rfl] at hins hout
          constructor
          · have hbind (x : Option Outline) (k : Outline → Option (α × Outline)) :
                (x.bind k).map Prod.snd = x.bind (fun o => (k o).map Prod.snd) := by cases x <;> rfl
            rw [hbind]
            exact hins.trans hr (k := fun o => (Outline.emit M (next _) o).map Prod.snd) hd
          · intro r h
            cases ht : g.terminated with
            -- the outline fails where the block is closed already
            | true => simp [hout, ht] at h
            | false =>
                rw [hout, ht] at h
                exact hv r h

/-- An operator, folded or not. -/
theorem emitLast_draws (m : Emit Value) (hr : g.Ready) :
    Draws [] (g.outline.emitLast M m) g (emitLast M m g) := by
  obtain ⟨hd, hv⟩ := emit_draws (M := M) m hr
  refine ⟨hd.grown.setLast, hd.leaves, fun ht => ?_⟩
  have hs := hd.sketch ht
  unfold Outline.emitLast
  cases hr : Outline.emit M m g.outline with
  | none => rw [hr] at hs; exact hs
  | some r =>
      rw [hr] at hs
      obtain ⟨ho, ht1⟩ := hs
      refine ⟨?_, ht1⟩
      show _ = r.2.setLast r.1
      rw [hv r hr, ← ho]
      rfl

/-! ## Branches -/

/-- New blocks change nothing but the blocks and their number. -/
theorem createBlocks_eq (n : Nat) (g : CodeGenerator) :
    ∃ bs c, createBlocks n g = { g with blocks := bs, blockCount := c } := by
  induction n generalizing g with
  | zero => exact ⟨_, _, rfl⟩
  | succ n ih =>
      obtain ⟨bs, c, h⟩ := ih (g.createBlock g.currentFunction)
      exact ⟨bs, c, h⟩

/-- A branch closes the block and goes on in the first of the new ones; the others are pending. -/
theorem openBlocks_draws {n : Nat} (hn : 0 < n) (hr : g.Ready) (hi : AllocaAt g.block.parent i)
    (hterm : i.isTerminator = true)
    (hpending : ∀ b, g.blockCount < b → b < g.blockCount + n → b ∈ pending) :
    Draws pending ((g.outline.insertLast true .void).map Outline.reopen) g (openBlocks n i g) := by
  have ho := Opens.openBlocks hn hr hi
  have hb := createBlocks_blocks n g
  have h1 := Grown.createBlocks n hr
  have hblock : (createBlocks n g).block = g.block := by
    unfold block
    rw [hb.point, hb.old _ hr.insertLt]
  -- the terminator goes to the block that was current, behind what it held
  have hbody : ((openBlocks n i g).blocks g.insertBlock).body = g.block.body ++ [i] := by
    have h := insert_body (g := createBlocks n g) (i := i)
    rw [hb.point, hblock] at h
    exact h
  have hold (b : Nat) (hlt : b < g.blockCount) (hne : b ≠ g.insertBlock) :
      (openBlocks n i g).blocks b = g.blocks b := by
    have h := insert_blocks_ne (g := createBlocks n g) (i := i) (b := b) (by rw [hb.point]; exact hne)
    exact h.trans (hb.old b hlt)
  refine ⟨ho.toGrown, fun b hlt hne hp hor => ?_, fun ht => ?_⟩
  · rw [ho.count] at hlt
    rw [ho.point] at hne
    rcases hor with hge | rfl
    · exact absurd (hpending b (by omega) hlt) hp
    · exact ⟨_, i, hbody, hterm⟩
  · have happend := BasicBlock.tidy_append (ht _ hr.insertLt) hbody
    have hout := insert_outline (g := g) (i := i)
    rw [hterm] at hout
    unfold Outline.insertLast
    rw [hout]
    cases hclosed : g.terminated with
    -- a block that had a terminator is not tidy afterwards
    | true =>
        have hlt := Nat.lt_of_lt_of_le hr.insertLt ho.frame.count
        exact fun h => happend.mp (h _ hlt) (hr.terminated_iff.mp hclosed)
    -- otherwise the blocks are new and empty, and the outline opens again
    | false =>
        have hopen : (openBlocks n i g).terminated = false :=
          ho.ready.terminated_of_empty (by
            unfold block
            rw [ho.point, ho.empty _ (Nat.le_refl _) (by rw [ho.count]; omega)])
        obtain ⟨bs, c, heq⟩ := createBlocks_eq n g
        refine ⟨?_, fun b hlt => ?_⟩
        · unfold outline
          rw [hopen]
          simp only [openBlocks, heq]
          rfl
        · by_cases hge : g.blockCount ≤ b
          · rw [ho.empty b hge hlt]
            intro is t js he
            exact absurd he (by simp)
          · by_cases hi : b = g.insertBlock
            · subst hi
              exact happend.mpr (fun he => by simp [hr.terminated_iff.mpr he] at hclosed)
            · rw [hold b (by omega) hi]
              exact ht b (by omega)

/-- A condition and the branch on it. -/
theorem branch_draws {n a b : Nat} (hn : 0 < n) (hr : g.Ready)
    (hpending : ∀ b, g.blockCount < b → b < g.blockCount + n → b ∈ pending) :
    Draws pending (g.outline.branch M) g
      (openBlocks n (.condBr (g.condition M).1 a b) (g.condition M).2) := by
  obtain ⟨h1, hc⟩ := condition_grown (M := M) hr
  obtain ⟨hd, _⟩ := emit_draws (M := M) (createICmp .ne g.lastValue (.const (.int 0))) hr
  have h2 : Draws pending (((g.condition M).2.outline.insertLast true .void).map Outline.reopen)
      (g.condition M).2 (openBlocks n (.condBr (g.condition M).1 a b) (g.condition M).2) :=
    openBlocks_draws hn h1.ready trivial rfl (by rw [hc]; exact hpending)
  have h3 := hd.append hr (k := fun o => (o.insertLast true .void).map Outline.reopen) h2
  have hbranch : g.outline.branch M = ((Outline.emit M (createICmp .ne g.lastValue (.const (.int 0)))
      g.outline).map Prod.snd).bind (fun o => (o.insertLast true .void).map Outline.reopen) := by
    unfold Outline.branch
    rw [Option.bind_map]
    rfl
  rw [hbranch]
  exact h3

/-- The merge block is pending. -/
theorem openIf_draws (hr : g.Ready) : Draws [g.blockCount + 1] (g.outline.branch M) g (g.openIf M) :=
  branch_draws (n := 2) (by omega) hr (fun b h h' => by simp; omega)

/-- The `else` block and the merge block are pending. -/
theorem openIfElse_draws (hr : g.Ready) :
    Draws [g.blockCount + 1, g.blockCount + 2] (g.outline.branch M) g (g.openIfElse M) :=
  branch_draws (n := 3) (by omega) hr (fun b h h' => by simp; omega)

/-- The block behind the loop is pending. -/
theorem openBody_draws (hr : g.Ready) : Draws [g.blockCount + 1] (g.outline.branch M) g (g.openBody M) :=
  branch_draws (n := 2) (by omega) hr (fun b h h' => by simp; omega)

theorem openLoop_draws (hr : g.Ready) : Draws [] g.outline.jump g g.openLoop :=
  openBlocks_draws (n := 1) (by omega) hr trivial rfl (fun b h h' => by omega)

/-- A pending block that has stayed empty. -/
structure Pending (next : Nat) (g : CodeGenerator) : Prop where
  lt : next < g.blockCount
  ne : next ≠ g.insertBlock
  empty : (g.blocks next).body = []

/-- What comes after a branch, in a block that was pending. -/
theorem Draws.goOn {next : Nat} (h : Draws (next :: pending) o g g') (he : g'.block.Ended)
    (hp : Pending next g') (hg : Grown g (g'.setInsertPoint next)) :
    Draws pending (o.map Outline.reopen) g (g'.setInsertPoint next) := by
  have hclosed : (g'.setInsertPoint next).terminated = false := hg.ready.terminated_of_empty hp.empty
  refine h.map hg (h.leaves.goOn he) ?_ .rfl
  unfold outline
  rw [hclosed]
  rfl

/-- The jump at the end of a branch, unless there is a terminator. -/
theorem branchUnlessTerminated_draws (target : Nat) (hr : g.Ready) :
    (g.branchUnlessTerminated target).block.Ended ∧
      Draws [] (some { g.outline.closeBranch with closed := true }) g (g.branchUnlessTerminated target) := by
  unfold branchUnlessTerminated
  cases ht : g.terminated with
  -- the branch returned or jumped itself
  | true =>
      have hclose : g.outline.closeBranch = g.outline.reopen := if_pos ht
      refine ⟨hr.terminated_iff.mp ht, .refl hr, .straight rfl rfl, fun htidy => ⟨?_, htidy⟩⟩
      rw [hclose]
      unfold outline
      rw [if_pos rfl, ht]
      rfl
  | false =>
      have hclose : g.outline.closeBranch = { g.outline with nextId := g.nextId + 1, closed := false } :=
        if_neg (by simp [outline, ht])
      have hins := Draws.insert hr (i := .br target) trivial
      have hended : (g.insert (.br target)).block.Ended :=
        hins.grown.ready.terminated_iff.mp insert_terminated
      rw [if_neg (by simp), hclose]
      refine ⟨hended, hins.grown, hins.leaves, fun htidy => ?_⟩
      have hs := hins.sketch htidy
      rw [insert_outline, ht] at hs
      exact ⟨outline_of_insert, hs.2⟩

/-- The jump at the end of a branch stays in its block. -/
theorem branchUnlessTerminated_place (g : CodeGenerator) (target : Nat) :
    (g.branchUnlessTerminated target).insertBlock = g.insertBlock ∧
      (g.branchUnlessTerminated target).blockCount = g.blockCount ∧
      ∀ b, b ≠ g.insertBlock → (g.branchUnlessTerminated target).blocks b = g.blocks b := by
  unfold branchUnlessTerminated
  split
  · exact ⟨rfl, rfl, fun _ _ => rfl⟩
  · exact ⟨rfl, rfl, fun _ hne => insert_blocks_ne hne⟩

/-- So it leaves pending blocks empty. -/
theorem Pending.branchUnlessTerminated {next target : Nat} (hp : Pending next g) :
    Pending next (g.branchUnlessTerminated target) := by
  obtain ⟨hi, hc, hb⟩ := branchUnlessTerminated_place g target
  exact ⟨hc ▸ hp.lt, hi ▸ hp.ne, by rw [hb _ hp.ne]; exact hp.empty⟩

/-- A visitor does not touch pending blocks. -/
theorem Pending.visit {next : Nat} (hp : Pending next g) (h : Frame g g') : Pending next g' where
  lt := Nat.lt_of_lt_of_le hp.lt h.count
  ne := by
    rcases h.insertBlock with he | he
    · rw [he]; exact hp.ne
    · have := hp.lt
      omega
  empty := by rw [h.others next hp.lt hp.ne]; exact hp.empty

/-- All new blocks but the first are pending. -/
theorem Opens.isPending {n : Nat} (h : Opens n g g') (next : Nat) (hlt : g.blockCount < next)
    (hlt' : next < g.blockCount + n) : Pending next g' where
  lt := by rw [h.count]; exact hlt'
  ne := by rw [h.point]; omega
  empty := by rw [h.empty next (by omega) (by rw [h.count]; exact hlt')]

/-- **The end of a branch.** -/
theorem Draws.closeBranch {next target : Nat} (hr : g.Ready) (h : Draws (next :: pending) o g g')
    (hp : Pending next g') (hg : Grown g (g'.closeBranch target next)) :
    Draws pending (o.map Outline.closeBranch) g (g'.closeBranch target next) := by
  obtain ⟨hended, hb⟩ := branchUnlessTerminated_draws target h.grown.ready
  have h2 := h.trans hr (k := fun o => some { o.closeBranch with closed := true }) hb
  have h3 := h2.goOn hended hp.branchUnlessTerminated hg
  have ho : (o.bind (fun o => some { o.closeBranch with closed := true })).map Outline.reopen =
      o.map Outline.closeBranch := by
    cases o with
    | none => rfl
    | some o =>
        have hclose : Outline.reopen { o.closeBranch with closed := true } = o.closeBranch := by
          unfold Outline.closeBranch
          split <;> rfl
        exact congrArg some hclose
  exact ho ▸ h3

/-- The end of a loop's body. -/
theorem Draws.closeLoop {next target : Nat} (hr : g.Ready) (h : Draws (next :: pending) o g g')
    (hp : Pending next g') (hg : Grown g (g'.closeLoop target next)) :
    Draws pending (o.bind Outline.jump) g (g'.closeLoop target next) := by
  have hins : Draws [] (g'.outline.insertLast true .void) g' (g'.createBrLast target) :=
    Draws.insertLast (i := .br target) h.grown.ready trivial
  have h2 := h.trans hr hins
  have hended : (g'.createBrLast target).block.Ended :=
    hins.grown.ready.terminated_iff.mp (insert_terminated (i := .br target))
  have hp2 : Pending next (g'.createBrLast target) :=
    ⟨hp.lt, hp.ne, (insert_body_ne (i := .br target) hp.ne).trans hp.empty⟩
  have h3 := h2.goOn hended hp2 hg
  have ho : (o.bind (fun o => o.insertLast true .void)).map Outline.reopen = o.bind Outline.jump := by
    cases o <;> rfl
  exact ho ▸ h3

/-! ## Slots, calls and functions -/

/-- Tidiness is read off the bodies. -/
theorem tidy_congr (hc : g'.blockCount = g.blockCount)
    (hb : ∀ b < g.blockCount, (g'.blocks b).body = (g.blocks b).body) : g'.Tidy ↔ g.Tidy := by
  unfold Tidy BasicBlock.Tidy
  rw [hc]
  exact forall₂_congr (fun b hlt => by rw [hb b hlt])

/-- So is whether the block at hand is closed. -/
theorem terminated_congr (hr : g.Ready) (hr' : g'.Ready) (hb : g'.block.body = g.block.body) :
    g'.terminated = g.terminated := by
  rw [Bool.eq_iff_iff, hr.terminated_iff, hr'.terminated_iff]
  unfold BasicBlock.Ended
  rw [hb]

/-- A slot is found in the same scope, or hoisted: no block gets an instruction behind a terminator. -/
theorem slotFor_draws (x : Name) (ty : Ty) (hr : g.Ready) :
    ∃ a g1, g.slotFor x ty = .ok (a, g1) ∧ a = (g.outline.slotFor x ty).1 ∧
      Draws [] (some (g.outline.slotFor x ty).2) g g1 := by
  unfold Outline.slotFor
  have hlookup : g.outline.lookup x = g.lookup x := rfl
  rcases slotFor_cases hr.scopes with ⟨a, hl, h⟩ | ⟨hl, h⟩
  · rw [hlookup, hl]
    exact ⟨a, g, h, rfl, .refl hr⟩
  · rw [hlookup, hl]
    have hg := Grown.addSlot ty hr hl
    have hbody (b : Nat) : ((g.addSlot x ty).blocks b).body = (g.blocks b).body :=
      createEntryAlloca_body ty hr b
    -- an alloca in front of the entry block ends no block
    have hterm := terminated_congr hr hg.ready (hbody _)
    have hslot : g.outline.newSlot ty = g.newSlot ty := by
      unfold Outline.newSlot newSlot
      rw [hr.parent]
      rfl
    refine ⟨_, _, h, hslot.symm, hg, .straight rfl rfl, fun ht => ⟨?_, ?_⟩⟩
    · unfold outline
      rw [hterm]
      show _ = Outline.addSlot x ty g.outline
      unfold Outline.addSlot
      rw [hslot]
      rfl
    · have hcongr : (g.addSlot x ty).Tidy ↔ g.Tidy := tidy_congr rfl (fun b _ => hbody b)
      exact hcongr.mpr ht

/-- The outline keeps the functions of the module. -/
theorem getFunc_draws (name : String) (hr : g.Ready) :
    Draws [] (some (g.outline.getFunc name)) g (g.getFunc name).2 := by
  have hg := Grown.getFunc name hr
  have hsame : (g.getFunc name).2.outline = g.outline.getFunc name ∧
      (g.getFunc name).2.blockCount = g.blockCount ∧ (g.getFunc name).2.blocks = g.blocks ∧
      (g.getFunc name).2.insertBlock = g.insertBlock := by
    unfold getFunc Outline.getFunc
    have hfind : g.outline.functions.findIdx? (fun f => f.name = name) =
        g.functions.findIdx? (fun f => f.name = name) := rfl
    rw [hfind]
    cases g.functions.findIdx? (fun f => f.name = name) <;> exact ⟨rfl, rfl, rfl, rfl⟩
  obtain ⟨ho, hc, hb, hi⟩ := hsame
  exact ⟨hg, .straight hc hi, fun ht => ⟨ho, (tidy_congr hc (fun b _ => by rw [hb])).mpr ht⟩⟩

/-- A function starts with an open block and an empty scope. -/
theorem openFunction_outline (name : Option Name) (n : Nat) (hr : g.Ready) :
    (g.openFunction M name n).outline = g.outline.openFunction M name n := by
  have ho := openFunction_opened (M := M) name n g
  have hclosed := (ho.ready hr).terminated_of_empty (by
    unfold block
    rw [ho.point, ho.blocks, createBlock_new])
  unfold outline
  rw [hclosed]
  cases name <;> rfl

/-- The slot and the store of a parameter. -/
theorem addParam_draws {f k : Nat} {x : Name} (hr : g.Ready) (h : g.lookup x = none) :
    Draws [] (g.outline.addParam x) g (g.addParam f k x) := by
  have h1 : Draws [] (g.outline.insert false) g (g.createAlloca .i32) :=
    Draws.insert (i := .alloca (g.newSlot .i32)) hr rfl
  have h2 : Draws [] ((g.createAlloca .i32).outline.insert false) (g.createAlloca .i32) (g.storeParam f k) :=
    Draws.insert (i := .store (.arg f k) (g.newSlot .i32)) h1.grown.ready trivial
  have hslot : g.outline.newSlot .i32 = g.newSlot .i32 := by
    unfold Outline.newSlot newSlot
    rw [hr.parent]
    rfl
  refine (h1.trans hr h2).map (.addParam hr h) (.straight rfl rfl) ?_ .rfl
  rw [hslot]
  rfl

/-- A visitor draws the outline. -/
abbrev Sketches (o : Option Outline) (g : CodeGenerator) (r : Except Thrown CodeGenerator) : Prop :=
  Ensures r (Draws [] o g) (fun _ => True)

/-- A visitor step after another. -/
theorem Sketches.andThen {r : Except Thrown CodeGenerator}
    {f : CodeGenerator → Except Thrown CodeGenerator} {k : Outline → Option Outline} (hr : g.Ready)
    (h : Sketches o g r) (hf : ∀ g1, g1.Ready → Sketches (k g1.outline) g1 (f g1)) :
    Sketches (o.bind k) g (r >>= f) :=
  Ensures.bind h (fun g1 h1 => (hf g1 h1.grown.ready).weaken (fun _ h2 => h1.trans hr h2) (fun _ => id))

/-- The parameters in order. -/
theorem bindParams_sketches (f k : Nat) (ps : List Name) (hr : g.Ready) :
    Sketches (g.outline.bindParams ps) g (bindParams f ps k g) := by
  induction ps generalizing g k with
  | nil => exact .ok (.refl hr)
  | cons x ps ih =>
      cases hl : g.lookup x with
      | some a =>
          rw [bindParams_clash hr.scopes (by rw [hl]; rfl)]
          exact .error trivial
      | none =>
          rw [bindParams_cons hr.scopes hl]
          have h := addParam_draws (f := f) (k := k) hr hl
          exact (ih (k + 1) h.grown.ready).weaken (fun _ h2 => h.trans hr h2) (fun _ => id)

theorem createLoad_draws (a : AllocaInst) (hr : g.Ready) :
    Draws [] (g.outline.insertLast false a.ty) g (g.createLoad a) :=
  .insertLast (i := .load g.nextId a) hr trivial

/-- A load is an instruction, the name of a function is none. -/
theorem visitVariable_sketches (x : Name) (hr : g.Ready) :
    Sketches (g.outline.visitVariable x) g (g.visitVariable x) := by
  unfold visitVariable Outline.visitVariable
  have hlookup : g.outline.lookup x = g.lookup x := rfl
  have hfunction : g.outline.functionTable x = g.functionTable x := rfl
  rw [hlookup, hfunction]
  cases g.lookup x with
  | some a => exact .ok (createLoad_draws a hr)
  | none =>
      cases g.functionTable x with
      | some f => exact .ok (Draws.refl hr).setLast
      | none => exact .error trivial

/-- A store is an instruction. -/
theorem assign_sketches (x : Name) (hr : g.Ready) : Sketches (g.outline.assign x) g (g.assign x) := by
  obtain ⟨a, g1, h, _, hd⟩ := slotFor_draws x g.lastValue.ty hr
  rw [assign, h]
  exact .ok (hd.trans hr (k := Outline.insert false)
    (.insert (i := .store g.lastValue a) hd.grown.ready trivial))

theorem createCall_draws (arity : Nat) (callee : Value) (args : List Value) (hr : g.Ready) :
    Draws [] (g.outline.insertLast false .i32) g (g.createCall arity callee args) :=
  .insertLast (i := .call g.nextId arity callee args) hr trivial

/-- So are the call of `scanf` and the load behind it. -/
theorem visitInput_sketches (hr : g.Ready) : Sketches g.outline.visitInput g g.visitInput := by
  obtain ⟨a, g1, h, ha, hd1⟩ := slotFor_draws inputVar .i32 hr
  have hd2 := getFunc_draws "scanf" hd1.grown.ready
  have hd3 := createCall_draws 2 (.const (.func (g1.getFunc "scanf").1))
    [.const (.str "%d"), .slot a] hd2.grown.ready
  have hd4 := createLoad_draws a hd3.grown.ready
  rw [visitInput, h]
  have h12 := hd1.trans hr (k := fun o => some (o.getFunc "scanf")) hd2
  have h123 := h12.trans hr (k := fun o => o.insertLast false .i32) hd3
  have h1234 := h123.trans hr (k := fun o => o.insertLast false a.ty) hd4
  refine .ok ?_
  rw [ha] at h1234 ⊢
  exact h1234

/-- And the call of `printf`. -/
theorem print_draws (hr : g.Ready) : Draws [] g.outline.print g g.print := by
  have hd := getFunc_draws "printf" hr
  exact hd.trans hr (k := fun o => o.insertLast false .i32) (createCall_draws _ _ _ hd.grown.ready)

/-- The `ret` at the end of a body asks whether the block is closed. -/
theorem returnUnlessTerminated_draws (v : Value) (hr : g.Ready) :
    (g.returnUnlessTerminated v).block.Ended ∧
      Draws [] (some { g.outline with
        nextId := if g.terminated then g.nextId else g.nextId + 1
        closed := true }) g (g.returnUnlessTerminated v) := by
  unfold returnUnlessTerminated
  cases ht : g.terminated with
  | true =>
      refine ⟨hr.terminated_iff.mp ht, .refl hr, .straight rfl rfl, fun htidy => ⟨?_, htidy⟩⟩
      unfold outline
      rw [if_pos rfl, if_pos rfl, ht]
  | false =>
      have hins := Draws.insert hr (i := .ret v) trivial
      have hended : (g.insert (.ret v)).block.Ended :=
        hins.grown.ready.terminated_iff.mp insert_terminated
      rw [if_neg (by simp), if_neg (by simp)]
      refine ⟨hended, hins.grown, hins.leaves, fun htidy => ?_⟩
      have hs := hins.sketch htidy
      rw [insert_outline, ht] at hs
      exact ⟨outline_of_insert, hs.2⟩

/-- The end of a function. -/
theorem leave_draws (hr : g.Ready) (ho : Opened g g1) (h : Draws [] o g1 g2) :
    Draws [] (o.map (Outline.leaveFunction g.outline)) g (closeFunction g g2) := by
  obtain ⟨hended, hret⟩ := returnUnlessTerminated_draws g2.lastValue h.grown.ready
  have hg := Grown.leave hr ho h.grown
  have h3 := h.grown.trans (ho.ready hr) hret.grown
  have hleaves := Leaves.trans hret.grown.frame h.leaves hret.leaves
  refine ⟨hg, fun b hlt hne _ hor => ?_, fun ht => ?_⟩
  · by_cases hb : b = (g2.returnUnlessTerminated g2.lastValue).insertBlock
    · subst hb
      exact hended
    · refine hleaves b hlt hb List.not_mem_nil ?_
      rw [ho.count, ho.point]
      have := hor.resolve_right hne
      omega
  -- the entry block of the function is empty at first
  · have ht1 : g1.Tidy := by
      intro b hlt
      by_cases hb : b < g.blockCount
      · rw [ho.old hb]
        exact ht b hb
      · have : b = g.blockCount := by have := ho.count; omega
        subst this
        rw [ho.blocks, createBlock_new]
        intro is t js he
        exact absurd he (by simp)
    have hs := h.sketch ht1
    cases o with
    | none => exact hret.grown.frame.not_tidy hs
    | some o2 =>
        obtain ⟨rfl, ht2⟩ := hs
        obtain ⟨hout, ht3⟩ := hret.sketch ht2
        refine ⟨?_, ht3⟩
        -- back in the enclosing block, which the function left untouched
        have hclosed : (closeFunction g g2).terminated = g.terminated := by
          have hlt := hr.insertLt
          refine terminated_congr hr hg.ready ?_
          have hothers := h3.frame.others g.insertBlock (by rw [ho.count]; omega) (by rw [ho.point]; omega)
          rw [ho.old hlt] at hothers
          exact hothers
        have houtline : (closeFunction g g2).outline =
            { (g2.returnUnlessTerminated g2.lastValue).outline with
              scopeStack := g2.scopeStack.tail
              currentFunction := g.currentFunction
              lastValue := .const (.func g.functions.length)
              closed := g.terminated } := by
          unfold outline
          rw [hclosed]
          rfl
        rw [houtline, hout]
        rfl

mutual

/-- **Visitors draw the outline.** -/
theorem visit_sketches : ∀ (e : Expression) {g : CodeGenerator}, g.Ready →
    Sketches (Outline.visit M L e g.outline) g (visit M L e g)
  | .number _, g, hr => .ok (Draws.refl hr).setLast
  | .var x, g, hr => visitVariable_sketches x hr
  | .assignmentExpr x e, g, hr =>
      .andThen hr (visit_sketches e hr) (fun _ h1 => assign_sketches x h1)
  | .binaryOperator op a b, g, hr =>
      .andThen hr (visit_sketches a hr) (fun g1 h1 =>
        .andThen h1 (visit_sketches b h1) (fun _ h2 => .ok (emitLast_draws _ h2))
          (k := fun o => o.emitLast M (L.binary op g1.lastValue o.lastValue)))
  | .unaryOperator op e, g, hr =>
      .andThen hr (visit_sketches e hr) (fun _ h1 => .ok (emitLast_draws _ h1))
        (k := fun o => o.emitLast M (L.unary op o.lastValue))
  | .input, g, hr => visitInput_sketches hr
  | .blockExpr ss, g, hr => visitStmts_sketches ss hr
  | .func f ps body, g, hr => by
      have ho := openFunction_opened (M := M) f ps.length g
      have hr0 := ho.ready hr
      have hparams := bindParams_sketches g.functions.length 0 ps hr0
      rw [openFunction_outline f ps.length hr] at hparams
      rw [visit, Outline.visit]
      refine Ensures.bind hparams (fun g1 h1 => ?_)
      refine (visit_sketches body h1.grown.ready).bind (fun g2 h2 => ?_)
      rw [leaveFunction_ok h2.grown.ready.scopes]
      exact .ok ((leave_draws hr ho (h1.trans hr0 (k := Outline.visit M L body) h2)).congr (by
        simp only [Outline.enterFunction, Option.bind_eq_bind, Option.map_eq_bind, Option.bind_assoc]
        rfl))
  | .call t es, g, hr => by
      rw [visit, Outline.visit]
      refine .andThen hr (visit_sketches t hr) (fun g1 h1 => ?_)
      refine (visitArgs_sketches es h1).bind (fun r h2 => .ok ?_)
      exact h2.trans h1 (k := fun o => o.insertLast false .i32) (createCall_draws _ _ _ h2.grown.ready)

/-- So do statements. -/
theorem visitStmt_sketches : ∀ (s : Statement) {g : CodeGenerator}, g.Ready →
    Sketches (Outline.visitStmt M L s g.outline) g (visitStmt M L s g)
  | .emptyStmt, g, hr => .ok (.refl hr)
  | .exprStmt e, g, hr => visit_sketches e hr
  | .ifStmt c t none, g, hr => by
      rw [visitStmt, Outline.visitStmt]
      refine .andThen hr (visit_sketches c hr) (fun g1 h1 => ?_)
      have ho := openIf_opens (M := M) h1
      have hd := openIf_draws (M := M) h1
      refine (visit_sketches t ho.ready).bind (fun g2 h2 => .ok ?_)
      have hd2 := hd.trans h1 (k := Outline.visit M L t) h2
      have hb := h2.grown.trans ho.ready (branchUnlessTerminated_grown h2.grown.ready (g1.blockCount + 1))
      have hg : Grown g1 (g2.closeBranch (g1.blockCount + 1) (g1.blockCount + 1)) :=
        .goOn h1 ho hb (by omega) (by omega)
      have hp := (ho.isPending (g1.blockCount + 1) (by omega) (by omega)).visit h2.grown.frame
      refine (hd2.closeBranch h1 hp hg).congr ?_
      simp only [Option.bind_eq_bind, Option.map_eq_bind, Option.bind_assoc]
      rfl
  | .ifStmt c t (some e), g, hr => by
      rw [visitStmt, Outline.visitStmt]
      refine .andThen hr (visit_sketches c hr) (fun g1 h1 => ?_)
      have ho := openIfElse_opens (M := M) h1
      have hd := openIfElse_draws (M := M) h1
      refine (visit_sketches t ho.ready).bind (fun g2 h2 => ?_)
      have hd2 := hd.trans h1 (k := Outline.visit M L t) h2
      have hb := h2.grown.trans ho.ready (branchUnlessTerminated_grown h2.grown.ready (g1.blockCount + 2))
      have hg : Grown g1 (g2.closeBranch (g1.blockCount + 2) (g1.blockCount + 1)) :=
        .goOn h1 ho hb (by omega) (by omega)
      have hp := (ho.isPending (g1.blockCount + 1) (by omega) (by omega)).visit h2.grown.frame
      have hpm := (ho.isPending (g1.blockCount + 2) (by omega) (by omega)).visit h2.grown.frame
      have hd3 := hd2.closeBranch h1 hp hg
      -- the merge block is still pending while the `else` branch is visited
      have hpm3 : Pending (g1.blockCount + 2) (g2.closeBranch (g1.blockCount + 2) (g1.blockCount + 1)) :=
        ⟨hpm.branchUnlessTerminated.lt, by show g1.blockCount + 2 ≠ g1.blockCount + 1; omega,
          hpm.branchUnlessTerminated.empty⟩
      refine (visit_sketches e hg.ready).bind (fun g4 h4 => .ok ?_)
      have hd4 := hd3.trans h1 (k := Outline.visit M L e) h4
      have hpm4 := hpm3.visit h4.grown.frame
      have hparent : (g4.blocks (g1.blockCount + 2)).parent = g1.currentFunction := by
        rw [h4.grown.frame.parent _ hpm3.lt]
        exact (hb.frame.parent _ (by rw [ho.count]; omega)).trans
          (by rw [ho.empty _ (by omega) (by rw [ho.count]; omega)])
      have hb4 := h4.grown.trans hg.ready (branchUnlessTerminated_grown h4.grown.ready (g1.blockCount + 2))
      have hg4 : Grown g1 (g4.closeBranch (g1.blockCount + 2) (g1.blockCount + 2)) := by
        refine (hg.trans h1 hb4).setInsertPoint (by omega) hpm4.branchUnlessTerminated.lt ?_
        rw [(branchUnlessTerminated_place _ _).2.2 _ hpm4.ne]
        exact hparent
      refine (hd4.closeBranch h1 hpm4 hg4).congr ?_
      simp only [Option.bind_eq_bind, Option.map_eq_bind, Option.bind_assoc]
      rfl
  | .whileStmt c b, g, hr => by
      have hl := openLoop_opens hr
      rw [visitStmt, Outline.visitStmt]
      refine (visit_sketches c hl.ready).bind (fun g1 h1 => ?_)
      have hr1 := h1.grown.ready
      have ho := openBody_opens (M := M) hr1
      have hd := openBody_draws (M := M) hr1
      refine (visit_sketches b ho.ready).bind (fun g2 h2 => .ok ?_)
      have hd2 := hd.trans hr1 (k := Outline.visit M L b) h2
      have hb : Grown (g1.openBody M) (g2.createBrLast g.blockCount) :=
        h2.grown.trans ho.ready (Grown.insert (i := .br g.blockCount) h2.grown.ready trivial).setLast
      have hg : Grown g1 (g2.closeLoop g.blockCount (g1.blockCount + 1)) :=
        .goOn hr1 ho hb (by omega) (by omega)
      have hp := (ho.isPending (g1.blockCount + 1) (by omega) (by omega)).visit h2.grown.frame
      have hd3 := hd2.closeLoop hr1 hp hg
      have hd4 := h1.trans hl.ready
        (k := fun o => ((o.branch M).bind (Outline.visit M L b)).bind Outline.jump) hd3
      have hd5 := (openLoop_draws hr).trans hr (k := fun o => (Outline.visit M L c o).bind
        (fun o => ((o.branch M).bind (Outline.visit M L b)).bind Outline.jump)) hd4
      exact hd5.congr (by simp [Option.bind_assoc])
  | .printStmt e, g, hr =>
      .andThen hr (visit_sketches e hr) (fun _ h1 => .ok (print_draws h1)) (k := Outline.print)
  | .returnStmt none, g, hr => .ok (.insert (i := .ret (.const (.int 0))) hr trivial)
  | .returnStmt (some e), g, hr =>
      .andThen hr (visit_sketches e hr)
        (fun g1 h1 => .ok (.insert (i := .ret g1.lastValue) h1 trivial)) (k := Outline.insert true)

theorem visitStmts_sketches : ∀ (ss : List Statement) {g : CodeGenerator}, g.Ready →
    Sketches (Outline.visitStmts M L ss g.outline) g (visitStmts M L ss g)
  | [], _, hr => .ok (.refl hr)
  | s :: ss, _, hr => .andThen hr (visitStmt_sketches s hr) (fun _ h1 => visitStmts_sketches ss h1)

/-- Of arguments the outline keeps what they do to the block. -/
theorem visitArgs_sketches : ∀ (es : List Expression) {g : CodeGenerator}, g.Ready →
    Ensures (visitArgs M L es g) (fun r => Draws [] (Outline.visitArgs M L es g.outline) g r.2)
      (fun _ => True)
  | [], _, hr => .ok (.refl hr)
  | e :: es, _, hr => by
      refine (visit_sketches e hr).bind (fun g1 h1 => ?_)
      refine (visitArgs_sketches es h1.grown.ready).bind (fun r h2 => .ok ?_)
      exact h1.trans hr (k := Outline.visitArgs M L es) h2

end

/-! ## Whole programs -/

theorem enterMain_outline : (enterMain M).outline = .init := rfl

theorem enterMain_tidy : (enterMain M).Tidy := by
  intro b hb is t js he
  cases Nat.lt_one_iff.mp hb
  have hempty : ((enterMain M).blocks 0).body = [] := rfl
  exact absurd (hempty ▸ he) (by simp)

/-- Every block of a program that compiles is ended, and they are tidy exactly if the pass goes through. -/
theorem visitProgram_sketches (p : Program) {g : CodeGenerator} (h : visitProgram M L p = .ok g) :
    g.Ready ∧ (∀ b < g.blockCount, (g.blocks b).Ended) ∧ (g.Tidy ↔ p.StraightLine M L) := by
  obtain ⟨g1, h1, hg⟩ := bind_ok_iff.mp h
  injection hg with hg
  subst hg
  have hd := (visitStmts_sketches (M := M) (L := L) p.stmts enterMain_ready).of_ok h1
  obtain ⟨hended, hret⟩ := returnUnlessTerminated_draws (.const (.int 0)) hd.grown.ready
  have hleaves := Leaves.trans hret.grown.frame hd.leaves hret.leaves
  refine ⟨hret.grown.ready, fun b hb => ?_, ?_⟩
  · by_cases hi : b = (g1.returnUnlessTerminated (.const (.int 0))).insertBlock
    · subst hi
      exact hended
    · refine hleaves b hb hi List.not_mem_nil ?_
      show 1 ≤ b ∨ b = 0
      omega
  · have hs := hd.sketch enterMain_tidy
    rw [enterMain_outline] at hs
    unfold Program.StraightLine
    cases ho : Outline.visitStmts M L p.stmts .init with
    | none =>
        rw [ho] at hs
        exact ⟨fun ht => absurd ht (hret.grown.frame.not_tidy hs), fun h => by cases h⟩
    | some o =>
        rw [ho] at hs
        exact ⟨fun _ => rfl, fun _ => (hret.sketch hs.2).2⟩

/-- The blocks of a finished program are well terminated exactly if the outline goes through. -/
theorem visitProgram_wellTerminated (p : Program) {g : CodeGenerator} (h : visitProgram M L p = .ok g) :
    (∀ b < g.blockCount, (g.blocks b).WellTerminated) ↔ p.StraightLine M L := by
  obtain ⟨hr, hended, htidy⟩ := visitProgram_sketches p h
  rw [← htidy]
  constructor
  · exact fun hw b hb => ((BasicBlock.wellTerminated_iff (hr.onlyAllocas b hb)).mp (hw b hb)).2
  · exact fun ht b hb => (BasicBlock.wellTerminated_iff (hr.onlyAllocas b hb)).mpr ⟨hended b hb, ht b hb⟩

end CodeGenerator

section WellTerminated

variable {M : Llvm} {L : Lowering}

/-- **When blocks are well terminated.** On an accepted program, once the generator is done, every block has
    one terminator, at its end, exactly if no instruction follows a terminator along the text. -/
theorem well_terminated_iff {p : Program} (hp : Accepted p) :
    (∀ g, CodeGenerator.visitProgram M L p = .ok g →
        ∀ b < g.blockCount, (g.blocks b).WellTerminated) ↔
      (ParamsFresh p.events → p.StraightLine M L) := by
  rw [← visitProgram_ok_iff (M := M) (L := L) hp]
  constructor
  · rintro h ⟨g, hg⟩
    exact (CodeGenerator.visitProgram_wellTerminated p hg).mp (h g hg)
  · intro h g hg
    exact (CodeGenerator.visitProgram_wellTerminated p hg).mpr (h ⟨g, hg⟩)

/-- A `return` that is the last statement of its block. -/
theorem well_terminated_iff_factorial :
    ∃ g, CodeGenerator.visitProgram .standard .source factorial = .ok g ∧
      ∀ b < g.blockCount, (g.blocks b).WellTerminated := by
  have hp : Accepted factorial := by decide
  have hfresh : ParamsFresh factorial.events := (run_ok_iff (program_resolved hp)).mp ⟨_, rfl⟩
  have hstraight : factorial.StraightLine .standard .source := by decide +kernel
  obtain ⟨g, hg⟩ := (visitProgram_ok_iff (M := .standard) (L := .source) hp).mpr hfresh
  exact ⟨g, hg, (well_terminated_iff hp).mpr (fun _ => hstraight) g hg⟩

/-- `while (1) { return 1; }` -/
def returnInLoop : Program where
  stmts := [.whileStmt (.number 1) (.blockExpr [.returnStmt (some (.number 1))])]

/-- The back edge of a loop does not ask whether the body has returned. -/
theorem well_terminated_returnInLoop : ¬ ∀ p, Accepted p →
    ∀ g, CodeGenerator.visitProgram .standard .source p = .ok g →
      ∀ b < g.blockCount, (g.blocks b).WellTerminated := by
  intro h
  have hfresh : ParamsFresh returnInLoop.events := by
    intro a name ps b heq
    exact absurd heq (by
      simp [returnInLoop, Program.events, eventsOfStmts, Statement.events, Expression.events])
  have hiff := visitProgram_ok_iff (M := .standard) (L := .source) (p := returnInLoop) (by decide)
  obtain ⟨g, hg⟩ := hiff.mpr hfresh
  have hstraight := (CodeGenerator.visitProgram_wellTerminated returnInLoop hg).mp
    (h returnInLoop (by decide) g hg)
  exact absurd hstraight (by decide)

end WellTerminated

end ParaCL
