import ParaCL.Ast.Renaming
import ParaCL.Codegen.Folding
import ParaCL.Codegen.Growth

/-!
# `Codegen.InputSlot` — the slot that `?` reads into

In a program without functions everything is generated in `main`, which is entered once: no value but the
callee of a `printf` or `scanf` is a function (`Value.IsScalar`), so that a call in the program calls nothing.
If the program does not use the name `__input_var` itself, only `scanf` writes the hidden slot (`Sole`): every
store goes to the slot of another name, every `scanf` reads into the hidden one, all slots are allocated at
the front of the entry block, and no branch leads back there.

`own` says that the program does use the name; then a store may go to the hidden slot as well.
-/

namespace ParaCL

open Lib

/-! ## Values that are no functions -/

/-- If the value is known when the code is generated, it is an integer, a bit or poison. -/
def Value.IsScalar (v : Value) : Prop := ∀ c, v = .const c → c.isScalar

theorem Value.isScalar_const {c : Constant} (h : c.isScalar) : (Value.const c).IsScalar := by
  rintro d ⟨⟩
  exact h

theorem Value.isScalar_inst {id : Nat} {ty : Ty} : (Value.inst id ty).IsScalar := by
  rintro d ⟨⟩

/-- What an instruction computes is no address. -/
theorem Opcode.evalLlvm_scalar {opcode : Opcode} {cs : List Constant} {c : Constant}
    (h : opcode.evalLlvm cs = some c) : c.isScalar := by
  unfold Opcode.evalLlvm at h
  split at h
  case h_5 =>
    unfold Opcode.evalInt at h
    split at h
    all_goals try split at h
    all_goals cases h
    all_goals rfl
  case h_6 =>
    unfold Opcode.evalBits at h
    split at h
    case h_1 =>
      obtain ⟨b, _, rfl⟩ := Option.map_eq_some_iff.mp h
      rfl
    all_goals cases h
    all_goals rfl
  all_goals cases h
  all_goals rfl

/-- What folds to a constant folds to a scalar, in every interpretation of the operators. -/
theorem Opcode.eval_scalar {I : Interpretation} {opcode : Opcode} {cs : List Constant} {c : Constant}
    (h : opcode.eval I cs = some c) : c.isScalar := by
  unfold Opcode.eval at h
  split at h
  · obtain ⟨v, _, rfl⟩ := Option.map_eq_some_iff.mp h
    rfl
  · obtain ⟨v, _, rfl⟩ := Option.map_eq_some_iff.mp h
    rfl
  · exact evalLlvm_scalar h

namespace Emit

variable {α β : Type}

/-- The calls are made with scalars, and make a result with `Q` of scalars. -/
def Handles (Q : α → Prop) : Emit α → Prop
  | .pure a => Q a
  | .create _ args next => (∀ a ∈ args, a.IsScalar) ∧ ∀ v : Value, v.IsScalar → (next v).Handles Q

/-- A call on scalars gives a scalar, folded or not. -/
theorem Handles.call {opcode : Opcode} {args : List Value} (h : ∀ a ∈ args, a.IsScalar) :
    (call opcode args).Handles Value.IsScalar := ⟨h, fun _ hv => hv⟩

/-- A lowering in two steps hands its scalars on. -/
theorem Handles.bind {Q : α → Prop} {R : β → Prop} {m : Emit α} {f : α → Emit β} (hm : m.Handles Q)
    (hf : ∀ a, Q a → (f a).Handles R) : (m >>= f).Handles R := by
  induction m with
  | pure a => exact hf a hm
  | create opcode args next ih => exact ⟨hm.1, fun v hv => ih v (hm.2 v hv)⟩

end Emit

/-- Operators make scalars of scalars. -/
structure Lowering.Scalar (L : Lowering) : Prop where
  binary : ∀ op l r, l.IsScalar → r.IsScalar → (L.binary op l r).Handles Value.IsScalar
  unary : ∀ op v, v.IsScalar → (L.unary op v).Handles Value.IsScalar

section Source

variable {l r v : Value}

theorem zeroOf_scalar (ty : Ty) : (zeroOf ty).IsScalar := by
  unfold zeroOf
  split
  · exact Value.isScalar_const rfl
  · exact Value.isScalar_const rfl
  · rintro c ⟨⟩

theorem scalar_pair (hl : l.IsScalar) (hr : r.IsScalar) : ∀ a ∈ [l, r], a.IsScalar := by
  simp [hl, hr]

/-- A bit that is widened is a scalar. -/
theorem createZExt_handles (hv : v.IsScalar) : (createZExt v).Handles Value.IsScalar := by
  unfold createZExt
  split
  · exact hv
  · exact .call (by simp [hv])

/-- A comparison gives a scalar. -/
theorem lowerCompare_handles (p : Predicate) (hl : l.IsScalar) (hr : r.IsScalar) :
    (lowerCompare p l r).Handles Value.IsScalar :=
  .bind (.call (scalar_pair hl hr)) (fun _ hv => createZExt_handles hv)

/-- So does a connective, for which both sides become bits first. -/
theorem lowerLogical_handles (opcode : Opcode) (hl : l.IsScalar) (hr : r.IsScalar) :
    (lowerLogical opcode l r).Handles Value.IsScalar :=
  .bind (.call (scalar_pair hl (zeroOf_scalar _))) fun _ h1 =>
    .bind (.call (scalar_pair hr (zeroOf_scalar _))) fun _ h2 =>
      .bind (.call (scalar_pair h1 h2)) fun _ hv => createZExt_handles hv

/-- **No operator makes a function**, however it is lowered. -/
theorem Lowering.source_scalar : Lowering.source.Scalar where
  binary op l r hl hr := by
    cases op with
    | eq | neq | less | lessEq | greater => exact lowerCompare_handles _ hl hr
    | greaterEq => exact .bind (lowerCompare_handles .sge hl hr) (fun _ _ => .call (scalar_pair hl hr))
    | logOr | logAnd => exact lowerLogical_handles _ hl hr
    | _ => exact .call (scalar_pair hl hr)
  unary op v hv := by
    cases op with
    | neg => exact .call (scalar_pair (zeroOf_scalar _) hv)
    | plus => exact hv
    | not => exact .bind (.call (scalar_pair hv (zeroOf_scalar _))) (fun _ h => createZExt_handles h)

end Source

namespace CodeGenerator

/-- What may stand in the body of a block, for slots with the names in `N`. A scalar is called where the
    program calls one of its values. -/
def Harmless (own : Prop) (N : Name → Option AllocaInst) : Instruction → Prop
  | .alloca _ => False
  | .store v a => v.IsScalar ∧ ∃ x, (x = inputVar → own) ∧ N x = some a
  | .call _ _ callee args => callee.IsScalar ∨
      ((∃ f, f ≠ 0 ∧ callee = .const (.func f)) ∧
        ∀ a, args = [.const (.str "%d"), .slot a] → N inputVar = some a)
  | .br target => target ≠ 0
  | .condBr _ thenBlock elseBlock => thenBlock ≠ 0 ∧ elseBlock ≠ 0
  | _ => True

/-- More names in scope make no instruction worse. -/
theorem Harmless.mono {own : Prop} {N N' : Name → Option AllocaInst} {i : Instruction}
    (h : Harmless own N i) (hN : ∀ x a, N x = some a → N' x = some a) : Harmless own N' i := by
  cases i with
  | store v a =>
      obtain ⟨hv, x, hx, ha⟩ := h
      exact ⟨hv, x, hx, hN x a ha⟩
  | call id arity callee args => exact h.imp_right (fun h => ⟨h.1, fun a ha => hN _ a (h.2 a ha)⟩)
  | alloca | load | op | br | condBr | ret => exact h

/-- One function, one scope, and one slot that only `scanf` writes, unless the program has the name for its
    own. -/
structure Sole (own : Prop) (g : CodeGenerator) : Prop where
  count : 0 < g.blockCount
  current : g.currentFunction = 0
  parents : ∀ b, (g.blocks b).parent = 0
  main : ∃ fs, g.functions = ⟨"main", 0⟩ :: fs
  scopes : g.scopeStack ≠ []
  table : ∀ x, g.functionTable x = none
  last : g.lastValue.IsScalar
  bodies : ∀ b, ∀ i ∈ (g.blocks b).body, Harmless own g.lookup i
  late : ∀ b, b ≠ 0 → (g.blocks b).hoisted = []
  onlyAllocas : ∀ i ∈ (g.blocks 0).hoisted, ∃ a, i = .alloca a
  slots : ∀ a, .alloca a ∈ (g.blocks 0).hoisted ↔ ∃ x, g.lookup x = some a
  hiddenTy : ¬ own → ∀ a, g.lookup inputVar = some a → a.ty = .i32

variable {M : Llvm} {L : Lowering} {own : Prop} {g g' : CodeGenerator} {i : Instruction} {v : Value} {x : Name}
  {a : AllocaInst}

/-! ## The calls on LLVM -/

/-- `last_value_` may become any scalar. -/
theorem Sole.setLast (h : g.Sole own) {v : Value} (hv : v.IsScalar) : (g.setLast v).Sole own :=
  { h with last := hv }

theorem Sole.setInsertPoint (h : g.Sole own) (b : Nat) : (g.setInsertPoint b).Sole own := { h with }

/-- A change of one block that keeps its parent and its hoisted instructions. -/
theorem insert_blocks (i : Instruction) (b : Nat) :
    ((g.insert i).blocks b).parent = (g.blocks b).parent ∧
      ((g.insert i).blocks b).hoisted = (g.blocks b).hoisted ∧
      ∀ j ∈ ((g.insert i).blocks b).body, j ∈ (g.blocks b).body ∨ j = i := by
  show (Function.update g.blocks g.insertBlock _ b).parent = _ ∧
    (Function.update g.blocks g.insertBlock _ b).hoisted = _ ∧
    ∀ j ∈ (Function.update g.blocks g.insertBlock _ b).body, _
  by_cases hb : b = g.insertBlock
  · subst hb
    rw [Function.update_self]
    refine ⟨rfl, rfl, fun j hj => ?_⟩
    exact (List.mem_append.mp hj).imp_right List.mem_singleton.mp
  · rw [Function.update_of_ne hb]
    exact ⟨rfl, rfl, fun j hj => .inl hj⟩

/-- An instruction that is harmless can be added. -/
theorem Sole.insert (h : g.Sole own) (hi : Harmless own g.lookup i) : (g.insert i).Sole own where
  count := h.count
  current := h.current
  parents b := (insert_blocks i b).1.trans (h.parents b)
  main := h.main
  scopes := h.scopes
  table := h.table
  last := h.last
  bodies b j hj := by
    rcases (insert_blocks i b).2.2 j hj with hj | rfl
    · exact h.bodies b j hj
    · exact hi
  late b hb := (insert_blocks i b).2.1.trans (h.late b hb)
  onlyAllocas := by
    rw [(insert_blocks i 0).2.1]
    exact h.onlyAllocas
  slots := by
    rw [(insert_blocks i 0).2.1]
    exact h.slots
  hiddenTy := h.hiddenTy

theorem Sole.insertLast (h : g.Sole own) (hi : Harmless own g.lookup i) {v : Value} (hv : v.IsScalar) :
    ((g.insert i).setLast v).Sole own := (h.insert hi).setLast hv

theorem Sole.createBlock (h : g.Sole own) : (g.createBlock g.currentFunction).Sole own := by
  have hblocks (b : Nat) : (g.createBlock g.currentFunction).blocks b =
      if b = g.blockCount then ⟨0, [], []⟩ else g.blocks b := by
    show Function.update g.blocks g.blockCount _ b = _
    rw [Function.update_apply, h.current]
  have hzero : (g.createBlock g.currentFunction).blocks 0 = g.blocks 0 := by
    rw [hblocks, if_neg (Nat.ne_of_lt h.count)]
  refine ⟨Nat.succ_pos _, h.current, fun b => ?_, h.main, h.scopes, h.table, h.last, fun b j hj => ?_,
    fun b hb => ?_, ?_, ?_, h.hiddenTy⟩
  · rw [hblocks]
    split
    · rfl
    · exact h.parents b
  · rw [hblocks] at hj
    split at hj
    · cases hj
    · exact h.bodies b j hj
  · rw [hblocks]
    split
    · rfl
    · exact h.late b hb
  · rw [hzero]; exact h.onlyAllocas
  · rw [hzero]; exact h.slots

/-- The entry block of `main` is the first block. -/
theorem Sole.entry (h : g.Sole own) : g.entryBlock 0 = some 0 := by
  rw [entryBlock, List.find?_range_eq_some]
  refine ⟨decide_eq_true (h.parents 0), List.mem_range.mpr h.count, fun b hb => ?_⟩
  exact absurd hb (Nat.not_lt_zero b)

/-- Only `main` has blocks, so no other function has an entry block. -/
theorem Sole.no_entry (h : g.Sole own) {f : Nat} (hf : f ≠ 0) : g.entryBlock f = none := by
  rw [entryBlock, List.find?_eq_none]
  intro b _
  rw [h.parents b]
  simpa using hf.symm

/-- A slot for a name that had none; that of `__input_var` has to be for integers, unless the program owns
    the name. -/
theorem Sole.addSlot (h : g.Sole own) (hx : g.lookup x = none) {ty : Ty}
    (hty : ¬ own → x = inputVar → ty = .i32) : (g.addSlot x ty).Sole own := by
  have hentry : (g.entryBlock g.block.parent).getD 0 = 0 := by
    rw [show g.block.parent = 0 from h.parents _, h.entry]
    rfl
  have hblocks : (g.addSlot x ty).blocks = Function.update g.blocks 0
      { g.blocks 0 with hoisted := .alloca (g.newSlot ty) :: (g.blocks 0).hoisted } := by
    show Function.update g.blocks ((g.entryBlock g.block.parent).getD 0) _ = _
    rw [hentry]
  have hself : (g.addSlot x ty).lookup x = some (g.newSlot ty) := Tables.lookup_put_self h.scopes
  have hother (y : Name) (hy : y ≠ x) : (g.addSlot x ty).lookup y = g.lookup y := Tables.lookup_put_ne hy
  have hmono (y : Name) (b : AllocaInst) (hb : g.lookup y = some b) : (g.addSlot x ty).lookup y = some b := by
    have hy : y ≠ x := by
      rintro rfl
      rw [hx] at hb
      cases hb
    rw [hother y hy, hb]
  have hbody (b : Nat) : ((g.addSlot x ty).blocks b).body = (g.blocks b).body := by
    rw [hblocks]
    by_cases hb : b = 0
    · subst hb; rw [Function.update_self]
    · rw [Function.update_of_ne hb]
  have hhoisted : ((g.addSlot x ty).blocks 0).hoisted = .alloca (g.newSlot ty) :: (g.blocks 0).hoisted := by
    rw [hblocks, Function.update_self]
  refine ⟨h.count, h.current, fun b => ?_, h.main, ?_, h.table, h.last, fun b j hj => ?_, fun b hb => ?_,
    fun j hj => ?_, fun b => ?_, fun hown b hb => ?_⟩
  · rw [hblocks]
    by_cases hb : b = 0
    · subst hb; rw [Function.update_self]; exact h.parents 0
    · rw [Function.update_of_ne hb]; exact h.parents b
  · show Tables.put x (g.newSlot ty) g.scopeStack ≠ []
    cases hs : g.scopeStack with
    | nil => exact absurd hs h.scopes
    | cons l ls => exact List.cons_ne_nil _ _
  · rw [hbody] at hj
    exact (h.bodies b j hj).mono hmono
  · rw [hblocks, Function.update_of_ne hb]
    exact h.late b hb
  · rw [hhoisted] at hj
    rcases List.mem_cons.mp hj with rfl | hj
    · exact ⟨_, rfl⟩
    · exact h.onlyAllocas j hj
  · rw [hhoisted, List.mem_cons, h.slots]
    constructor
    · rintro (hb | ⟨y, hy⟩)
      · injection hb with hb
        exact ⟨x, hb ▸ hself⟩
      · exact ⟨y, hmono y b hy⟩
    · rintro ⟨y, hy⟩
      by_cases hyx : y = x
      · subst hyx
        rw [hself] at hy
        injection hy with hy
        exact .inl (hy ▸ rfl)
      · exact .inr ⟨y, by rw [← hother y hyx, hy]⟩
  · by_cases hIx : inputVar = x
    · subst hIx
      rw [hself] at hb
      injection hb with hb
      rw [← hb]
      exact hty hown rfl
    · rw [hother _ hIx] at hb
      exact h.hiddenTy hown b hb

/-- The slot of a name, in a state that has it. -/
theorem Sole.slotFor (h : g.Sole own) (x : Name) (ty : Ty) (hty : ¬ own → x = inputVar → ty = .i32) :
    ∃ a g', g.slotFor x ty = .ok (a, g') ∧ g'.Sole own ∧ g'.lookup x = some a := by
  rcases slotFor_cases h.scopes with ⟨a, hl, hs⟩ | ⟨hl, hs⟩
  · exact ⟨a, g, hs, h, hl⟩
  · exact ⟨_, _, hs, h.addSlot hl hty, Tables.lookup_put_self h.scopes⟩

/-- A function of the runtime is not `main`. -/
theorem Sole.getFunc (h : g.Sole own) {s : String} (hs : s ≠ "main") :
    (g.getFunc s).1 ≠ 0 ∧ (g.getFunc s).2.Sole own ∧ (g.getFunc s).2.lookup = g.lookup := by
  obtain ⟨fs, hfs⟩ := h.main
  unfold CodeGenerator.getFunc
  cases hfind : g.functions.findIdx? (fun f => f.name = s) with
  | some k =>
      refine ⟨?_, h, rfl⟩
      rintro rfl
      rw [hfs] at hfind
      have hhead := (List.findIdx?_eq_some_iff_getElem.mp hfind).2.1
      exact hs (of_decide_eq_true hhead).symm
  | none =>
      refine ⟨?_, { h with main := ⟨fs ++ [⟨s, 1⟩], by rw [hfs]; rfl⟩ }, rfl⟩
      rw [hfs]
      exact Nat.succ_ne_zero _

theorem Sole.emit {α : Type} (m : Emit α) (h : g.Sole own) : (g.emit M m).2.Sole own := by
  induction m generalizing g with
  | pure a => exact h
  | create opcode args next ih =>
      unfold CodeGenerator.emit
      cases foldValue M opcode args with
      | some c => exact ih _ h
      | none => exact ih _ (h.insert trivial)

/-- Constants among scalars. -/
theorem constants_scalar {args : List Value} {cs : List Constant} (ha : ∀ a ∈ args, a.IsScalar)
    (h : args.mapM Value.constant? = some cs) : ∀ d ∈ cs, d.isScalar := by
  induction args generalizing cs with
  | nil =>
      cases h
      simp
  | cons a args ih =>
      rw [List.mapM_cons] at h
      obtain ⟨d, hd, h⟩ := Option.bind_eq_some_iff.mp h
      obtain ⟨ds, hds, h⟩ := Option.bind_eq_some_iff.mp h
      cases h
      refine List.forall_mem_cons.mpr ⟨?_, ih (fun b hb => ha b (List.mem_cons_of_mem _ hb)) hds⟩
      cases a with
      | const e =>
          cases hd
          exact ha _ List.mem_cons_self _ rfl
      | inst | arg | slot | unset => cases hd

/-- The folder makes scalars of scalars. -/
theorem foldValue_scalar (hM : M.Sound) {opcode : Opcode} {args : List Value} {c : Constant}
    (ha : ∀ a ∈ args, a.IsScalar) (h : foldValue M opcode args = some c) : c.isScalar := by
  have hfold : (args.mapM Value.constant?).bind (M.fold opcode) = some c := by
    cases opcode with
    | binary | unary => cases h
    | _ => exact h
  obtain ⟨cs, hcs, hc⟩ := Option.bind_eq_some_iff.mp hfold
  rcases hM opcode cs c (constants_scalar ha hcs) hc with he | ⟨_, rfl⟩
  · exact Opcode.evalLlvm_scalar he
  · rfl

/-- Folding keeps a scalar a scalar. -/
theorem emit_scalar (hM : M.Sound) {m : Emit Value} (hm : m.Handles Value.IsScalar) :
    (g.emit M m).1.IsScalar := by
  induction m generalizing g with
  | pure a => exact hm
  | create opcode args next ih =>
      unfold CodeGenerator.emit
      cases hfold : foldValue M opcode args with
      | some c => exact ih _ (hm.2 _ (Value.isScalar_const (foldValue_scalar hM hm.1 hfold)))
      | none => exact ih _ (hm.2 _ Value.isScalar_inst)

theorem Sole.emitLast (hM : M.Sound) {m : Emit Value} (hm : m.Handles Value.IsScalar) (h : g.Sole own) :
    (g.emitLast M m).Sole own := (h.emit m).setLast (emit_scalar hM hm)

/-! ## The parts of the visitors -/

theorem Sole.createBlocks (n : Nat) (h : g.Sole own) : (createBlocks n g).Sole own := by
  induction n generalizing g with
  | zero => exact h
  | succ n ih => exact ih h.createBlock

/-- New blocks are not the entry block. -/
theorem Sole.openCondition (n : Nat) (h : g.Sole own) : (openBlocks n
    (.condBr (g.condition M).1 (g.condition M).2.blockCount ((g.condition M).2.blockCount + 1))
    (g.condition M).2).Sole own := by
  have hc : (g.condition M).2.Sole own := h.emit _
  have hi : Harmless own (CodeGenerator.createBlocks n (g.condition M).2).lookup
      (.condBr (g.condition M).1 (g.condition M).2.blockCount ((g.condition M).2.blockCount + 1)) :=
    ⟨Nat.ne_of_gt hc.count, Nat.succ_ne_zero _⟩
  exact ((hc.createBlocks n).insertLast hi Value.isScalar_inst).setInsertPoint _

theorem Sole.openLoop (h : g.Sole own) : g.openLoop.Sole own := by
  have hi : Harmless own (g.createBlock g.currentFunction).lookup (.br g.blockCount) := Nat.ne_of_gt h.count
  exact (h.createBlock.insertLast hi Value.isScalar_inst).setInsertPoint _

/-- A branch goes on in its merge block, which is not the first block. -/
theorem Sole.closeBranch (h : g.Sole own) {merge : Nat} (hm : merge ≠ 0) (next : Nat) :
    (g.closeBranch merge next).Sole own := by
  have hi : Harmless own g.lookup (.br merge) := hm
  unfold CodeGenerator.closeBranch branchUnlessTerminated
  split
  · exact h.setInsertPoint _
  · exact (h.insert hi).setInsertPoint _

theorem Sole.closeLoop (h : g.Sole own) {cond : Nat} (hc : cond ≠ 0) (endLoop : Nat) :
    (g.closeLoop cond endLoop).Sole own := by
  have hi : Harmless own g.lookup (.br cond) := hc
  exact (h.insertLast hi Value.isScalar_inst).setInsertPoint _

theorem Sole.createLoad (h : g.Sole own) (a : AllocaInst) : (g.createLoad a).Sole own := by
  have hi : Harmless own g.lookup (.load g.nextId a) := trivial
  exact h.insertLast hi Value.isScalar_inst

theorem Sole.returnUnlessTerminated (h : g.Sole own) (v : Value) : (g.returnUnlessTerminated v).Sole own := by
  unfold CodeGenerator.returnUnlessTerminated
  split
  · exact h
  · exact h.insert trivial

/-- A variable loads from its own slot. -/
theorem visitVariable_sole (x : Name) (h : g.Sole own) :
    Ensures (g.visitVariable x) (Sole own) (fun _ => True) := by
  unfold visitVariable
  cases g.lookup x with
  | some a => exact .ok (h.createLoad a)
  | none =>
      rw [h.table x]
      exact .error trivial

/-- An assignment to `__input_var` needs a program that owns the name. -/
theorem assign_sole {x : Name} (hx : x = inputVar → own) (h : g.Sole own) :
    Ensures (g.assign x) (Sole own) (fun _ => True) := by
  obtain ⟨a, g1, hs, h1, hl⟩ := h.slotFor x g.lastValue.ty (fun hown he => absurd (hx he) hown)
  unfold assign
  dsimp only
  rw [hs]
  exact Ensures.ok (h1.insert ⟨h.last, x, hx, hl⟩)

/-- An input writes to the slot of `__input_var` and no other. -/
theorem visitInput_sole (h : g.Sole own) : Ensures g.visitInput (Sole own) (fun _ => True) := by
  obtain ⟨a, g1, hs, h1, hl⟩ := h.slotFor inputVar .i32 (fun _ _ => rfl)
  obtain ⟨hne, h2, hlookup⟩ := h1.getFunc (s := "scanf") (by decide)
  have hcall : Harmless own (g1.getFunc "scanf").2.lookup
      (.call (g1.getFunc "scanf").2.nextId 2 (.const (.func (g1.getFunc "scanf").1))
        [.const (.str "%d"), .slot a]) := by
    refine .inr ⟨⟨_, hne, rfl⟩, fun b hb => ?_⟩
    have hab : a = b := by simpa using hb
    rw [hlookup, ← hab, hl]
  unfold visitInput
  rw [hs]
  exact Ensures.ok ((h2.insertLast hcall Value.isScalar_inst).createLoad a)

/-- A print reads the last value. -/
theorem print_sole (h : g.Sole own) : g.print.Sole own := by
  obtain ⟨hne, h1, _⟩ := h.getFunc (s := "printf") (by decide)
  have hcall : Harmless own (g.getFunc "printf").2.lookup
      (.call (g.getFunc "printf").2.nextId 2 (.const (.func (g.getFunc "printf").1))
        [.const (.str "%d\n"), g.lastValue]) := by
    refine .inr ⟨⟨_, hne, rfl⟩, fun b hb => ?_⟩
    have hstr : ("%d\n" : String) = "%d" := by
      injection hb with hb
      injection hb with hb
      injection hb
    exact absurd hstr (by decide)
  exact h1.insertLast hcall Value.isScalar_inst

/-- A call in the program: what it calls is a scalar. -/
theorem Sole.call (h : g.Sole own) {callee : Value} (hcallee : callee.IsScalar) (args : List Value) :
    (g.call callee args).Sole own := by
  have hi (arity : Nat) : Harmless own g.lookup (.call g.nextId arity callee args) := .inl hcallee
  exact h.insertLast (hi _) Value.isScalar_inst

/-! ## The visitors -/

/-- No function among the nodes, and the hidden variable's name among no names, unless `own`. -/
structure KeepsToInput (own : Prop) (ks : List NodeKind) (us : List (Use Name)) : Prop where
  func : NodeKind.func ∉ ks
  names : inputVar ∈ namesOfUses us → own

section Keeps

variable {ks ks' : List NodeKind} {us us' : List (Use Name)}

/-- Part of a text uses no more names than the whole. -/
theorem KeepsToInput.before (h : KeepsToInput own ks (us ++ us')) : KeepsToInput own ks us where
  func := h.func
  names hx := h.names (mem_namesOfUses_append.mpr (.inl hx))

theorem KeepsToInput.after (h : KeepsToInput own ks (us ++ us')) : KeepsToInput own ks us' where
  func := h.func
  names hx := h.names (mem_namesOfUses_append.mpr (.inr hx))

theorem KeepsToInput.left (h : KeepsToInput own (ks ++ ks') (us ++ us')) : KeepsToInput own ks us :=
  { h.before with func := fun hk => h.func (List.mem_append_left _ hk) }

theorem KeepsToInput.right (h : KeepsToInput own (ks ++ ks') (us ++ us')) : KeepsToInput own ks' us' :=
  { h.after with func := fun hk => h.func (List.mem_append_right _ hk) }

theorem KeepsToInput.tail {k : NodeKind} (h : KeepsToInput own (k :: ks) us) : KeepsToInput own ks us where
  func hk := h.func (List.mem_cons_of_mem _ hk)
  names := h.names

/-- A text that assigns to `__input_var` owns it. -/
theorem KeepsToInput.bind {x : Name} (h : KeepsToInput own ks (us ++ [.bind x])) : x = inputVar → own := by
  rintro rfl
  exact h.names (by simp [namesOfUses, Use.names])

end Keeps

mutual

/-- **Only `scanf` writes the hidden slot**, and no value of the program is a function. -/
theorem visit_sole (hM : M.Sound) (hL : L.Scalar) : ∀ (e : Expression) {g : CodeGenerator},
    KeepsToInput own e.kinds e.uses → g.Sole own → Ensures (visit M L e g) (Sole own) (fun _ => True)
  | .number _, _, _, h => .ok (h.setLast (Value.isScalar_const rfl))
  | .var x, _, _, h => visitVariable_sole x h
  | .assignmentExpr _ e, _, hk, h =>
      (visit_sole hM hL e hk.before h).bind (fun _ h1 => assign_sole hk.bind h1)
  | .binaryOperator op a b, _, hk, h =>
      (visit_sole hM hL a hk.left h).bind (fun _ h1 => (visit_sole hM hL b hk.right h1).bind
        (fun _ h2 => .ok (h2.emitLast hM (hL.binary op _ _ h1.last h2.last))))
  | .unaryOperator op e, _, hk, h =>
      (visit_sole hM hL e hk h).bind (fun _ h1 => .ok (h1.emitLast hM (hL.unary op _ h1.last)))
  | .input, _, _, h => visitInput_sole h
  | .blockExpr ss, _, hk, h => visitStmts_sole hM hL ss hk.tail h
  | .func _ _ _, _, hk, _ => absurd List.mem_cons_self hk.func
  | .call target args, _, hk, h =>
      (visit_sole hM hL target hk.tail.left h).bind (fun _ h1 =>
        (visitArgs_sole hM hL args hk.tail.right h1).bind (fun r h2 => .ok (h2.call h1.last r.1)))

/-- So does a statement. -/
theorem visitStmt_sole (hM : M.Sound) (hL : L.Scalar) : ∀ (s : Statement) {g : CodeGenerator},
    KeepsToInput own s.kinds s.uses → g.Sole own → Ensures (visitStmt M L s g) (Sole own) (fun _ => True)
  | .emptyStmt, _, _, h => .ok h
  | .exprStmt e, _, hk, h => visit_sole hM hL e hk h
  | .ifStmt c t none, _, hk, h => by
      refine (visit_sole hM hL c hk.left h).bind (fun g1 h1 => ?_)
      refine (visit_sole hM hL t hk.right (h1.openCondition 2)).bind (fun g2 h2 => ?_)
      exact .ok (h2.closeBranch (Nat.succ_ne_zero _) _)
  | .ifStmt c t (some e), _, hk, h => by
      have hk : KeepsToInput own (c.kinds ++ (t.kinds ++ e.kinds)) (c.uses ++ (t.uses ++ e.uses)) := by
        rw [← List.append_assoc c.kinds]
        exact hk
      refine (visit_sole hM hL c hk.left h).bind (fun g1 h1 => ?_)
      refine (visit_sole hM hL t hk.right.left (h1.openCondition 3)).bind (fun g2 h2 => ?_)
      refine (visit_sole hM hL e hk.right.right (h2.closeBranch (Nat.succ_ne_zero _) _)).bind (fun g3 h3 => ?_)
      exact .ok (h3.closeBranch (Nat.succ_ne_zero _) _)
  | .whileStmt c b, _, hk, h => by
      refine (visit_sole hM hL c hk.left h.openLoop).bind (fun g1 h1 => ?_)
      refine (visit_sole hM hL b hk.right (h1.openCondition 2)).bind (fun g2 h2 => ?_)
      exact .ok (h2.closeLoop (Nat.ne_of_gt h.count) _)
  | .printStmt e, _, hk, h => (visit_sole hM hL e hk.before h).bind (fun _ h1 => .ok (print_sole h1))
  | .returnStmt none, _, _, h => .ok (h.insert trivial)
  | .returnStmt (some e), _, hk, h =>
      (visit_sole hM hL e hk.tail h).bind (fun _ h1 => .ok (h1.insert trivial))

theorem visitStmts_sole (hM : M.Sound) (hL : L.Scalar) : ∀ (ss : List Statement) {g : CodeGenerator},
    KeepsToInput own (kindsOfStmts ss) (usesOfStmts ss) → g.Sole own →
    Ensures (visitStmts M L ss g) (Sole own) (fun _ => True)
  | [], _, _, h => .ok h
  | s :: ss, _, hk, h =>
      (visitStmt_sole hM hL s hk.left h).bind (fun _ h1 => visitStmts_sole hM hL ss hk.right h1)

theorem visitArgs_sole (hM : M.Sound) (hL : L.Scalar) : ∀ (es : List Expression) {g : CodeGenerator},
    KeepsToInput own (kindsOfArgs es) (usesOfArgs es) → g.Sole own →
    Ensures (visitArgs M L es g) (fun r => r.2.Sole own) (fun _ => True)
  | [], _, _, h => .ok h
  | e :: es, _, hk, h => (visit_sole hM hL e hk.left h).bind (fun _ h1 =>
      (visitArgs_sole hM hL es hk.right h1).bind (fun _ h2 => .ok h2))

end

/-- The empty `main`. -/
theorem enterMain_sole : (enterMain M).Sole own where
  count := Nat.one_pos
  current := rfl
  parents b := by
    show (Function.update (fun _ => (⟨0, [], []⟩ : BasicBlock)) 0 ⟨0, [], []⟩ b).parent = 0
    rw [Function.update_eq_self]
  main := ⟨[], rfl⟩
  scopes := List.cons_ne_nil _ _
  table _ := rfl
  last := by rintro c ⟨⟩
  bodies b i hi := by
    have hi : i ∈ (Function.update (fun _ => (⟨0, [], []⟩ : BasicBlock)) 0 ⟨0, [], []⟩ b).body := hi
    rw [Function.update_eq_self] at hi
    cases hi
  late b _ := by
    show (Function.update (fun _ => (⟨0, [], []⟩ : BasicBlock)) 0 ⟨0, [], []⟩ b).hoisted = []
    rw [Function.update_eq_self]
  onlyAllocas i hi := by cases hi
  slots a := by
    constructor
    · intro ha
      cases ha
    · rintro ⟨x, hx⟩
      cases hx
  hiddenTy _ a ha := by cases ha

/-- **A program without functions compiles to one function**, where only `scanf` writes the hidden slot. -/
theorem visitProgram_sole (hM : M.Sound) (hL : L.Scalar) (p : Program) (hk : KeepsToInput own p.kinds p.uses) :
    Ensures (visitProgram M L p) (Sole own) (fun _ => True) :=
  (visitStmts_sole hM hL p.stmts hk enterMain_sole).bind (fun _ h => .ok (h.returnUnlessTerminated _))

end CodeGenerator

end ParaCL
