import ParaCL.Codegen.Terminators

/-!
# `Codegen.MainOnly` — generating code without functions

A program without functions, calls, input and `return` stays in `main`, with a single scope. Two things
hold of its code that do not hold in general: the slots are exactly the allocations at the front of the
entry block, all of them for integers, and between two visits the insertion block has no terminator, so that
every branch ends in a jump.
-/

namespace ParaCL

open Lib

/-! ## The sublanguage -/

/-- Numbers, variables, assignments and operators. -/
def Expression.isPlain : Expression → Bool
  | .number _ => true
  | .var _ => true
  | .assignmentExpr _ value => value.isPlain
  | .binaryOperator _ left right => left.isPlain && right.isPlain
  | .unaryOperator _ operand => operand.isPlain
  | _ => false

mutual

/-- A plain expression or a block, where a statement may have one. -/
def Expression.isStructured : Expression → Bool
  | .blockExpr stmts => allStructured stmts
  | expr => expr.isPlain

/-- No function, call, input or `return`, and blocks only as branches, loop bodies and statements. -/
def Statement.isStructured : Statement → Bool
  | .emptyStmt => true
  | .exprStmt expr => expr.isStructured
  | .ifStmt condition thenBranch none => condition.isPlain && thenBranch.isStructured
  | .ifStmt condition thenBranch (some elseBranch) =>
      condition.isPlain && (thenBranch.isStructured && elseBranch.isStructured)
  | .whileStmt condition body => condition.isPlain && body.isStructured
  | .printStmt value => value.isPlain
  | .returnStmt _ => false

/-- Every statement of a list is structured. -/
def allStructured : List Statement → Bool
  | [] => true
  | s :: ss => s.isStructured && allStructured ss

end

/-- Every statement of a program is. -/
def Program.isStructured (p : Program) : Bool := allStructured p.stmts

/-- A plain expression has none of the nodes that `kinds` lists. -/
theorem Expression.isPlain_kinds : ∀ {e : Expression}, e.isPlain → e.kinds = []
  | .number _, _ => rfl
  | .var _, _ => rfl
  | .assignmentExpr _ e, h => Expression.isPlain_kinds (e := e) h
  | .binaryOperator _ a b, h => by
      obtain ⟨ha, hb⟩ := Bool.and_eq_true_iff.mp h
      rw [Expression.kinds, Expression.isPlain_kinds ha, Expression.isPlain_kinds hb]
      rfl
  | .unaryOperator _ e, h => Expression.isPlain_kinds (e := e) h

mutual

/-- Blocks are the only nodes of a listed kind. -/
theorem Expression.isStructured_kinds : ∀ (e : Expression), e.isStructured → ∀ k ∈ e.kinds, k = .blockExpr
  | .blockExpr ss, h, k, hk => by
      rw [Expression.kinds] at hk
      rw [Expression.isStructured] at h
      rcases List.mem_cons.mp hk with rfl | hk
      · rfl
      · exact allStructured_kinds ss h k hk
  | .number _, _, _, hk => by cases hk
  | .var _, _, _, hk => by cases hk
  | .assignmentExpr x e, h, k, hk => by
      rw [Expression.isPlain_kinds (e := .assignmentExpr x e) h] at hk
      cases hk
  | .binaryOperator op a b, h, k, hk => by
      rw [Expression.isPlain_kinds (e := .binaryOperator op a b) h] at hk
      cases hk
  | .unaryOperator op e, h, k, hk => by
      rw [Expression.isPlain_kinds (e := .unaryOperator op e) h] at hk
      cases hk

/-- A structured one has blocks only. -/
theorem Statement.isStructured_kinds : ∀ (s : Statement), s.isStructured → ∀ k ∈ s.kinds, k = .blockExpr
  | .emptyStmt, _, _, hk => by cases hk
  | .exprStmt e, h, k, hk => Expression.isStructured_kinds e h k hk
  | .ifStmt c t none, h, k, hk => by
      obtain ⟨hc, ht⟩ := Bool.and_eq_true_iff.mp h
      rw [Statement.kinds, Expression.isPlain_kinds hc] at hk
      exact Expression.isStructured_kinds t ht k hk
  | .ifStmt c t (some e), h, k, hk => by
      obtain ⟨hc, hte⟩ := Bool.and_eq_true_iff.mp h
      obtain ⟨ht, he⟩ := Bool.and_eq_true_iff.mp hte
      rw [Statement.kinds, Expression.isPlain_kinds hc] at hk
      rcases List.mem_append.mp hk with hk | hk
      · exact Expression.isStructured_kinds t ht k hk
      · exact Expression.isStructured_kinds e he k hk
  | .whileStmt c b, h, k, hk => by
      obtain ⟨hc, hb⟩ := Bool.and_eq_true_iff.mp h
      rw [Statement.kinds, Expression.isPlain_kinds hc] at hk
      exact Expression.isStructured_kinds b hb k hk
  | .printStmt e, h, k, hk => by
      have he : e.isPlain := h
      rw [Statement.kinds, Expression.isPlain_kinds he] at hk
      cases hk

theorem allStructured_kinds : ∀ (ss : List Statement), allStructured ss → ∀ k ∈ kindsOfStmts ss, k = .blockExpr
  | [], _, _, hk => by cases hk
  | s :: ss, h, k, hk => by
      obtain ⟨hs, hss⟩ := Bool.and_eq_true_iff.mp h
      rcases List.mem_append.mp hk with hk | hk
      · exact Statement.isStructured_kinds s hs k hk
      · exact allStructured_kinds ss hss k hk

end

/-! ## Without functions no parameter is declared -/

/-- No function is entered. -/
def NeverEnters (es : List Event) : Prop := ∀ name ps, Event.enter name ps ∉ es

/-- A text in two parts. -/
theorem NeverEnters.append {es fs : List Event} (h1 : NeverEnters es) (h2 : NeverEnters fs) :
    NeverEnters (es ++ fs) := fun name ps h => (List.mem_append.mp h).elim (h1 name ps) (h2 name ps)

theorem NeverEnters.single {e : Event} (h : ∀ name ps, .enter name ps ≠ e) : NeverEnters [e] :=
  fun name ps hm => h name ps (List.mem_singleton.mp hm)

theorem NeverEnters.nil : NeverEnters [] := fun _ _ h => by cases h

/-- No function among the nodes. -/
def FunctionFree (kinds : List NodeKind) : Prop := NodeKind.func ∉ kinds

/-- Nodes in two parts. -/
theorem FunctionFree.append {l m : List NodeKind} :
    FunctionFree (l ++ m) ↔ FunctionFree l ∧ FunctionFree m := by
  simp only [FunctionFree, List.mem_append, not_or]

theorem FunctionFree.tail {k : NodeKind} {l : List NodeKind} (h : FunctionFree (k :: l)) : FunctionFree l :=
  fun hm => h (List.mem_cons_of_mem _ hm)

mutual

/-- Only a function literal enters a function. -/
theorem Expression.neverEnters : ∀ e : Expression, FunctionFree e.kinds → NeverEnters e.events
  | .number _, _ => .nil
  | .var _, _ => .single (by simp)
  | .assignmentExpr _ e, h => (Expression.neverEnters e h).append (.single (by simp))
  | .binaryOperator _ a b, h =>
      (Expression.neverEnters a (FunctionFree.append.mp h).1).append
        (Expression.neverEnters b (FunctionFree.append.mp h).2)
  | .unaryOperator _ e, h => Expression.neverEnters e h
  | .input, _ => .single (by simp)
  | .blockExpr ss, h => neverEnters_stmts ss h.tail
  | .func _ _ _, h => absurd List.mem_cons_self h
  | .call t es, h =>
      (Expression.neverEnters t (FunctionFree.append.mp h.tail).1).append
        (neverEnters_args es (FunctionFree.append.mp h.tail).2)

theorem Statement.neverEnters : ∀ s : Statement, FunctionFree s.kinds → NeverEnters s.events
  | .emptyStmt, _ => .nil
  | .exprStmt e, h => Expression.neverEnters e h
  | .ifStmt c t none, h =>
      (Expression.neverEnters c (FunctionFree.append.mp h).1).append
        (Expression.neverEnters t (FunctionFree.append.mp h).2)
  | .ifStmt c t (some e), h => by
      obtain ⟨hct, he⟩ := FunctionFree.append.mp h
      obtain ⟨hc, ht⟩ := FunctionFree.append.mp hct
      exact (Expression.neverEnters c hc).append
        ((Expression.neverEnters t ht).append (Expression.neverEnters e he))
  | .whileStmt c b, h =>
      (Expression.neverEnters c (FunctionFree.append.mp h).1).append
        (Expression.neverEnters b (FunctionFree.append.mp h).2)
  | .printStmt e, h => Expression.neverEnters e h
  | .returnStmt none, _ => .nil
  | .returnStmt (some e), h => Expression.neverEnters e h.tail

theorem neverEnters_stmts : ∀ ss : List Statement, FunctionFree (kindsOfStmts ss) →
    NeverEnters (eventsOfStmts ss)
  | [], _ => .nil
  | s :: ss, h =>
      (Statement.neverEnters s (FunctionFree.append.mp h).1).append
        (neverEnters_stmts ss (FunctionFree.append.mp h).2)

theorem neverEnters_args : ∀ es : List Expression, FunctionFree (kindsOfArgs es) →
    NeverEnters (eventsOfArgs es)
  | [], _ => .nil
  | e :: es, h =>
      (Expression.neverEnters e (FunctionFree.append.mp h).1).append
        (neverEnters_args es (FunctionFree.append.mp h).2)

end

/-- Where no function is entered there is no parameter that could clash. -/
theorem NeverEnters.paramsFresh {es : List Event} (h : NeverEnters es) : ParamsFresh es := by
  rintro a name ps b rfl
  exact absurd (by simp) (h name ps)

namespace CodeGenerator

/-! ## One function -/

/-- The module has no blocks but those of `main`, function number 0. -/
structure OnlyMain (g : CodeGenerator) : Prop where
  ready : g.Ready
  parents : ∀ b < g.blockCount, (g.blocks b).parent = 0
  main : ∃ fs n, g.functions = ⟨"main", n⟩ :: fs
  noFunctions : ∀ x, g.functionTable x = none
  hoisted : (g.blocks 0).hoisted = g.slots.map .alloca
  types : ∀ a ∈ g.slots, a.ty = .i32

/-- The state between two visits. -/
structure InMain (g : CodeGenerator) : Prop extends OnlyMain g where
  unterminated : g.terminated = false

variable {M : Llvm} {L : Lowering} {g g' g1 g2 : CodeGenerator} {i : Instruction} {v : Value}

theorem OnlyMain.zero_lt (h : g.OnlyMain) : 0 < g.blockCount :=
  Nat.lt_of_le_of_lt (Nat.zero_le _) h.ready.insertLt

/-- The entry block is the first block. -/
theorem OnlyMain.entry (h : g.OnlyMain) : g.entryBlock 0 = some 0 := by
  rw [entryBlock, List.find?_range_eq_some]
  exact ⟨by simpa using h.parents 0 h.zero_lt, List.mem_range.mpr h.zero_lt, fun b hb => by omega⟩

/-- The insertion block belongs to `main`, and so does everything. -/
theorem OnlyMain.current (h : g.OnlyMain) : g.currentFunction = 0 := by
  rw [← h.ready.parent]
  exact h.parents _ h.ready.insertLt

/-- Only the first block has hoisted instructions. -/
theorem OnlyMain.instrs_eq (h : g.OnlyMain) {b : Nat} (hb : b < g.blockCount) (hne : b ≠ 0) :
    (g.blocks b).instrs = (g.blocks b).body := by
  have hnil : (g.blocks b).hoisted = [] := by
    by_contra hh
    have he := h.ready.hoisted b hb hh
    rw [h.parents b hb, h.entry] at he
    injection he with he
    exact hne he.symm
  rw [BasicBlock.instrs, hnil, List.nil_append]

/-- The functions of the C library have no code. -/
theorem OnlyMain.no_block (h : g.OnlyMain) {k : Nat} (hk : k ≠ 0) : g.entryBlock k = none := by
  cases he : g.entryBlock k with
  | none => rfl
  | some e =>
      obtain ⟨hlt, hp⟩ := entryBlock_some he
      rw [h.parents e hlt] at hp
      exact absurd hp.symm hk

theorem OnlyMain.setLast (h : g.OnlyMain) : (g.setLast v).OnlyMain := { h with ready := h.ready.setLast }

theorem InMain.setLast (h : g.InMain) : (g.setLast v).InMain :=
  { h with toOnlyMain := h.toOnlyMain.setLast }

/-- An instruction adds no slot. -/
theorem OnlyMain.insert (h : g.OnlyMain) (hi : AllocaAt g.block.parent i) : (g.insert i).OnlyMain where
  ready := h.ready.insert hi
  parents b hb := by rw [insert_parent]; exact h.parents b hb
  main := h.main
  noFunctions := h.noFunctions
  hoisted := by rw [insert_hoisted]; exact h.hoisted
  types := h.types

/-- Between two visits only a terminator would close the block. -/
theorem InMain.insert (h : g.InMain) (hi : AllocaAt g.block.parent i) (ht : i.isTerminator = false) :
    (g.insert i).InMain := ⟨h.toOnlyMain.insert hi, insert_terminated.trans ht⟩

theorem InMain.emit {α : Type} (m : Emit α) (h : g.InMain) : (emit M m g).2.InMain := by
  induction m generalizing g with
  | pure a => exact h
  | create opcode args next ih =>
      unfold CodeGenerator.emit
      split
      · exact ih _ h
      · exact ih _ (h.insert trivial rfl)

/-- A new slot goes in front of the others. -/
theorem OnlyMain.addSlot {x : Name} (h : g.OnlyMain) (hl : g.lookup x = none) :
    (g.addSlot x .i32).OnlyMain := by
  obtain ⟨e, _, he, hblocks⟩ := createEntryAlloca_blocks .i32 h.ready
  obtain rfl : e = 0 := by
    rw [h.current, h.entry] at he
    injection he with he
    exact he.symm
  obtain ⟨l, ls, hs⟩ := List.exists_cons_of_ne_nil h.ready.scopes
  have hslots : (g.addSlot x .i32).slots = g.newSlot .i32 :: g.slots := by
    simp [slots, CodeGenerator.addSlot, hs, Tables.put]
  refine ⟨(Grown.addSlot .i32 h.ready hl).ready, fun b hb => ?_, h.main, h.noFunctions, ?_, ?_⟩
  · exact (createEntryAlloca_parent .i32 h.ready b).trans (h.parents b hb)
  · have hfront : ((g.addSlot x .i32).blocks 0).hoisted =
        .alloca (g.newSlot .i32) :: (g.blocks 0).hoisted := by
      show ((g.createEntryAlloca .i32).blocks 0).hoisted = _
      rw [hblocks, Function.update_self]
    rw [hfront, hslots, List.map_cons, h.hoisted]
  · rw [hslots]
    exact List.forall_mem_cons.mpr ⟨rfl, h.types⟩

/-- A slot for an integer. -/
theorem InMain.slotFor (x : Name) (h : g.InMain) :
    ∃ a g1, g.slotFor x .i32 = .ok (a, g1) ∧ g1.InMain := by
  rcases slotFor_cases h.ready.scopes with ⟨a, _, hs⟩ | ⟨hl, hs⟩
  · exact ⟨a, g, hs, h⟩
  · have hm := h.toOnlyMain.addSlot hl
    have hbody : (g.addSlot x .i32).block.body = g.block.body :=
      createEntryAlloca_body .i32 h.ready g.insertBlock
    exact ⟨_, _, hs, hm, (terminated_congr h.ready hm.ready hbody).trans h.unterminated⟩

/-- A slot does not change `last_value_`. -/
theorem slotFor_lastValue {x : Name} {ty : Ty} {r : AllocaInst × CodeGenerator} (hne : g.scopeStack ≠ [])
    (h : g.slotFor x ty = .ok r) : r.2.lastValue = g.lastValue := by
  rcases slotFor_cases hne with ⟨a, _, hs⟩ | ⟨_, hs⟩
  · rw [hs] at h
    cases h
    rfl
  · rw [hs] at h
    cases h
    rfl

/-- What is assigned is an integer, and so is the slot. -/
theorem InMain.assign {x : Name} (h : g.InMain) (hty : g.lastValue.ty = .i32) (hv : g.assign x = .ok g') :
    g'.InMain := by
  obtain ⟨a, g1, hs, h1⟩ := h.slotFor x
  rw [CodeGenerator.assign, hty, hs] at hv
  cases hv
  exact h1.insert trivial rfl

theorem InMain.getFunc (name : String) (h : g.InMain) : (g.getFunc name).2.InMain := by
  have hr := (Grown.getFunc name h.ready).ready
  unfold CodeGenerator.getFunc at hr ⊢
  cases hf : g.functions.findIdx? (fun f => f.name = name) with
  | some k => exact h
  | none =>
      rw [hf] at hr
      obtain ⟨fs, n, hm⟩ := h.main
      exact { h with ready := hr, main := ⟨fs ++ [⟨name, 1⟩], n, by simp only [hm]; rfl⟩ }

theorem InMain.print (h : g.InMain) : g.print.InMain :=
  ((h.getFunc "printf").insert (i := .call _ _ _ _) trivial rfl).setLast

/-- `getFunc` finds a function of the name, or makes one. -/
theorem getFunc_spec (name : String) (g : CodeGenerator) :
    ∃ f, (g.getFunc name).2.functions[(g.getFunc name).1]? = some f ∧ f.name = name := by
  unfold CodeGenerator.getFunc
  cases hf : g.functions.findIdx? (fun f => f.name = name) with
  | some k =>
      obtain ⟨hlt, hk, _⟩ := List.findIdx?_eq_some_iff_getElem.mp hf
      exact ⟨g.functions[k], List.getElem?_eq_getElem hlt, by simpa using hk⟩
  | none => exact ⟨⟨name, 1⟩, by simp, rfl⟩

/-! ## Branches and loops -/

theorem OnlyMain.createBlocks (n : Nat) (h : g.OnlyMain) : (createBlocks n g).OnlyMain := by
  obtain ⟨bs, c, heq⟩ := createBlocks_eq n g
  have hb := createBlocks_blocks n g
  have hr := (Grown.createBlocks n h.ready).ready
  refine ⟨hr, fun b hlt => ?_, by rw [heq]; exact h.main, by rw [heq]; exact h.noFunctions, ?_,
    by rw [heq]; exact h.types⟩
  · by_cases hold : b < g.blockCount
    · rw [hb.old b hold]
      exact h.parents b hold
    · rw [hb.new b (by omega) hlt]
      exact h.current
  · rw [hb.old 0 h.zero_lt, h.hoisted, heq]
    rfl

theorem OnlyMain.setInsertPoint {b : Nat} (h : g.OnlyMain) (hb : b < g.blockCount) :
    (g.setInsertPoint b).OnlyMain :=
  { h with ready := { h.ready with insertLt := hb, parent := (h.parents b hb).trans h.current.symm } }

/-- In an empty block the next visit can start. -/
theorem OnlyMain.setInsertPoint_inMain {b : Nat} (h : g.OnlyMain) (hb : b < g.blockCount)
    (he : (g.blocks b).body = []) : (g.setInsertPoint b).InMain :=
  have hm := h.setInsertPoint hb
  ⟨hm, hm.ready.terminated_of_empty he⟩

/-- As in the first block of a branch. -/
theorem OnlyMain.openBlocks {n : Nat} (hn : 0 < n) (h : g.OnlyMain) (hi : AllocaAt g.block.parent i) :
    (openBlocks n i g).InMain := by
  have ho := Opens.openBlocks hn h.ready hi
  have hb := createBlocks_blocks n g
  have hblock : (CodeGenerator.createBlocks n g).block = g.block := by
    unfold block
    rw [hb.point, hb.old _ h.ready.insertLt]
  have hm : ((CodeGenerator.createBlocks n g).insert i).OnlyMain :=
    (h.createBlocks n).insert (hblock.symm ▸ hi)
  have hlt : g.blockCount < ((CodeGenerator.createBlocks n g).insert i).blockCount := by
    show g.blockCount < (CodeGenerator.createBlocks n g).blockCount
    rw [hb.count]
    omega
  refine hm.setLast.setInsertPoint_inMain hlt ?_
  exact congrArg BasicBlock.body (ho.empty g.blockCount (Nat.le_refl _) hlt)

theorem InMain.openIf (h : g.InMain) : (g.openIf M).InMain :=
  OnlyMain.openBlocks (n := 2) (by omega) (h.emit _).toOnlyMain trivial

theorem InMain.openIfElse (h : g.InMain) : (g.openIfElse M).InMain :=
  OnlyMain.openBlocks (n := 3) (by omega) (h.emit _).toOnlyMain trivial

theorem InMain.openBody (h : g.InMain) : (g.openBody M).InMain :=
  OnlyMain.openBlocks (n := 2) (by omega) (h.emit _).toOnlyMain trivial

theorem InMain.openLoop (h : g.InMain) : g.openLoop.InMain :=
  OnlyMain.openBlocks (n := 1) (by omega) h.toOnlyMain trivial

/-- The block is open, so the branch at its end is made. -/
theorem InMain.branch_eq {target : Nat} (h : g.InMain) :
    g.branchUnlessTerminated target = g.createBr target := by
  rw [branchUnlessTerminated, h.unterminated]
  rfl

/-- Closing a branch leaves the other pending block empty. -/
theorem Pending.closeBranch {b : Nat} (target next : Nat) (hp : Pending b g) (hne : b ≠ next) :
    Pending b (g.closeBranch target next) :=
  ⟨hp.branchUnlessTerminated.lt, hne, hp.branchUnlessTerminated.empty⟩

/-- The visit goes on in a block that was pending. -/
theorem InMain.closeBranch {next : Nat} (target : Nat) (h : g.InMain) (hp : Pending next g) :
    (g.closeBranch target next).InMain := by
  rw [CodeGenerator.closeBranch, h.branch_eq]
  exact (h.toOnlyMain.insert (i := .br target) trivial).setInsertPoint_inMain hp.lt
    ((insert_body_ne (i := .br target) hp.ne).trans hp.empty)

theorem InMain.closeLoop {target next : Nat} (h : g.InMain) (hp : Pending next g) :
    (g.closeLoop target next).InMain :=
  (h.toOnlyMain.insert (i := .br target) trivial).setLast.setInsertPoint_inMain hp.lt
    ((insert_body_ne (i := .br target) hp.ne).trans hp.empty)

/-! ## The visitors -/

end CodeGenerator

/-- On integers, operators yield integers. -/
structure Lowering.Integral (M : Llvm) (L : Lowering) : Prop where
  binary : ∀ op {l r : Value} g, l.ty = .i32 → r.ty = .i32 →
    (CodeGenerator.emit M (L.binary op l r) g).1.ty = .i32
  unary : ∀ op {v : Value} g, v.ty = .i32 → (CodeGenerator.emit M (L.unary op v) g).1.ty = .i32

/-- The operators that the source means yield integers. -/
theorem Lowering.abstract_integral (M : Llvm) : Lowering.abstract.Integral M :=
  ⟨fun _ _ _ _ _ _ => rfl, fun _ _ _ _ => rfl⟩

namespace CodeGenerator

variable {M : Llvm} {L : Lowering} {g g' g1 : CodeGenerator}

/-- Without functions a name has a slot, and an integer in it. -/
theorem visitVariable_inMain {x : Name} (h : g.InMain) (hv : g.visitVariable x = .ok g') :
    g'.InMain ∧ g'.lastValue.ty = .i32 := by
  unfold visitVariable at hv
  cases hl : g.lookup x with
  | some a =>
      rw [hl] at hv
      cases hv
      obtain ⟨l, hmem, ha⟩ := Tables.mem_of_lookup hl
      exact ⟨(h.insert (i := .load g.nextId a) trivial rfl).setLast, h.types a (mem_slots hmem ha)⟩
  | none =>
      rw [hl, h.noFunctions x] at hv
      cases hv

/-- The visitor stays in `main` and leaves an integer. -/
def LeavesInteger (M : Llvm) (L : Lowering) (e : Expression) : Prop :=
  ∀ g g', g.InMain → visit M L e g = .ok g' → g'.InMain ∧ g'.lastValue.ty = .i32

/-- The value of an assignment is the one assigned. -/
theorem assignment_leavesInteger (x : Name) {e : Expression} (ih : LeavesInteger M L e) :
    LeavesInteger M L (.assignmentExpr x e) := by
  intro g g' h hv
  obtain ⟨g1, h1, h2⟩ := bind_ok_iff.mp hv
  obtain ⟨hm, hty⟩ := ih g g1 h h1
  refine ⟨hm.assign hty h2, ?_⟩
  rw [assign] at h2
  obtain ⟨r, hs, h3⟩ := bind_ok_iff.mp h2
  cases h3
  exact (congrArg Value.ty (slotFor_lastValue hm.ready.scopes hs)).trans hty

/-- Both operands are integers. -/
theorem binary_leavesInteger (hL : L.Integral M) (op : BinaryOperators) {a b : Expression}
    (iha : LeavesInteger M L a) (ihb : LeavesInteger M L b) :
    LeavesInteger M L (.binaryOperator op a b) := by
  intro g g' h hv
  obtain ⟨g1, h1, hv⟩ := bind_ok_iff.mp hv
  obtain ⟨g2, h2, hv⟩ := bind_ok_iff.mp hv
  cases hv
  obtain ⟨hm1, hty1⟩ := iha g g1 h h1
  obtain ⟨hm2, hty2⟩ := ihb g1 g2 hm1 h2
  exact ⟨(hm2.emit _).setLast, hL.binary op g2 hty1 hty2⟩

theorem unary_leavesInteger (hL : L.Integral M) (op : UnaryOperators) {e : Expression}
    (ih : LeavesInteger M L e) : LeavesInteger M L (.unaryOperator op e) := by
  intro g g' h hv
  obtain ⟨g1, h1, hv⟩ := bind_ok_iff.mp hv
  cases hv
  obtain ⟨hm, hty⟩ := ih g g1 h h1
  exact ⟨(hm.emit _).setLast, hL.unary op g1 hty⟩

/-- **A plain expression stays in `main` and leaves an integer.** -/
theorem plain_leavesInteger (hL : L.Integral M) : ∀ e : Expression, e.isPlain → LeavesInteger M L e
  | .number n, _ => by
      intro g g' h hv
      cases hv
      exact ⟨h.setLast, rfl⟩
  | .var x, _ => fun _ _ h hv => visitVariable_inMain h hv
  | .assignmentExpr x e, hp => assignment_leavesInteger x (plain_leavesInteger hL e hp)
  | .binaryOperator op a b, hp =>
      binary_leavesInteger hL op (plain_leavesInteger hL a (Bool.and_eq_true_iff.mp hp).1)
        (plain_leavesInteger hL b (Bool.and_eq_true_iff.mp hp).2)
  | .unaryOperator op e, hp => unary_leavesInteger hL op (plain_leavesInteger hL e hp)

theorem plain_inMain (hL : L.Integral M) (e : Expression) (hp : e.isPlain) {g g' : CodeGenerator}
    (h : g.InMain) (hv : visit M L e g = .ok g') : g'.InMain := (plain_leavesInteger hL e hp g g' h hv).1

mutual

/-- **So does a structured text stay in `main`**: whatever branches and loops there are, the next visit starts
    in an open block. -/
theorem structured_inMain (hL : L.Integral M) : ∀ (e : Expression) {g g' : CodeGenerator}, e.isStructured →
    g.InMain → visit M L e g = .ok g' → g'.InMain
  | .blockExpr ss, g, g', hs, h, hv => by
      rw [Expression.isStructured] at hs
      exact visitStmts_inMain hL ss hs h hv
  | .number n, g, g', hs, h, hv => plain_inMain hL (.number n) hs h hv
  | .var x, g, g', hs, h, hv => plain_inMain hL (.var x) hs h hv
  | .assignmentExpr x e, g, g', hs, h, hv => plain_inMain hL (.assignmentExpr x e) hs h hv
  | .binaryOperator op a b, g, g', hs, h, hv => plain_inMain hL (.binaryOperator op a b) hs h hv
  | .unaryOperator op e, g, g', hs, h, hv => plain_inMain hL (.unaryOperator op e) hs h hv
  | .input, g, g', hs, h, hv => by cases hs
  | .func f ps b, g, g', hs, h, hv => by cases hs
  | .call t es, g, g', hs, h, hv => by cases hs

/-- **Statements stay in `main`.** -/
theorem visitStmt_inMain (hL : L.Integral M) : ∀ (s : Statement) {g g' : CodeGenerator}, s.isStructured →
    g.InMain → visitStmt M L s g = .ok g' → g'.InMain
  | .emptyStmt, g, g', _, h, hv => by
      cases hv
      exact h
  | .exprStmt e, g, g', hs, h, hv => structured_inMain hL e hs h hv
  | .ifStmt c t none, g, g', hs, h, hv => by
      obtain ⟨hc, ht⟩ := Bool.and_eq_true_iff.mp hs
      obtain ⟨g1, h1, hv⟩ := bind_ok_iff.mp hv
      obtain ⟨g2, h2, hv⟩ := bind_ok_iff.mp hv
      cases hv
      have hm1 := plain_inMain hL c hc h h1
      have ho := openIf_opens (M := M) hm1.ready
      have hm2 := structured_inMain hL t ht hm1.openIf h2
      have hp := (ho.isPending (g1.blockCount + 1) (by omega) (by omega)).visit
        ((visit_grows t ho.ready).of_ok h2).frame
      exact hm2.closeBranch _ hp
  | .ifStmt c t (some e), g, g', hs, h, hv => by
      obtain ⟨hc, hte⟩ := Bool.and_eq_true_iff.mp hs
      obtain ⟨ht, he⟩ := Bool.and_eq_true_iff.mp hte
      obtain ⟨g1, h1, hv⟩ := bind_ok_iff.mp hv
      obtain ⟨g2, h2, hv⟩ := bind_ok_iff.mp hv
      obtain ⟨g3, h3, hv⟩ := bind_ok_iff.mp hv
      cases hv
      have hm1 := plain_inMain hL c hc h h1
      have ho := openIfElse_opens (M := M) hm1.ready
      have hm2 := structured_inMain hL t ht hm1.openIfElse h2
      have hf2 := ((visit_grows t ho.ready).of_ok h2).frame
      have hp := (ho.isPending (g1.blockCount + 1) (by omega) (by omega)).visit hf2
      -- two blocks wait: the one for `else` and the one both branches go on in
      have hpm := (ho.isPending (g1.blockCount + 2) (by omega) (by omega)).visit hf2
      have hmelse := hm2.closeBranch (g1.blockCount + 2) hp
      have hm3 := structured_inMain hL e he hmelse h3
      have hpm3 := (hpm.closeBranch (g1.blockCount + 2) (g1.blockCount + 1)
        (by omega)).visit ((visit_grows e hmelse.ready).of_ok h3).frame
      exact hm3.closeBranch _ hpm3
  | .whileStmt c b, g, g', hs, h, hv => by
      obtain ⟨hc, hb⟩ := Bool.and_eq_true_iff.mp hs
      obtain ⟨g1, h1, hv⟩ := bind_ok_iff.mp hv
      obtain ⟨g2, h2, hv⟩ := bind_ok_iff.mp hv
      cases hv
      have hm1 := plain_inMain hL c hc h.openLoop h1
      have ho := openBody_opens (M := M) hm1.ready
      have hm2 := structured_inMain hL b hb hm1.openBody h2
      have hp := (ho.isPending (g1.blockCount + 1) (by omega) (by omega)).visit
        ((visit_grows b ho.ready).of_ok h2).frame
      exact hm2.closeLoop hp
  | .printStmt e, g, g', hs, h, hv => by
      obtain ⟨g1, h1, hv⟩ := bind_ok_iff.mp hv
      cases hv
      exact (plain_inMain hL e hs h h1).print
  | .returnStmt _, g, g', hs, h, hv => by cases hs

theorem visitStmts_inMain (hL : L.Integral M) : ∀ (ss : List Statement) {g g' : CodeGenerator},
    allStructured ss → g.InMain → visitStmts M L ss g = .ok g' → g'.InMain
  | [], g, g', _, h, hv => by
      cases hv
      exact h
  | s :: ss, g, g', hs, h, hv => by
      obtain ⟨hs1, hs2⟩ := Bool.and_eq_true_iff.mp hs
      obtain ⟨g1, h1, h2⟩ := bind_ok_iff.mp hv
      exact visitStmts_inMain hL ss hs2 (visitStmt_inMain hL s hs1 h h1) h2

end

theorem enterMain_inMain : (enterMain M).InMain where
  ready := enterMain_ready
  parents b hb := by
    cases Nat.lt_one_iff.mp hb
    rfl
  main := ⟨[], 0, rfl⟩
  noFunctions _ := rfl
  hoisted := rfl
  types a ha := by cases ha
  unterminated := rfl

end CodeGenerator

end ParaCL
