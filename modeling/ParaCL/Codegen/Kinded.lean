import ParaCL.Codegen.Arithmetic
import ParaCL.Codegen.Nested
import ParaCL.Codegen.Renaming
import ParaCL.Language.Kinds

/-!
# `Codegen.Kinded` — the generator keeps kinds apart

What a visitor leaves behind under the discipline of `Language.Kinds`: every slot has the type of its variable
and stands in front of an entry block or is a parameter's (`Sorted`), the value of an expression has the type
of its kind, and a name among the functions stands for the code of that function, compiled to an end
(`Generated`).
-/

namespace ParaCL

open Lib ParaCL.Language

open CodeGenerator (emit visit visitStmt visitStmts visitArgs Grown Frame Nameless Opens Opened)

variable {M : Llvm} {σ : Signature} {gf g0 g g' g1 g2 : CodeGenerator} {v : Value} {x : Name} {ty : Ty}

/-! ## The finished module, seen from inside a function -/

/-- The finished module with the scopes that a function had at its end. -/
def CodeGenerator.within (scopes : Tables Name AllocaInst) (g : CodeGenerator) : CodeGenerator :=
  { g with scopeStack := scopes }

/-- What the module keeps of an earlier state, the allocations in front of the blocks included. -/
structure Part (g gl : CodeGenerator) : Prop extends Extends g gl where
  hoists : ∀ b < g.blockCount, (g.blocks b).hoisted <:+ (gl.blocks b).hoisted

/-- What a visitor adds to is a part of what it makes. -/
theorem CodeGenerator.Frame.part (h : Frame g g') : Part g g' := ⟨h.extends, h.hoists⟩

/-- A part of a part. -/
theorem Part.trans (h1 : Part g g1) (h2 : Part g1 g2) : Part g g2 :=
  ⟨h1.toExtends.trans h2.toExtends, fun b hb =>
    (h1.hoists b hb).trans (h2.hoists b (Nat.lt_of_lt_of_le hb h1.count))⟩

/-- What was there before a visit is part of the finished module if what is there after it is. -/
theorem CodeGenerator.Grown.part {gl : CodeGenerator} (h : Grown g g') (hp : Part g' gl) : Part g gl :=
  h.frame.part.trans hp

/-- The instruction before a branch is left is a part of what is there afterwards. -/
theorem Part.of_setInsertPoint {b : Nat} {gl : CodeGenerator} (h : Part (g.setInsertPoint b) gl) : Part g gl :=
  { h with }

/-- `last_value_` is no part of the module. -/
theorem Part.of_setLast {gl : CodeGenerator} (h : Part (g.setLast v) gl) : Part g gl := { h with }

/-- A slot in front of a block stays there. -/
theorem CodeGenerator.Frame.mem_hoisted (h : Frame g g') {b : Nat} {i : Instruction} (hb : b < g.blockCount)
    (hi : i ∈ (g.blocks b).hoisted) : i ∈ (g'.blocks b).hoisted := (h.hoists b hb).subset hi

/-! ## Operators on integers -/

/-- The result of a call of `IRBuilder` has the type of the instruction, also if it is folded. -/
theorem call_ty {opcode : Opcode} {args : List Value} (hs : M.Sound) (hres : opcode.resultTy args = ty)
    (hargs : ∀ v ∈ args, v.ty = .i32 ∨ v.ty = .i1)
    (heval : ∀ cs w, args = cs.map Value.const → opcode.evalLlvm cs = some w → w.ty = ty) (g : CodeGenerator) :
    (emit M (.call opcode args) g).1.ty = ty := by
  unfold Emit.call emit
  cases hf : CodeGenerator.foldValue M opcode args with
  | none => exact hres
  | some k =>
      have hfold : (args.mapM Value.constant?).bind (M.fold opcode) = some k := by
        cases opcode with
        | binary op => cases hf
        | unary op => cases hf
        | _ => exact hf
      obtain ⟨cs, hcs, hk⟩ := Option.bind_eq_some_iff.mp hfold
      have heq := eq_map_const hcs
      have hscalar : ∀ d ∈ cs, d.isScalar := by
        intro d hd
        have hty := hargs (.const d) (heq ▸ List.mem_map_of_mem hd)
        cases d with
        | int | bit | poison => rfl
        | func | str => rcases hty with hty | hty <;> cases hty
      show k.ty = ty
      rcases hs opcode cs k hscalar hk with hw | ⟨_, rfl⟩
      · exact heval cs k heq hw
      · rw [← hres, heq]
        rfl

/-- A constant of integer type is an integer or poison. -/
theorem Constant.Fits.of_ty {w : Constant} (h : w.ty = .i32) : w.Fits .i32 := by
  cases w with
  | int | poison => exact ⟨rfl, h⟩
  | bit | func | str => cases h

/-- One of type `i1` is a bit or poison. -/
theorem Constant.of_ty_i1 {w : Constant} (h : w.ty = .i1) : (∃ b, w = .bit b) ∨ w = .poison .i1 := by
  cases w with
  | bit b => exact .inl ⟨b, rfl⟩
  | poison ty =>
      cases h
      exact .inr rfl
  | int | func | str => cases h

section Operators

variable (hs : M.Sound) {l r : Value}
include hs

/-- One operand. -/
theorem call_ty_one {opcode : Opcode} (hres : opcode.resultTy [l] = ty) (hl : l.ty = .i32 ∨ l.ty = .i1)
    (heval : ∀ a w, l = .const a → opcode.evalLlvm [a] = some w → w.ty = ty) (g : CodeGenerator) :
    (emit M (.call opcode [l]) g).1.ty = ty := by
  refine call_ty hs hres (by simpa using hl) (fun cs w hcs hw => ?_) g
  cases cs with
  | nil => cases hcs
  | cons a cs =>
      obtain ⟨hla, hcs⟩ := List.cons.inj hcs
      obtain rfl := List.map_eq_nil_iff.mp hcs.symm
      exact heval a w hla hw

/-- Two operands of one type. -/
theorem call_ty_two {opcode : Opcode} {t : Ty} (hres : opcode.resultTy [l, r] = ty) (ht : t = .i32 ∨ t = .i1)
    (hl : l.ty = t) (hr : r.ty = t)
    (heval : ∀ a b w, a.ty = t → b.ty = t → opcode.evalLlvm [a, b] = some w → w.ty = ty) (g : CodeGenerator) :
    (emit M (.call opcode [l, r]) g).1.ty = ty := by
  refine call_ty hs hres (by simpa [hl, hr] using ht) (fun cs w hcs hw => ?_) g
  cases cs with
  | nil => cases hcs
  | cons a cs =>
      obtain ⟨hla, htail⟩ := List.cons.inj hcs
      cases cs with
      | nil => cases htail
      | cons b cs =>
          obtain ⟨hrb, hnil⟩ := List.cons.inj htail
          obtain rfl := List.map_eq_nil_iff.mp hnil.symm
          rw [hla] at hl
          rw [hrb] at hr
          exact heval a b w hl hr hw

/-- A comparison makes a bit. -/
theorem icmp_ty (p : Predicate) (hl : l.ty = .i32) (hr : r.ty = .i32) (g : CodeGenerator) :
    (emit M (createICmp p l r) g).1.ty = .i1 := by
  refine call_ty_two hs rfl (.inl rfl) hl hr (fun a b w ha hb hw => ?_) g
  rcases Constant.fits_i32 (.of_ty ha) with ⟨m, rfl⟩ | rfl <;>
    rcases Constant.fits_i32 (.of_ty hb) with ⟨k, rfl⟩ | rfl <;> cases hw <;> rfl

/-- A bit is widened to an integer. -/
theorem zext_ty (hl : l.ty = .i1) (g : CodeGenerator) : (emit M (createZExt l) g).1.ty = .i32 := by
  have hne : l.ty ≠ .i32 := by
    rw [hl]
    decide
  rw [createZExt, if_neg hne]
  refine call_ty_one hs rfl (.inr hl) (fun a w ha hw => ?_) g
  rw [ha] at hl
  rcases Constant.of_ty_i1 hl with ⟨b, rfl⟩ | rfl <;> cases hw <;> rfl

/-- Comparison and widening together: an integer. -/
theorem lowerCompare_ty (p : Predicate) (hl : l.ty = .i32) (hr : r.ty = .i32) (g : CodeGenerator) :
    (emit M (lowerCompare p l r) g).1.ty = .i32 := by
  rw [lowerCompare, emit_bind]
  exact zext_ty hs (icmp_ty hs p hl hr g) _

/-- So does a connective. -/
theorem lowerLogical_ty {opcode : Opcode} (hop : opcode = .or ∨ opcode = .and) (hl : l.ty = .i32)
    (hr : r.ty = .i32) (g : CodeGenerator) : (emit M (lowerLogical opcode l r) g).1.ty = .i32 := by
  have hzero : (zeroOf .i32).ty = .i32 := rfl
  rw [lowerLogical, hl, hr, emit_bind, emit_bind, emit_bind]
  have h1 := icmp_ty hs .ne hl hzero g
  have h2 := icmp_ty hs .ne hr hzero (emit M (createICmp .ne l (zeroOf .i32)) g).2
  refine zext_ty hs (call_ty_two hs ?_ (.inr rfl) h1 h2 (fun a b w ha hb hw => ?_) _) _
  · rcases hop with rfl | rfl <;> exact h1
  · rcases hop with rfl | rfl <;> rcases Constant.of_ty_i1 ha with ⟨m, rfl⟩ | rfl <;>
      rcases Constant.of_ty_i1 hb with ⟨k, rfl⟩ | rfl <;> cases hw <;> rfl

/-- Arithmetic on integers. -/
theorem binOp_ty (op : BinaryOperators) {opcode : Opcode} (hop : ∀ v vs, opcode.resultTy (v :: vs) = v.ty)
    (heval : ∀ a b, opcode.evalLlvm [a, b] = evalBinary op a b) (hl : l.ty = .i32) (hr : r.ty = .i32)
    (g : CodeGenerator) : (emit M (createBinOp opcode l r) g).1.ty = .i32 := by
  refine call_ty_two hs ((hop l [r]).trans hl) (.inl rfl) hl hr (fun a b w ha hb hw => ?_) g
  rw [heval] at hw
  exact (evalBinary_fits op (.of_ty ha) (.of_ty hb) hw).2

/-- **The operators of `codegen.cpp` yield integers.** -/
theorem Lowering.source_integral : Lowering.source.Integral M where
  binary op l r g hl hr := by
    show (emit M (lowerBinary op l r) g).1.ty = .i32
    cases op with
    | eq | neq | less | lessEq | greater => exact lowerCompare_ty hs _ hl hr g
    | logOr => exact lowerLogical_ty hs (.inl rfl) hl hr g
    | logAnd => exact lowerLogical_ty hs (.inr rfl) hl hr g
    | greaterEq =>
        rw [lowerBinary, emit_bind]
        exact binOp_ty hs .add (fun _ _ => rfl) (fun _ _ => rfl) hl hr _
    | add => exact binOp_ty hs .add (fun _ _ => rfl) (fun _ _ => rfl) hl hr g
    | sub => exact binOp_ty hs .sub (fun _ _ => rfl) (fun _ _ => rfl) hl hr g
    | mul => exact binOp_ty hs .mul (fun _ _ => rfl) (fun _ _ => rfl) hl hr g
    | div => exact binOp_ty hs .div (fun _ _ => rfl) (fun _ _ => rfl) hl hr g
    | remDiv => exact binOp_ty hs .remDiv (fun _ _ => rfl) (fun _ _ => rfl) hl hr g
    | and => exact binOp_ty hs .and (fun _ _ => rfl) (fun _ _ => rfl) hl hr g
    | xor => exact binOp_ty hs .xor (fun _ _ => rfl) (fun _ _ => rfl) hl hr g
    | or => exact binOp_ty hs .or (fun _ _ => rfl) (fun _ _ => rfl) hl hr g
  unary op v g hv := by
    show (emit M (lowerUnary op v) g).1.ty = .i32
    have hzero : (zeroOf .i32).ty = .i32 := rfl
    cases op with
    | neg =>
        rw [lowerUnary, createNeg, hv]
        exact binOp_ty hs .sub (fun _ _ => rfl) (fun _ _ => rfl) hzero hv g
    | plus => exact hv
    | not =>
        rw [lowerUnary, hv]
        exact lowerCompare_ty hs .eq hv hzero g

end Operators

/-! ## What the names stand for -/

/-- Slots are of variables and have their types, functions have the names of functions, and the functions of
    the C library have no code. -/
structure Tabled (σ : Signature) (g : CodeGenerator) : Prop where
  slots : ∀ x a, g.lookup x = some a → (x = inputVar ∨ σ.Variable x) ∧ a.ty = σ.slotTy x
  names : ∀ x k, g.functionTable x = some k → Anonymous x ∨ ∃ ps body, σ.Names x ps body
  library : ∀ b < g.blockCount, ∀ fn, g.functions[(g.blocks b).parent]? = some fn →
    fn.name ≠ "printf" ∧ fn.name ≠ "scanf"

/-- A function of the program from where its visit starts (`gs`) over its body (`g1` to `g2`) to the finished
    module. -/
structure Compiled (M : Llvm) (σ : Signature) (gf : CodeGenerator) (name : Option Name) (ps : List Name)
    (body : Expression) (gs g1 g2 : CodeGenerator) : Prop where
  ready : gs.Ready
  tabled : Tabled σ gs
  params : ∀ x ∈ ps, σ.Variable x ∧ σ.vars x = .number
  named : ∀ f ∈ name, σ.Names f ps body
  kinded : ∃ o, Kinded σ body o ∧ (o = .value .number ∨ o = .never)
  enters : gs.enterFunction M name ps = .ok g1
  visits : visit M .source body g1 = .ok g2
  part : Part (g2.returnUnlessTerminated g2.lastValue) (gf.within g2.scopeStack)

/-- The function of the number has the code of that body, and so have those that it can name. -/
inductive Generated (M : Llvm) (σ : Signature) (gf : CodeGenerator) : Nat → List Name → Expression → Prop where
  | intro {name : Option Name} {ps : List Name} {body : Expression} {gs g1 g2 : CodeGenerator}
      (h : Compiled M σ gf name ps body gs g1 g2)
      (entries : ∀ x k qs e, gs.functionTable x = some k → σ.Names x qs e → Generated M σ gf k qs e) :
      Generated M σ gf gs.functions.length ps body

/-- Between two visits. A slot was there when the function was entered, or stands in front of a block. -/
structure Sorted (M : Llvm) (σ : Signature) (gf g0 g : CodeGenerator) : Prop extends Tabled σ g where
  origin : ∀ x a, g.lookup x = some a →
    g0.lookup x = some a ∨ ∃ b < g.blockCount, .alloca a ∈ (g.blocks b).hoisted
  entries : ∀ x k ps body, g.functionTable x = some k → σ.Names x ps body → Generated M σ gf k ps body

/-- The last value has the type of its kind. -/
def Yields (o : Effect) (g : CodeGenerator) : Prop := ∀ k, o = .value k → g.lastValue.ty = k.ty

/-- A name is looked up in the scopes alone. -/
theorem lookup_congr (h : g'.scopeStack = g.scopeStack) (x : Name) : g'.lookup x = g.lookup x := by
  unfold CodeGenerator.lookup
  rw [h]

section Steps

variable {op : CodeGenerator → CodeGenerator} {n : Nat}

/-- Steps that leave both tables alone, and make blocks of the current function only. -/
theorem Tabled.frame (h : Tabled σ g) (hr : g.Ready) (hf : Frame g g') (hs : g'.scopeStack = g.scopeStack)
    (ht : g'.functionTable = g.functionTable)
    (hnew : ∀ b, g.blockCount ≤ b → b < g'.blockCount → (g'.blocks b).parent = g.currentFunction) :
    Tabled σ g' where
  slots x a hx := h.slots x a ((lookup_congr hs x).symm.trans hx)
  names x k hk := h.names x k (by rw [← ht]; exact hk)
  library := by
    have hold : ∀ b < g.blockCount, ∀ fn, g'.functions[(g.blocks b).parent]? = some fn →
        fn.name ≠ "printf" ∧ fn.name ≠ "scanf" := by
      intro b hb fn hfn
      obtain ⟨fs, hfs⟩ := hf.functions
      rw [← hfs, List.getElem?_append_left (hr.parents b hb)] at hfn
      exact h.library b hb fn hfn
    intro b hb fn hfn
    by_cases hlt : b < g.blockCount
    · rw [hf.parent b hlt] at hfn
      exact hold b hlt fn hfn
    · -- a new block belongs to the function at hand, as the block of the insertion point does
      rw [hnew b (by omega) hb, ← hr.parent] at hfn
      exact hold g.insertBlock hr.insertLt fn hfn

/-- They also keep the entries and the slots where they are. -/
theorem Sorted.frame (h : Sorted M σ gf g0 g) (hr : g.Ready) (hf : Frame g g')
    (hs : g'.scopeStack = g.scopeStack) (ht : g'.functionTable = g.functionTable)
    (hnew : ∀ b, g.blockCount ≤ b → b < g'.blockCount → (g'.blocks b).parent = g.currentFunction) :
    Sorted M σ gf g0 g' where
  toTabled := h.toTabled.frame hr hf hs ht hnew
  origin x a hx := by
    refine (h.origin x a ((lookup_congr hs x).symm.trans hx)).imp_right (fun hb => ?_)
    obtain ⟨b, hlt, hmem⟩ := hb
    exact ⟨b, Nat.lt_of_lt_of_le hlt hf.count, hf.mem_hoisted hlt hmem⟩
  entries x k ps body hk := h.entries x k ps body (by rw [← ht]; exact hk)

/-- A step that has nothing to do with names and makes no blocks. -/
theorem Tabled.same (h : Tabled σ g) (hop : Nameless op) (hr : g.Ready) (hg : Grown g (op g))
    (hc : (op g).blockCount = g.blockCount) : Tabled σ (op g) :=
  h.frame hr hg.frame (hop.tables g).2.1 (hop.tables g).2.2 (fun b hge hlt => by omega)

/-- Steps without names that make no block. -/
theorem Sorted.same (h : Sorted M σ gf g0 g) (hop : Nameless op) (hr : g.Ready) (hg : Grown g (op g))
    (hc : (op g).blockCount = g.blockCount) : Sorted M σ gf g0 (op g) :=
  h.frame hr hg.frame (hop.tables g).2.1 (hop.tables g).2.2 (fun b hge hlt => by omega)

/-- The blocks of a branch or a loop. -/
theorem Sorted.opens (h : Sorted M σ gf g0 g) (hop : Nameless op) (hr : g.Ready) (ho : Opens n g (op g)) :
    Sorted M σ gf g0 (op g) :=
  h.frame hr ho.frame (hop.tables g).2.1 (hop.tables g).2.2 (fun b hge hlt => by rw [ho.empty b hge hlt])

theorem Sorted.setLast (h : Sorted M σ gf g0 g) : Sorted M σ gf g0 (g.setLast v) := { h with }

theorem Sorted.setInsertPoint {b : Nat} (h : Sorted M σ gf g0 g) : Sorted M σ gf g0 (g.setInsertPoint b) :=
  { h with }

theorem Sorted.insert {i : Instruction} (h : Sorted M σ gf g0 g) (hr : g.Ready)
    (hi : CodeGenerator.AllocaAt g.block.parent i) : Sorted M σ gf g0 (g.insert i) :=
  h.same (CodeGenerator.nameless_insert (fun _ => i) (fun _ _ => rfl)) hr (.insert hr hi) rfl

theorem Sorted.emitLast {m : Emit Value} (h : Sorted M σ gf g0 g) (hr : g.Ready) :
    Sorted M σ gf g0 (g.emitLast M m) :=
  h.same (CodeGenerator.nameless_emitLast m) hr (.emitLast m hr) (CodeGenerator.emit_place m g).1

theorem Sorted.getFunc (name : String) (h : Sorted M σ gf g0 g) (hr : g.Ready) :
    Sorted M σ gf g0 (g.getFunc name).2 := by
  have hg := Grown.getFunc name hr
  have ht := (CodeGenerator.getFunc_apart name g).table
  unfold CodeGenerator.getFunc at hg ht ⊢
  cases hk : g.functions.findIdx? (fun f => f.name = name) with
  | some k => exact h
  | none =>
      rw [hk] at hg ht
      exact h.frame hr hg.frame rfl rfl (fun b hge hlt => absurd hlt (Nat.not_lt.mpr hge))

theorem Sorted.branchUnlessTerminated (target : Nat) (h : Sorted M σ gf g0 g) (hr : g.Ready) :
    Sorted M σ gf g0 (g.branchUnlessTerminated target) := by
  unfold CodeGenerator.branchUnlessTerminated
  split
  · exact h
  · exact h.insert (i := .br target) hr trivial

theorem Sorted.returnUnlessTerminated (h : Sorted M σ gf g0 g) (hr : g.Ready) :
    Sorted M σ gf g0 (g.returnUnlessTerminated v) := by
  unfold CodeGenerator.returnUnlessTerminated
  split
  · exact h
  · exact h.insert (i := .ret v) hr trivial

/-! ### Slots -/

/-- A slot of the right type for a variable. -/
theorem Tabled.put {a : AllocaInst} (h : Tabled σ g) (hne : g.scopeStack ≠ [])
    (hx : x = inputVar ∨ σ.Variable x) (hty : a.ty = σ.slotTy x) :
    Tabled σ { g with scopeStack := Tables.put x a g.scopeStack } where
  slots y b hy := by
    have hy : Tables.lookup (Tables.put x a g.scopeStack) y = some b := hy
    by_cases hyx : y = x
    · subst hyx
      rw [Tables.lookup_put_self hne] at hy
      cases hy
      exact ⟨hx, hty⟩
    · rw [Tables.lookup_put_ne hyx] at hy
      exact h.slots y b hy
  names := h.names
  library := h.library

/-- As it is made for a variable that has none. -/
theorem Sorted.addSlot (h : Sorted M σ gf g0 g) (hr : g.Ready) (hl : g.lookup x = none)
    (hx : x = inputVar ∨ σ.Variable x) : Sorted M σ gf g0 (g.addSlot x (σ.slotTy x)) := by
  have hg := Grown.createEntryAlloca (σ.slotTy x) hr
  have h1 := h.same (CodeGenerator.nameless_createEntryAlloca (σ.slotTy x)) hr hg rfl
  refine ⟨h1.toTabled.put hr.scopes hx rfl, fun y b hy => ?_, h1.entries⟩
  have hy : Tables.lookup (Tables.put x (g.newSlot (σ.slotTy x)) g.scopeStack) y = some b := hy
  by_cases hyx : y = x
  · subst hyx
    rw [Tables.lookup_put_self hr.scopes] at hy
    cases hy
    obtain ⟨e, hlt, _, hblocks⟩ := CodeGenerator.createEntryAlloca_blocks (σ.slotTy y) hr
    refine .inr ⟨e, hlt, ?_⟩
    show _ ∈ ((g.createEntryAlloca (σ.slotTy y)).blocks e).hoisted
    rw [hblocks, Function.update_self]
    exact List.mem_cons_self
  · rw [Tables.lookup_put_ne hyx] at hy
    exact h1.origin y b hy

/-- Taking the slot of a variable. -/
theorem Sorted.slotFor (h : Sorted M σ gf g0 g) (hr : g.Ready) (hx : x = inputVar ∨ σ.Variable x) :
    ∃ a g1, g.slotFor x (σ.slotTy x) = .ok (a, g1) ∧ Grown g g1 ∧ Sorted M σ gf g0 g1 ∧
      g1.lookup x = some a ∧ a.ty = σ.slotTy x ∧ g1.lastValue = g.lastValue ∧
      g1.insertBlock = g.insertBlock ∧ g1.block.body = g.block.body := by
  have hcases : (∃ a, g.lookup x = some a ∧ g.slotFor x (σ.slotTy x) = .ok (a, g)) ∨ (g.lookup x = none ∧
      g.slotFor x (σ.slotTy x) = .ok (g.newSlot (σ.slotTy x), g.addSlot x (σ.slotTy x))) :=
    CodeGenerator.slotFor_cases hr.scopes
  rcases hcases with ⟨a, hl, hs⟩ | ⟨hl, hs⟩
  · exact ⟨a, g, hs, .refl hr, h, hl, (h.slots x a hl).2, rfl, rfl, rfl⟩
  · exact ⟨_, _, hs, .addSlot _ hr hl, h.addSlot hr hl hx, Tables.lookup_put_self hr.scopes, rfl, rfl, rfl,
      CodeGenerator.createEntryAlloca_body _ hr g.insertBlock⟩

end Steps

/-! ## Functions -/

section Functions

variable {name : Option Name} {ps : List Name} {body : Expression} {n : Nat}

/-- The name of the function stands for the next number. -/
theorem openFunction_table (name : Option Name) (n : Nat) (g : CodeGenerator) :
    (g.openFunction M name n).functionTable =
      Function.update g.functionTable (functionNames name g.funcCounter).1
        (some g.functions.length) := by
  cases name <;> rfl

/-- The new function's own name may be taken. -/
theorem openFunction_functions (hn : M.Numbers) (name : Option Name) (n : Nat) (g : CodeGenerator) :
    ∃ f, (g.openFunction M name n).functions = g.functions ++ [⟨f, n⟩] ∧
      (f = (functionNames name g.funcCounter).1 ∨
        ∃ k : Nat, f = (functionNames name g.funcCounter).1 ++ "." ++ toString k) := by
  have hfunctions : (g.openFunction M name n).functions = g.functions ++
      [⟨if (functionNames name g.funcCounter).1 ∈ g.functions.map IrFunction.name then
        M.uniqueName (g.functions.map IrFunction.name) (functionNames name g.funcCounter).1
        else (functionNames name g.funcCounter).1, n⟩] := by
    cases name <;> rfl
  refine ⟨_, hfunctions, ?_⟩
  split
  · exact .inr (hn _ _)
  · exact .inl rfl

/-- No function of a well-kinded program is called like one of the C library. -/
theorem functionNames_ne (hname : ∀ f ∈ name, σ.Names f ps body) (k : Nat) :
    (functionNames name k).1 ≠ "printf" ∧ (functionNames name k).1 ≠ "scanf" := by
  cases name with
  | none => exact anonymous_ne k
  | some f => exact ⟨(hname f rfl).notPrintf, (hname f rfl).notScanf⟩

/-- The function itself comes under its name. -/
theorem Tabled.openFunction (hn : M.Numbers) (h : Tabled σ g) (hr : g.Ready)
    (hname : ∀ f ∈ name, σ.Names f ps body) : Tabled σ (g.openFunction M name n) := by
  have ho := CodeGenerator.openFunction_opened (M := M) name n g
  have hlookup (x : Name) : (g.openFunction M name n).lookup x = g.lookup x := by
    unfold CodeGenerator.lookup
    rw [ho.scopeStack, Tables.lookup_open]
  obtain ⟨f, hf, hfn⟩ := openFunction_functions hn name n g
  refine ⟨fun x a hx => h.slots x a ((hlookup x).symm.trans hx), fun x k hk => ?_, fun b hb fn hb' => ?_⟩
  · rw [openFunction_table] at hk
    by_cases hx : x = (functionNames name g.funcCounter).1
    · subst hx
      cases name with
      | none => exact .inl ⟨g.funcCounter, rfl⟩
      | some f => exact .inr ⟨ps, body, hname f rfl⟩
    · rw [Function.update_of_ne hx] at hk
      exact h.names x k hk
  · rw [ho.count] at hb
    rw [hf] at hb'
    by_cases hlt : b < g.blockCount
    · rw [ho.old hlt, List.getElem?_append_left (hr.parents b hlt)] at hb'
      exact h.library b hlt fn hb'
    · -- the only new block is the entry of the new function
      obtain rfl : b = g.blockCount := by omega
      rw [ho.blocks, CodeGenerator.createBlock_new, List.getElem?_append_right (Nat.le_refl _),
        Nat.sub_self] at hb'
      cases hb'
      rcases hfn with rfl | ⟨k, rfl⟩
      · exact functionNames_ne hname g.funcCounter
      · exact numbered_ne _ k

/-- Parameters are variables that hold numbers. -/
theorem Tabled.bindParams {f : Nat} (hps : ∀ x ∈ ps, σ.Variable x ∧ σ.vars x = .number) :
    ∀ {k : Nat} {g : CodeGenerator}, Tabled σ g → g.Ready → CodeGenerator.bindParams f ps k g = .ok g' →
      Tabled σ g' ∧ g'.functionTable = g.functionTable := by
  induction ps with
  | nil =>
      intro k g h _ hv
      cases hv
      exact ⟨h, rfl⟩
  | cons x ps ih =>
      intro k g h hr hv
      obtain ⟨hx, hkind⟩ := hps x List.mem_cons_self
      cases hl : g.lookup x with
      | some a =>
          rw [CodeGenerator.bindParams_clash hr.scopes (by rw [hl]; rfl)] at hv
          cases hv
      | none =>
          rw [CodeGenerator.bindParams_cons hr.scopes hl] at hv
          have hg := Grown.storeParam f k hr
          have hstore := h.same (CodeGenerator.nameless_storeParam f k) hr hg rfl
          have hty : (g.newSlot .i32).ty = σ.slotTy x := by
            rw [hx.slotTy, hkind]
            rfl
          have hput : Tabled σ (g.addParam f k x) := hstore.put hr.scopes (.inr hx) hty
          have hrest := ih (fun y hy => hps y (List.mem_cons_of_mem _ hy)) hput (Grown.addParam hr hl).ready hv
          exact hrest

/-- A function has been entered: nothing of its own is in scope but the parameters, and its name is its own. -/
theorem Compiled.sorted (hn : M.Numbers) (h : Compiled M σ gf name ps body g g1 g2)
    (entries : ∀ x k qs e, g.functionTable x = some k → σ.Names x qs e → Generated M σ gf k qs e) :
    g1.Ready ∧ Sorted M σ gf g1 g1 := by
  have ho := CodeGenerator.openFunction_opened (M := M) name ps.length g
  have hready := (CodeGenerator.bindParams_grows (ho.ready h.ready)).of_ok h.enters
  obtain ⟨htabled, htable⟩ :=
    (h.tabled.openFunction hn h.ready h.named).bindParams h.params (ho.ready h.ready) h.enters
  refine ⟨hready.ready, htabled, fun x a hx => .inl hx, fun x k qs e hk hx => ?_⟩
  rw [htable, openFunction_table] at hk
  by_cases hxn : x = (functionNames name g.funcCounter).1
  · subst hxn
    rw [Function.update_self] at hk
    cases hk
    cases name with
    | none => exact absurd ⟨g.funcCounter, rfl⟩ hx.notAnonymous
    | some f =>
        -- the name stands for one function
        have hsame : some (qs, e) = some (ps, body) := hx.stands.symm.trans (h.named f rfl).stands
        cases hsame
        exact .intro h entries
  · rw [Function.update_of_ne hxn] at hk
    exact entries x k qs e hk hx

/-- A function is left: the names stand for what they did, or for functions compiled inside. -/
theorem Sorted.closeFunction (h : Sorted M σ gf g0 g) (hr : g.Ready) (ho : Opened g g1) (hg : Grown g1 g2)
    {gb : CodeGenerator} (h2 : Sorted M σ gf gb g2) : Sorted M σ gf g0 (CodeGenerator.closeFunction g g2) := by
  have hframe := (Grown.leave hr ho hg).frame
  have hlookup (x : Name) : (CodeGenerator.closeFunction g g2).lookup x = g.lookup x :=
    lookup_congr (CodeGenerator.closeFunction_scopeStack ho hg) x
  have h3 := h2.returnUnlessTerminated (v := g2.lastValue) hg.ready
  refine ⟨⟨fun x a hx => ?_, h3.names, h3.library⟩, fun x a hx => ?_, h3.entries⟩
  · rw [hlookup] at hx
    exact h.slots x a hx
  · rw [hlookup] at hx
    refine (h.origin x a hx).imp_right (fun hb => ?_)
    obtain ⟨b, hlt, hmem⟩ := hb
    exact ⟨b, Nat.lt_of_lt_of_le hlt hframe.count, hframe.mem_hoisted hlt hmem⟩

end Functions

/-! ## The visitors -/

section Visitors

variable {T : Tables Name AllocaInst} {gl : CodeGenerator} {ps : List Name} {body : Expression}

/-- Behind a statement nothing is asked of the last value. -/
theorem Yields.nothing : Yields .nothing g := fun _ h => by cases h

/-- Nor is it where control does not come. -/
theorem Yields.never : Yields .never g := fun _ h => by cases h

theorem Yields.value {k : Kind} (h : g.lastValue.ty = k.ty) : Yields (.value k) g := fun _ hk => by
  cases hk
  exact h

/-- A variable has a slot. -/
theorem Tabled.variable (h : Tabled σ g) (hx : σ.Variable x) (hv : g.visitVariable x = .ok g') :
    ∃ a, g.lookup x = some a ∧ g' = g.createLoad a := by
  unfold CodeGenerator.visitVariable at hv
  cases hl : g.lookup x with
  | some a =>
      rw [hl] at hv
      cases hv
      exact ⟨a, rfl, rfl⟩
  | none =>
      cases hk : g.functionTable x with
      | none =>
          rw [hl, hk] at hv
          cases hv
      | some k =>
          -- it would be taken for a function
          exfalso
          rcases h.names x k hk with hanon | ⟨qs, e, hnames⟩
          · exact hx.notAnonymous hanon
          · exact hnames.not_variable hx

/-- The name of a function has none. -/
theorem Tabled.name (h : Tabled σ g) (hx : σ.Names x ps body) (hv : g.visitVariable x = .ok g') :
    ∃ k, g.functionTable x = some k ∧ g' = g.setLast (.const (.func k)) := by
  unfold CodeGenerator.visitVariable at hv
  cases hl : g.lookup x with
  | some a =>
      exfalso
      rcases (h.slots x a hl).1 with rfl | hvar
      · exact hx.notInput rfl
      · exact hx.not_variable hvar
  | none =>
      cases hk : g.functionTable x with
      | none =>
          rw [hl, hk] at hv
          cases hv
      | some k =>
          rw [hl, hk] at hv
          cases hv
          exact ⟨k, rfl, rfl⟩

/-- A branch is part of the module if its end is. -/
theorem Part.closeBranch {merge next : Nat} (hr : g.Ready) (h : Part (g.closeBranch merge next) gl) :
    Part g gl := (CodeGenerator.branchUnlessTerminated_grown hr merge).part h.of_setInsertPoint

/-- So is a loop. -/
theorem Part.closeLoop {cond endLoop : Nat} (hr : g.Ready) (h : Part (g.closeLoop cond endLoop) gl) :
    Part g gl := (Grown.insert (i := .br cond) hr trivial).part h.of_setInsertPoint.of_setLast

/-- The code of a function is finished when it is left. -/
theorem Part.function {gs : CodeGenerator} (h : Part (CodeGenerator.closeFunction gs g2) (gf.within T)) :
    Part (g2.returnUnlessTerminated g2.lastValue) (gf.within g2.scopeStack) where
  count := h.count
  parent := h.parent
  body := h.body
  functions := h.functions
  lookup x _ hx := (lookup_congr (CodeGenerator.returnUnlessTerminated_scopeStack _ g2) x).symm.trans hx
  hoists := h.hoists

/-- A function literal has been compiled. -/
theorem compiled_of_visit {name : Option Name} {o : Effect} (hr : g.Ready) (ht : Tabled σ g)
    (hps : ∀ x ∈ ps, σ.Variable x ∧ σ.vars x = .number) (hname : ∀ f ∈ name, σ.Names f ps body)
    (hbody : Kinded σ body o) (ho : o = .value .number ∨ o = .never)
    (hv : visit M .source (.func name ps body) g = .ok g') (hp : Part g' (gf.within T)) :
    ∃ g1 g2, Compiled M σ gf name ps body g g1 g2 ∧ Grown (g.openFunction M name ps.length) g1 ∧ Grown g1 g2 ∧
      g' = CodeGenerator.closeFunction g g2 := by
  have hopen := CodeGenerator.openFunction_opened (M := M) name ps.length g
  rw [visit] at hv
  obtain ⟨g1, h1, hv⟩ := bind_ok_iff.mp hv
  obtain ⟨g2, h2, hv⟩ := bind_ok_iff.mp hv
  have hg1 := (CodeGenerator.bindParams_grows (hopen.ready hr)).of_ok h1
  have hg2 := (CodeGenerator.visit_grows body hg1.ready).of_ok h2
  rw [CodeGenerator.leaveFunction_ok hg2.ready.scopes] at hv
  cases hv
  exact ⟨g1, g2, ⟨hr, ht, hps, hname, ⟨o, hbody, ho⟩, h1, h2, hp.function⟩, hg1, hg2, rfl⟩

/-- The visit of the expression keeps the kinds apart and comes to the effect. -/
def SortsExpr (M : Llvm) (σ : Signature) (gf : CodeGenerator) (e : Expression) (o : Effect) : Prop :=
  ∀ g0 g g' T, g.Ready → Sorted M σ gf g0 g → visit M .source e g = .ok g' → Part g' (gf.within T) →
    Sorted M σ gf g0 g' ∧ Yields o g'

/-- The visit of a statement does, from one effect to the next. -/
def SortsStmt (M : Llvm) (σ : Signature) (gf : CodeGenerator) (s : Statement) (acc o : Effect) : Prop :=
  ∀ g0 g g' T, g.Ready → Sorted M σ gf g0 g → Yields acc g → visitStmt M .source s g = .ok g' →
    Part g' (gf.within T) → Sorted M σ gf g0 g' ∧ Yields o g'

/-- So does that of a block. -/
def SortsStmts (M : Llvm) (σ : Signature) (gf : CodeGenerator) (ss : List Statement) (acc o : Effect) : Prop :=
  ∀ g0 g g' T, g.Ready → Sorted M σ gf g0 g → Yields acc g → visitStmts M .source ss g = .ok g' →
    Part g' (gf.within T) → Sorted M σ gf g0 g' ∧ Yields o g'

/-- Of arguments only the kinds are asked. -/
def SortsArgs (M : Llvm) (σ : Signature) (gf : CodeGenerator) (es : List Expression) : Prop :=
  ∀ g0 g r T, g.Ready → Sorted M σ gf g0 g → visitArgs M .source es g = .ok r → Part r.2 (gf.within T) →
    Sorted M σ gf g0 r.2

/-- A variable is loaded from a slot of its type. -/
theorem var_sorts (hx : σ.Variable x) : SortsExpr M σ gf (.var x) (.value (σ.vars x)) := by
  intro g0 g g' T hr h hv _
  obtain ⟨a, hl, rfl⟩ := h.variable hx hv
  refine ⟨h.same (CodeGenerator.nameless_createLoad a) hr (CodeGenerator.createLoad_grown a hr) rfl, .value ?_⟩
  exact (h.slots x a hl).2.trans hx.slotTy

/-- The name of a function is a function value; a variable of the name would have a slot. -/
theorem name_sorts (hx : σ.Names x ps body) : SortsExpr M σ gf (.var x) (.value (.function ps.length)) := by
  intro g0 g g' T hr h hv _
  obtain ⟨k, _, rfl⟩ := h.name hx hv
  exact ⟨h.setLast, .value rfl⟩

/-- An input is a number. -/
theorem input_sorts : SortsExpr M σ gf .input (.value .number) := by
  intro g0 g g' T hr h hv _
  have hty : σ.slotTy inputVar = .i32 := if_pos rfl
  obtain ⟨a, g1, hs, hg1, h1, _, ha, _⟩ := h.slotFor hr (.inl rfl)
  rw [hty] at hs ha
  rw [visit, CodeGenerator.visitInput, hs] at hv
  cases hv
  have hg2 := Grown.getFunc "scanf" hg1.ready
  have h2 := h1.getFunc "scanf" hg1.ready
  have hg3 := CodeGenerator.createCall_grown 2 (.const (.func (g1.getFunc "scanf").1))
    [.const (.str "%d"), .slot a] hg2.ready
  have h3 := h2.same (CodeGenerator.nameless_createCall _ _ _) hg2.ready hg3 rfl
  have hload := CodeGenerator.createLoad_grown a hg3.ready
  exact ⟨h3.same (CodeGenerator.nameless_createLoad a) hg3.ready hload rfl, .value ha⟩

/-- An assignment makes a slot of the type of its variable. -/
theorem assignment_sorts {e : Expression} (hx : σ.Variable x) (ih : SortsExpr M σ gf e (.value (σ.vars x))) :
    SortsExpr M σ gf (.assignmentExpr x e) (.value (σ.vars x)) := by
  intro g0 g g' T hr h hv hp
  obtain ⟨g1, h1, h2⟩ := bind_ok_iff.mp hv
  have hg1 := (CodeGenerator.visit_grows e hr).of_ok h1
  have hg2 := (CodeGenerator.assign_grows x hg1.ready).of_ok h2
  obtain ⟨hs1, ht1⟩ := ih g0 g g1 T hr h h1 (hg2.part hp)
  have hty : g1.lastValue.ty = σ.slotTy x := (ht1 _ rfl).trans hx.slotTy.symm
  obtain ⟨a, g2, hs, hg, hs2, _, _, hlast, _⟩ := hs1.slotFor hg1.ready (.inr hx)
  rw [CodeGenerator.assign, hty, hs] at h2
  cases h2
  refine ⟨hs2.insert hg.ready trivial, .value ?_⟩
  show g2.lastValue.ty = _
  rw [hlast]
  exact ht1 _ rfl

theorem unary_sorts {e : Expression} (hs : M.Sound) (op : UnaryOperators)
    (ih : SortsExpr M σ gf e (.value .number)) : SortsExpr M σ gf (.unaryOperator op e) (.value .number) := by
  intro g0 g g' T hr h hv hp
  obtain ⟨g1, h1, hv⟩ := bind_ok_iff.mp hv
  cases hv
  have hg1 := (CodeGenerator.visit_grows e hr).of_ok h1
  obtain ⟨hs1, ht1⟩ := ih g0 g g1 T hr h h1 ((Grown.emitLast _ hg1.ready).part hp)
  exact ⟨hs1.emitLast hg1.ready, .value ((Lowering.source_integral hs).unary op g1 (ht1 _ rfl))⟩

/-- An operator takes numbers to a number. -/
theorem binary_sorts {a b : Expression} (hs : M.Sound) (op : BinaryOperators)
    (iha : SortsExpr M σ gf a (.value .number)) (ihb : SortsExpr M σ gf b (.value .number)) :
    SortsExpr M σ gf (.binaryOperator op a b) (.value .number) := by
  intro g0 g g' T hr h hv hp
  obtain ⟨g1, h1, hv⟩ := bind_ok_iff.mp hv
  obtain ⟨g2, h2, hv⟩ := bind_ok_iff.mp hv
  cases hv
  have hg1 := (CodeGenerator.visit_grows a hr).of_ok h1
  have hg2 := (CodeGenerator.visit_grows b hg1.ready).of_ok h2
  have hp2 := (Grown.emitLast _ hg2.ready).part hp
  obtain ⟨hs1, ht1⟩ := iha g0 g g1 T hr h h1 (hg2.part hp2)
  obtain ⟨hs2, ht2⟩ := ihb g0 g1 g2 T hg1.ready hs1 h2 hp2
  exact ⟨hs2.emitLast hg2.ready, .value ((Lowering.source_integral hs).binary op g2 (ht1 _ rfl) (ht2 _ rfl))⟩

/-- **A function literal adds its code to what is generated**, whether it has a name or not. -/
theorem func_sorts {name : Option Name} {o : Effect} (hn : M.Numbers)
    (hps : ∀ x ∈ ps, σ.Variable x ∧ σ.vars x = .number) (hname : ∀ f ∈ name, σ.Names f ps body)
    (hbody : Kinded σ body o) (ho : o = .value .number ∨ o = .never) (ih : SortsExpr M σ gf body o) :
    SortsExpr M σ gf (.func name ps body) (.value (.function ps.length)) := by
  intro g0 g g' T hr h hv hp
  obtain ⟨g1, g2, hc, hg1, hg2, rfl⟩ := compiled_of_visit hr h.toTabled hps hname hbody ho hv hp
  have hopen := CodeGenerator.openFunction_opened (M := M) name ps.length g
  obtain ⟨hr1, hs1⟩ := hc.sorted hn h.entries
  have hret := CodeGenerator.returnUnlessTerminated_grown hg2.ready g2.lastValue
  obtain ⟨hs2, _⟩ := ih g1 g1 g2 _ hr1 hs1 hc.visits (hret.part hc.part)
  exact ⟨h.closeFunction hr hopen (hg1.trans (hopen.ready hr) hg2) hs2, .value rfl⟩

/-- A call yields a number. -/
theorem call_sorts {t : Expression} {es : List Expression} {o : Effect} (iht : SortsExpr M σ gf t o)
    (ihes : SortsArgs M σ gf es) : SortsExpr M σ gf (.call t es) (.value .number) := by
  intro g0 g g' T hr h hv hp
  rw [visit] at hv
  obtain ⟨g1, h1, hv⟩ := bind_ok_iff.mp hv
  obtain ⟨r, h2, hv⟩ := bind_ok_iff.mp hv
  cases hv
  have hg1 := (CodeGenerator.visit_grows t hr).of_ok h1
  have hg2 := (CodeGenerator.visitArgs_grows es hg1.ready).of_ok h2
  have hp2 := (CodeGenerator.createCall_grown _ g1.lastValue r.1 hg2.ready).part hp
  obtain ⟨hs1, _⟩ := iht g0 g g1 T hr h h1 (hg2.part hp2)
  have hs2 := ihes g0 g1 r T hg1.ready hs1 h2 hp2
  have hcall (arity : Nat) : Sorted M σ gf g0 (r.2.createCall arity g1.lastValue r.1) :=
    hs2.same (CodeGenerator.nameless_createCall _ _ _) hg2.ready
      (CodeGenerator.createCall_grown _ _ _ hg2.ready) rfl
  exact ⟨hcall _, .value rfl⟩

/-- The branches of an `if` and the body of a `while` leave no value to the block they stand in. -/
theorem ifThen_sorts {c t : Expression} {acc o o' o'' : Effect} (ihc : SortsExpr M σ gf c o)
    (iht : SortsExpr M σ gf t o') (ho : ∀ k, o'' ≠ .value k) :
    SortsStmt M σ gf (.ifStmt c t none) acc o'' := by
  intro g0 g g' T hr h _ hv hp
  rw [visitStmt] at hv
  obtain ⟨g1, h1, hv⟩ := bind_ok_iff.mp hv
  obtain ⟨g2, h2, hv⟩ := bind_ok_iff.mp hv
  cases hv
  have hg1 := (CodeGenerator.visit_grows c hr).of_ok h1
  have hopens := CodeGenerator.openIf_opens (M := M) hg1.ready
  have hg2 := (CodeGenerator.visit_grows t hopens.ready).of_ok h2
  have hp2 := hp.closeBranch hg2.ready
  have hp1 := hg2.part hp2
  obtain ⟨hs1, _⟩ := ihc g0 g g1 T hr h h1 (hopens.toGrown.part hp1)
  obtain ⟨hs2, _⟩ := iht g0 _ g2 T hopens.ready
    (hs1.opens CodeGenerator.nameless_openIf hg1.ready hopens) h2 hp2
  exact ⟨(hs2.branchUnlessTerminated _ hg2.ready).setInsertPoint, fun k hk => absurd hk (ho k)⟩

/-- Behind a branch the last value is of no use. -/
theorem ifElse_sorts {c t e : Expression} {acc o o1 o2 o3 : Effect} (ihc : SortsExpr M σ gf c o)
    (iht : SortsExpr M σ gf t o1) (ihe : SortsExpr M σ gf e o2) (ho : ∀ k, o3 ≠ .value k) :
    SortsStmt M σ gf (.ifStmt c t (some e)) acc o3 := by
  intro g0 g g' T hr h _ hv hp
  rw [visitStmt] at hv
  obtain ⟨g1, h1, hv⟩ := bind_ok_iff.mp hv
  obtain ⟨g2, h2, hv⟩ := bind_ok_iff.mp hv
  obtain ⟨g4, h4, hv⟩ := bind_ok_iff.mp hv
  cases hv
  have hg1 := (CodeGenerator.visit_grows c hr).of_ok h1
  have hopens := CodeGenerator.openIfElse_opens (M := M) hg1.ready
  have hg2 := (CodeGenerator.visit_grows t hopens.ready).of_ok h2
  have hg3 := CodeGenerator.closeThen_grown hg1.ready hg2
  have hg4 := (CodeGenerator.visit_grows e hg3.ready).of_ok h4
  -- what is kept, from the end back to the condition
  have hp4 := hp.closeBranch hg4.ready
  have hp2 := (hg4.part hp4).closeBranch hg2.ready
  obtain ⟨hs1, _⟩ := ihc g0 g g1 T hr h h1 (hopens.toGrown.part (hg2.part hp2))
  have hs := hs1.opens CodeGenerator.nameless_openIfElse hg1.ready hopens
  obtain ⟨hs2, _⟩ := iht g0 _ g2 T hopens.ready hs h2 hp2
  have hs3 : Sorted M σ gf g0 (g2.closeBranch (g1.blockCount + 2) (g1.blockCount + 1)) :=
    (hs2.branchUnlessTerminated _ hg2.ready).setInsertPoint
  obtain ⟨hs4, _⟩ := ihe g0 _ g4 T hg3.ready hs3 h4 hp4
  exact ⟨(hs4.branchUnlessTerminated _ hg4.ready).setInsertPoint, fun k hk => absurd hk (ho k)⟩

theorem whileLoop_sorts {c b : Expression} {acc o o' : Effect} (ihc : SortsExpr M σ gf c o)
    (ihb : SortsExpr M σ gf b o') : SortsStmt M σ gf (.whileStmt c b) acc .nothing := by
  intro g0 g g' T hr h _ hv hp
  rw [visitStmt] at hv
  obtain ⟨g1, h1, hv⟩ := bind_ok_iff.mp hv
  obtain ⟨g2, h2, hv⟩ := bind_ok_iff.mp hv
  cases hv
  have hloop := CodeGenerator.openLoop_opens hr
  have hg1 := (CodeGenerator.visit_grows c hloop.ready).of_ok h1
  have hopens := CodeGenerator.openBody_opens (M := M) hg1.ready
  have hg2 := (CodeGenerator.visit_grows b hopens.ready).of_ok h2
  have hp2 := hp.closeLoop hg2.ready
  have hs := h.opens CodeGenerator.nameless_openLoop hr hloop
  obtain ⟨hs1, _⟩ := ihc g0 _ g1 T hloop.ready hs h1 (hopens.toGrown.part (hg2.part hp2))
  obtain ⟨hs2, _⟩ := ihb g0 _ g2 T hopens.ready
    (hs1.opens CodeGenerator.nameless_openBody hg1.ready hopens) h2 hp2
  exact ⟨(hs2.insert (i := .br g.blockCount) hg2.ready trivial).setLast.setInsertPoint, .nothing⟩

theorem print_sorts {e : Expression} {acc o : Effect} (ih : SortsExpr M σ gf e o) :
    SortsStmt M σ gf (.printStmt e) acc .nothing := by
  intro g0 g g' T hr h _ hv hp
  obtain ⟨g1, h1, hv⟩ := bind_ok_iff.mp hv
  cases hv
  have hg1 := (CodeGenerator.visit_grows e hr).of_ok h1
  obtain ⟨hs1, _⟩ := ih g0 g g1 T hr h h1 ((CodeGenerator.print_grown hg1.ready).part hp)
  have hg2 := Grown.getFunc "printf" hg1.ready
  exact ⟨(hs1.getFunc "printf" hg1.ready).same (CodeGenerator.nameless_createCall _ _ _) hg2.ready
    (CodeGenerator.createCall_grown _ _ _ hg2.ready) rfl, .nothing⟩

mutual

/-- **Kinds are kept apart.** -/
theorem visit_sorted (hs : M.Sound) (hn : M.Numbers) :
    ∀ (e : Expression) {o : Effect}, Kinded σ e o → SortsExpr M σ gf e o
  | .number n, o, h => by
      cases h
      intro g0 g g' T hr hg hv _
      cases hv
      exact ⟨hg.setLast, .value rfl⟩
  | .var x, o, h => by
      cases h with
      | var hx => exact var_sorts hx
      | name hf => exact name_sorts hf
  | .assignmentExpr x e, o, h => by
      cases h with
      | assignment hx he => exact assignment_sorts hx (visit_sorted hs hn e he)
  | .binaryOperator op a b, o, h => by
      cases h with
      | binary ha hb => exact binary_sorts hs op (visit_sorted hs hn a ha) (visit_sorted hs hn b hb)
  | .unaryOperator op e, o, h => by
      cases h with
      | unary he => exact unary_sorts hs op (visit_sorted hs hn e he)
  | .input, o, h => by
      cases h
      exact input_sorts
  | .blockExpr ss, o, h => by
      cases h with
      | block hss =>
          intro g0 g g' T hr hg hv hp
          rw [visit] at hv
          exact visitStmts_sorted hs hn ss hss g0 g g' T hr hg .nothing hv hp
  | .func name ps body, o, h => by
      cases h with
      | func hps hname hbody ho => exact func_sorts hn hps hname hbody ho (visit_sorted hs hn body hbody)
  | .call t es, o, h => by
      cases h with
      | call ht hes => exact call_sorts (visit_sorted hs hn t ht) (visitArgs_sorted hs hn es hes)

/-- So does the visit of a statement. -/
theorem visitStmt_sorted (hs : M.Sound) (hn : M.Numbers) :
    ∀ (s : Statement) {acc o : Effect}, KindedStmt σ s acc o → SortsStmt M σ gf s acc o
  | .emptyStmt, acc, o, h => by
      cases h
      intro g0 g g' T _ hg ht hv _
      cases hv
      exact ⟨hg, ht⟩
  | .exprStmt e, acc, o, h => by
      cases h with
      | expr he => exact fun g0 g g' T hr hg _ hv hp => visit_sorted hs hn e he g0 g g' T hr hg hv hp
  | .ifStmt c t none, acc, o, h => by
      cases h with
      | ifThen hc ht =>
          exact ifThen_sorts (visit_sorted hs hn c hc) (visit_sorted hs hn t ht) (fun k => by simp)
  | .ifStmt c t (some e), acc, o, h => by
      cases h with
      | ifElse hc ht he =>
          exact ifElse_sorts (visit_sorted hs hn c hc) (visit_sorted hs hn t ht) (visit_sorted hs hn e he)
            (fun k => by simp)
      | ifNever hc ht he =>
          exact ifElse_sorts (visit_sorted hs hn c hc) (visit_sorted hs hn t ht) (visit_sorted hs hn e he)
            (fun k => by simp)
  | .whileStmt c b, acc, o, h => by
      cases h with
      | whileLoop hc hb => exact whileLoop_sorts (visit_sorted hs hn c hc) (visit_sorted hs hn b hb)
  | .printStmt e, acc, o, h => by
      cases h with
      | print he => exact print_sorts (visit_sorted hs hn e he)
  | .returnStmt none, acc, o, h => by
      cases h
      intro g0 g g' T hr hg _ hv _
      cases hv
      exact ⟨hg.insert (i := .ret (.const (.int 0))) hr trivial, .never⟩
  | .returnStmt (some e), acc, o, h => by
      cases h with
      | returnSome he =>
          intro g0 g g' T hr hg _ hv hp
          obtain ⟨g1, h1, hv⟩ := bind_ok_iff.mp hv
          cases hv
          have hg1 := (CodeGenerator.visit_grows e hr).of_ok h1
          have hins : Grown g1 (g1.createRet g1.lastValue) := .insert hg1.ready trivial
          obtain ⟨hs1, _⟩ := visit_sorted hs hn e he g0 g g1 T hr hg h1 (hins.part hp)
          exact ⟨hs1.insert (i := .ret g1.lastValue) hg1.ready trivial, .never⟩

theorem visitStmts_sorted (hs : M.Sound) (hn : M.Numbers) :
    ∀ (ss : List Statement) {acc o : Effect}, KindedStmts σ ss acc o → SortsStmts M σ gf ss acc o
  | [], acc, o, h => by
      cases h
      intro g0 g g' T _ hg ht hv _
      cases hv
      exact ⟨hg, ht⟩
  | s :: ss, acc, o, h => by
      cases h with
      | cons hstmt hss =>
          intro g0 g g' T hr hg ht hv hp
          obtain ⟨g1, h1, h2⟩ := bind_ok_iff.mp hv
          have hg1 := (CodeGenerator.visitStmt_grows s hr).of_ok h1
          have hg2 := (CodeGenerator.visitStmts_grows ss hg1.ready).of_ok h2
          obtain ⟨hs1, ht1⟩ := visitStmt_sorted hs hn s hstmt g0 g g1 T hr hg ht h1 (hg2.part hp)
          exact visitStmts_sorted hs hn ss hss g0 g1 g' T hg1.ready hs1 ht1 h2 hp

theorem visitArgs_sorted (hs : M.Sound) (hn : M.Numbers) :
    ∀ es : List Expression, KindedArgs σ es → SortsArgs M σ gf es
  | [], _ => by
      intro g0 g r T _ hg hv _
      cases hv
      exact hg
  | e :: es, h => by
      cases h with
      | cons he hes =>
          intro g0 g r T hr hg hv hp
          rw [visitArgs] at hv
          obtain ⟨g1, h1, hv⟩ := bind_ok_iff.mp hv
          obtain ⟨r', h2, hv⟩ := bind_ok_iff.mp hv
          cases hv
          have hg1 := (CodeGenerator.visit_grows e hr).of_ok h1
          have hg2 := (CodeGenerator.visitArgs_grows es hg1.ready).of_ok h2
          obtain ⟨hs1, _⟩ := visit_sorted hs hn e he g0 g g1 T hr hg h1 (hg2.part hp)
          exact visitArgs_sorted hs hn es hes g0 g1 r' T hg1.ready hs1 h2 hp

end

/-- The names at the start of `main`. -/
theorem enterMain_sorted : Sorted M σ gf (CodeGenerator.enterMain M) (CodeGenerator.enterMain M) where
  slots x a hx := by cases hx
  names x k hk := by cases hk
  library b hb fn hfn := by
    cases Nat.lt_one_iff.mp hb
    cases hfn
    exact ⟨show "main" ≠ "printf" by decide, show "main" ≠ "scanf" by decide⟩
  origin x a hx := .inl hx
  entries x k ps body hk := by cases hk

end Visitors

end ParaCL
