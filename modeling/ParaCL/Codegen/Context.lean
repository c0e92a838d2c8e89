import ParaCL.Codegen.Growth
import ParaCL.Codegen.Script
import ParaCL.Codegen.Folding
import ParaCL.Parser.Check
import Mathlib.Data.List.Forall2

/-!
# `Codegen.Context` — where the generator emits

The emission context (`Context`) holds whenever the generator is not changing from one function to another,
and whatever it creates then goes into the innermost function being compiled. Each call keeps the context
because the code only grows (`Frame`); a function literal adds its own function to it and gives back the one
it found, however deep in a construct it stands (`visit_traced`).
-/

namespace ParaCL

open Lib

namespace CodeGenerator

variable {M : Llvm} {L : Lowering} {fs : List Nat} {f b k : Nat} {g g' g1 g2 : CodeGenerator} {a : AllocaInst}
  {x : Name} {v : Value} {t u : List Action}

/-! ## What keeps the context -/

/-- A slot stays in its entry block, which stays the first block of its function. -/
theorem InEntry.frame (hf : Frame g g') (h : g.InEntry f a) : g'.InEntry f a := by
  obtain ⟨e, he, hmem⟩ := h
  exact ⟨e, hf.entryBlock he, hf.mem_instrs (entryBlock_some he).1 hmem⟩

/-- The context speaks of the insertion block, the current function and the slots in scope, so a grown module
    keeps it as soon as the first and the last of these are in place. -/
theorem Context.of_frame (hc : g.Context fs) (hf : Frame g g') (hp : g'.block.parent = g'.currentFunction)
    (hs : g'.scopeStack = g.scopeStack) : g'.Context fs where
  parent := hp
  innermost := by rw [hf.current]; exact hc.innermost
  scopes := by
    rw [hs]
    exact hc.scopes.imp (fun _ _ h p hp => (h p hp).frame hf)

/-- A part of a visitor that leaves the scopes alone keeps the context. -/
theorem Context.of_grown (hc : g.Context fs) (h : Grown g g') (hs : g'.scopeStack = g.scopeStack) :
    g'.Context fs :=
  hc.of_frame h.frame h.ready.parent hs

/-- So does a move to another block of the current function. -/
theorem Context.setInsertPoint (hc : g.Context fs) (hp : (g.blocks b).parent = g.currentFunction) :
    (g.setInsertPoint b).Context fs :=
  { hc with parent := hp }

/-- A slot of the entry block is declared in the innermost scope. -/
theorem Context.put (hc : g.Context fs) (ha : g.InEntry g.currentFunction a) :
    { g with scopeStack := Tables.put x a g.scopeStack : CodeGenerator }.Context fs := by
  refine ⟨hc.parent, hc.innermost, ?_⟩
  have hin := hc.innermost
  have hs := hc.scopes
  show List.Forall₂ (fun f l => ∀ p ∈ l, g.InEntry f p.2) fs (Tables.put x a g.scopeStack)
  cases hl : g.scopeStack with
  | nil =>
      rw [hl] at hs
      cases hs
      cases hin
  | cons l ls =>
      rw [hl] at hs
      cases hs with
      | cons hhead htail =>
          cases hin
          refine .cons (fun p hp => ?_) htail
          rcases List.mem_cons.mp hp with rfl | hp
          · exact ha
          · exact hhead p hp

/-! ## Passing through a script -/

/-- From `g` through the calls `t` to `g'`, safely, while `c` becomes `c'`. -/
structure Passes (c : Compiling) (g : CodeGenerator) (t : List Action) (c' : Compiling) (g' : CodeGenerator) :
    Prop where
  lands : emission.after t g = g'
  marks : emission.ghost t c = c'
  safe : emission.Safe t c g

/-- The same functions are being compiled before and after. -/
abbrev Traced (fs : List Nat) (g : CodeGenerator) (t : List Action) (g' : CodeGenerator) : Prop :=
  Passes ⟨fs, false⟩ g t ⟨fs, false⟩ g'

variable {c c' c1 : Compiling}

theorem Passes.nil (h : emission.Good c g) : Passes c g [] c g := ⟨rfl, rfl, h⟩

/-- One more call in front: it has to be allowed where the script stands. -/
theorem Passes.cons {a : Action} (hg : emission.Good c g) (ha : emission.Allowed c g a)
    (h : Passes (c.step a) (a.run g) t c' g') : Passes c g (a :: t) c' g' :=
  ⟨h.lands, h.marks, hg, ha, h.safe⟩

/-- Scripts are passed one after the other. -/
theorem Passes.append (h1 : Passes c g t c1 g1) (h2 : Passes c1 g1 u c' g') : Passes c g (t ++ u) c' g' where
  lands := by rw [Monitor.after_append, h1.lands, h2.lands]
  marks := by rw [Monitor.ghost_append, h1.marks, h2.marks]
  safe := h1.safe.append (by rw [h1.marks, h1.lands]; exact h2.safe)

/-- One script after another. -/
theorem Passes.seq {s r : Script} (h1 : Passes c g (s g) c1 g1) (h2 : Passes c1 g1 (r g1) c' g') :
    Passes c g (s.seq r g) c' g' := by
  unfold Script.seq Monitor.seq
  rw [h1.lands]
  exact h1.append h2

/-- Where a script ends between two functions, the context holds. -/
theorem Passes.context (h : Passes c g t ⟨fs, false⟩ g') : g'.Context fs := by
  have hsafe : emission.Safe (t ++ []) c g := by
    rw [List.append_nil]
    exact h.safe
  have hgood := hsafe.good
  rw [h.marks, h.lands] at hgood
  exact hgood rfl

theorem Traced.refl (hc : g.Context fs) : Traced fs g [] g := .nil (fun _ => hc)

/-- A call that is no mark. -/
theorem Traced.one {a : Action} (hc : g.Context fs) (hc' : (a.run g).Context fs)
    (ha : ∀ f ∈ a.target g, fs.head? = some f) (hw : (⟨fs, false⟩ : Compiling).step a = ⟨fs, false⟩) :
    Traced fs g [a] (a.run g) :=
  .cons (fun _ => hc) (fun _ => ha) (by rw [hw]; exact Traced.refl hc')

/-- The insertion block belongs to the innermost function, which is what an instruction asks. -/
theorem Context.inside (hc : g.Context fs) : ∀ f ∈ some g.block.parent, fs.head? = some f := by
  rintro f ⟨⟩
  rw [hc.parent]
  exact hc.innermost

/-- An instruction goes into the insertion block. -/
theorem Traced.insert {i : Instruction} (hr : g.Ready) (hc : g.Context fs) (hi : AllocaAt g.block.parent i) :
    Traced fs g [.insert i] (g.insert i) :=
  Traced.one hc (hc.of_grown (.insert hr hi) rfl) hc.inside rfl

/-- `last_value_` belongs to no function. -/
theorem Traced.setLast (hc : g.Context fs) (v : Value) : Traced fs g [.setLast v] (g.setLast v) :=
  Traced.one hc { hc with } (by rintro f ⟨⟩) rfl

/-- `SetInsertPoint` within the current function. -/
theorem Traced.setInsertPoint (hc : g.Context fs) (hp : (g.blocks b).parent = g.currentFunction) :
    Traced fs g [.setInsertPoint b] (g.setInsertPoint b) :=
  Traced.one hc (hc.setInsertPoint hp) (by rintro f ⟨⟩) rfl

/-- An instruction and its value. -/
theorem Traced.insertLast {i : Instruction} (hr : g.Ready) (hc : g.Context fs)
    (hi : AllocaAt g.block.parent i) : Traced fs g [.insert i, .setLast v] ((g.insert i).setLast v) := by
  have h := Traced.insert hr hc hi
  exact h.append (Traced.setLast h.context v)

/-! ## The parts of the visitors -/

/-- The calls of an `IRBuilder` expression: one for each instruction that was not folded. -/
theorem emit_traced {α : Type} (m : Emit α) (hr : g.Ready) (hc : g.Context fs) :
    Traced fs g (Script.emit M m g) (g.emit M m).2 := by
  induction m generalizing g with
  | pure a => exact Traced.refl hc
  | create opcode args next ih =>
      unfold Script.emit CodeGenerator.emit
      cases foldValue M opcode args with
      | some c => exact ih _ hr hc
      | none =>
          have h := Traced.insert (i := .op g.nextId opcode args) hr hc trivial
          exact h.append (ih _ (hr.insert trivial) h.context)

/-- As `emit_traced`, with the result in `last_value_`. -/
theorem emitLast_traced (m : Emit Value) (hr : g.Ready) (hc : g.Context fs) :
    Traced fs g (Script.emitLast M m g) (g.emitLast M m) := by
  have h := emit_traced (M := M) m hr hc
  exact h.append (Traced.setLast h.context _)

/-- A declaration of the runtime belongs to no function under compilation. -/
theorem getFunc_traced (name : String) (hr : g.Ready) (hc : g.Context fs) :
    Traced fs g (Script.getFunc name g) (g.getFunc name).2 := by
  have hg := Grown.getFunc name hr
  unfold Script.getFunc
  unfold CodeGenerator.getFunc at hg ⊢
  cases hfind : g.functions.findIdx? (fun f => f.name = name) with
  | some k => exact Traced.refl hc
  | none =>
      rw [hfind] at hg
      exact Traced.one hc (hc.of_grown hg rfl) (by rintro f ⟨⟩) rfl

/-- A new slot goes into the entry block. -/
theorem createEntryAlloca_inEntry (ty : Ty) (hr : g.Ready) :
    (g.createEntryAlloca ty).InEntry g.currentFunction (g.newSlot ty) := by
  obtain ⟨e, _, he, hblocks⟩ := createEntryAlloca_blocks ty hr
  exact ⟨e, (Frame.createEntryAlloca ty hr).entryBlock he, by simp [hblocks, BasicBlock.instrs]⟩

theorem hoist_traced (ty : Ty) (hr : g.Ready) (hc : g.Context fs) :
    Traced fs g [.hoist ty] (g.createEntryAlloca ty) := by
  refine Traced.one hc (hc.of_grown (.createEntryAlloca ty hr) rfl) ?_ rfl
  obtain ⟨e, _, he, _⟩ := createEntryAlloca_blocks ty hr
  have hparent : g.block.parent = g.currentFunction := hr.parent
  rintro f ⟨⟩
  rw [hparent, he, Option.getD_some, (entryBlock_some he).2]
  exact hc.innermost

/-- A slot is found, or it is hoisted and declared. -/
theorem slotFor_traced (x : Name) (ty : Ty) (hr : g.Ready) (hc : g.Context fs) :
    ∃ g', g.slotFor x ty = .ok (Script.slot x ty g, g') ∧ Grown g g' ∧
      Traced fs g (Script.slotFor x ty g) g' := by
  unfold Script.slot Script.slotFor
  cases hl : g.lookup x with
  | some a => exact ⟨g, slotFor_some hl, .refl hr, Traced.refl hc⟩
  | none =>
      have h := hoist_traced ty hr hc
      have hput := h.context.put (x := x) (createEntryAlloca_inEntry ty hr)
      exact ⟨_, slotFor_none hr.scopes hl, .addSlot ty hr hl,
        h.append (Traced.one h.context hput (by rintro f ⟨⟩) rfl)⟩

/-- `BasicBlock::Create` for the current function. -/
theorem createBlock_traced (hr : g.Ready) (hc : g.Context fs) :
    Traced fs g [.createBlock g.currentFunction] (g.createBlock g.currentFunction) := by
  refine Traced.one hc (hc.of_grown (.createBlock hr) rfl) ?_ rfl
  rintro f ⟨⟩
  exact hc.innermost

/-- Several blocks of the current function. -/
theorem createBlocks_traced (n : Nat) (hr : g.Ready) (hc : g.Context fs) :
    Traced fs g (List.replicate n (.createBlock g.currentFunction)) (createBlocks n g) := by
  induction n generalizing g with
  | zero => exact Traced.refl hc
  | succ n ih =>
      have h := createBlock_traced hr hc
      exact h.append (ih (Grown.createBlock hr).ready h.context)

/-- A branch: its blocks, the terminator, and on in the first of the blocks. -/
theorem openBlocks_traced {n : Nat} {i : Instruction} (hn : 0 < n) (hr : g.Ready) (hc : g.Context fs)
    (hi : ∀ f, AllocaAt f i) : Traced fs g (Script.openBlocks n i g) (openBlocks n i g) := by
  have h1 := createBlocks_traced n hr hc
  have h2 := Traced.insertLast (v := .inst g.nextId .void) (Grown.createBlocks n hr).ready h1.context (hi _)
  have ho : Opens n g (openBlocks n i g) := .openBlocks hn hr (hi _)
  have h3 := Traced.setInsertPoint (b := g.blockCount) h2.context ho.ready.parent
  exact h1.append (h2.append h3)

/-- The condition of a branch, and the blocks it chooses from. -/
theorem openCondition_traced {n : Nat} (hn : 0 < n) (hr : g.Ready) (hc : g.Context fs) :
    Traced fs g (Script.openCondition M n g) (openBlocks n
      (.condBr (g.condition M).1 (g.condition M).2.blockCount ((g.condition M).2.blockCount + 1))
      (g.condition M).2) := by
  have h1 := emit_traced (M := M) (createICmp .ne g.lastValue (.const (.int 0))) hr hc
  exact h1.seq (openBlocks_traced hn (condition_grown hr).1.ready h1.context (fun _ => trivial))

/-- A branch is inserted only into an open block. -/
theorem branchUnlessTerminated_traced (target : Nat) (hr : g.Ready) (hc : g.Context fs) :
    Traced fs g (Script.branchUnlessTerminated target g) (g.branchUnlessTerminated target) := by
  unfold Script.branchUnlessTerminated CodeGenerator.branchUnlessTerminated
  split
  · exact Traced.refl hc
  · exact Traced.insert hr hc trivial

/-- As for a branch, the closing `ret` of a body. -/
theorem returnUnlessTerminated_traced (v : Value) (hr : g.Ready) (hc : g.Context fs) :
    Traced fs g (Script.returnUnlessTerminated v g) (g.returnUnlessTerminated v) := by
  unfold Script.returnUnlessTerminated CodeGenerator.returnUnlessTerminated
  split
  · exact Traced.refl hc
  · exact Traced.insert hr hc trivial

/-- The insertion point goes on where the branch meets what follows it. -/
theorem closeBranch_traced {merge next : Nat} (hr : g.Ready) (hc : g.Context fs)
    (h : (g.closeBranch merge next).Ready) :
    Traced fs g (Script.closeBranch merge next g) (g.closeBranch merge next) := by
  have h1 := branchUnlessTerminated_traced merge hr hc
  exact h1.seq (s := Script.branchUnlessTerminated merge) (Traced.setInsertPoint h1.context h.parent)

/-- The way back to the condition, and on behind the loop. -/
theorem closeLoop_traced {cond endLoop : Nat} (hr : g.Ready) (hc : g.Context fs)
    (h : (g.closeLoop cond endLoop).Ready) :
    Traced fs g (Script.closeLoop cond endLoop g) (g.closeLoop cond endLoop) := by
  have h1 := Traced.insertLast (i := .br cond) (v := .inst g.nextId .void) hr hc trivial
  exact h1.append (Traced.setInsertPoint h1.context h.parent)

/-! ## Functions -/

/-- The slots of the functions around a new one stay where they are. -/
theorem Opened.inEntry (ho : Opened g g1) (h : g.InEntry f a) : g1.InEntry f a := by
  obtain ⟨e, he, hmem⟩ := h
  refine ⟨e, entryBlock_of_parents he ?_ (fun b hb => by rw [ho.old hb]), ?_⟩
  · rw [ho.count]
    exact Nat.le_succ _
  · rw [ho.old (entryBlock_some he).1]
    exact hmem

/-- The function that has been opened comes with an empty scope. -/
theorem Opened.context (hr : g.Ready) (hc : g.Context fs) (ho : Opened g g1) :
    g1.Context (g.functions.length :: fs) where
  parent := (ho.ready hr).parent
  innermost := by rw [ho.current]; rfl
  scopes := by
    rw [ho.scopeStack]
    refine .cons (fun p hp => ?_) (hc.scopes.imp (fun _ _ h p hp => ho.inEntry (h p hp)))
    cases hp

/-- The entry block of a function is its first one. -/
theorem Opened.entry (hr : g.Ready) (ho : Opened g g1) :
    g1.entryBlock g1.currentFunction = some g1.insertBlock := by
  rw [entryBlock, List.find?_range_eq_some, ho.current, ho.point, ho.count]
  refine ⟨?_, List.mem_range.mpr (Nat.lt_succ_self _), fun b hb => ?_⟩
  · rw [ho.blocks, createBlock_new]
    exact decide_eq_true rfl
  · rw [ho.old hb]
    have := hr.parents b hb
    simp only [Bool.not_eq_true', decide_eq_false_iff_not]
    omega

/-- The entry block of a new function is a block like any other to the function around it. -/
theorem createEntry_context (hr : g.Ready) (hc : g.Context fs) (f : Nat) :
    (g.createBlock f).Context fs := by
  refine hc.of_frame (.createBlock hr f) ?_ rfl
  show ((g.createBlock f).blocks g.insertBlock).parent = g.currentFunction
  rw [createBlock_blocks hr.insertLt]
  exact hr.parent

/-- A call that is made while the function at hand does not change. -/
theorem Passes.plain {a : Action} (hc : g.Context fs) (ha : a.target g = none)
    (h : Passes ((⟨fs, false⟩ : Compiling).step a) (a.run g) t c' g') : Passes ⟨fs, false⟩ g (a :: t) c' g' :=
  .cons (fun _ => hc) (fun _ f hf => by rw [ha] at hf; cases hf) h

/-- While it changes, nothing is asked. -/
theorem Passes.hidden {a : Action} (h : Passes ((⟨fs, true⟩ : Compiling).step a) (a.run g) t c' g') :
    Passes ⟨fs, true⟩ g (a :: t) c' g' := by
  refine .cons ?_ ?_ h
  · rintro ⟨⟩
  · rintro ⟨⟩

/-- The function literal adds its function to those being compiled. -/
theorem openNamed_passes (x : Name) (n : Nat) (hr : g.Ready) (hc : g.Context fs) :
    Passes ⟨fs, false⟩ g (Script.openFunction M (some x) n g) ⟨g.functions.length :: fs, false⟩
      (g.openFunction M (some x) n) := by
  have hin := (openFunction_opened (M := M) (some x) n g).context hr hc
  have hcreate := Grown.appendFunctions [⟨if x ∈ g.functions.map IrFunction.name then
    M.uniqueName (g.functions.map IrFunction.name) x else x, n⟩] hr
  have hregister : Context { g with
      functions := g.functions ++ [⟨if x ∈ g.functions.map IrFunction.name then
        M.uniqueName (g.functions.map IrFunction.name) x else x, n⟩]
      functionTable := Function.update g.functionTable x (some g.functions.length) } fs := { hc with }
  have hentry := createEntry_context (g := { g with
      functions := g.functions ++ [⟨if x ∈ g.functions.map IrFunction.name then
        M.uniqueName (g.functions.map IrFunction.name) x else x, n⟩]
      functionTable := Function.update g.functionTable x (some g.functions.length) })
    { hcreate.ready with } hregister g.functions.length
  refine .plain hc rfl (.plain { hc with } rfl (.plain hregister rfl (.plain hentry rfl ?_)))
  exact .hidden (.hidden (.hidden (.hidden (Traced.refl hin))))

/-- `Function::Create` and the entry block, up to the assignment to `current_function_`; from there on the new
    function is the innermost one. -/
theorem openFunction_passes (name : Option Name) (n : Nat) (hr : g.Ready) (hc : g.Context fs) :
    Passes ⟨fs, false⟩ g (Script.openFunction M name n g) ⟨g.functions.length :: fs, false⟩
      (g.openFunction M name n) := by
  cases name with
  | some x => exact openNamed_passes x n hr hc
  | none =>
      have h := openNamed_passes (M := M) (g := { g with funcCounter := g.funcCounter + 1 })
        ("func_" ++ toString g.funcCounter) n { hr with } { hc with }
      exact .plain hc rfl h

/-- Parameters get their slots while the entry block is the insertion block. -/
theorem bindParams_traced (f : Nat) (ps : List Name) (k : Nat) (hr : g.Ready) (hc : g.Context fs)
    (he : g.entryBlock g.currentFunction = some g.insertBlock) :
    Ensures (bindParams f ps k g) (Traced fs g (Script.bindParams f ps k g)) (fun _ => True) := by
  induction ps generalizing g k with
  | nil => exact .ok (Traced.refl hc)
  | cons x ps ih =>
      cases hl : g.lookup x with
      | some a =>
          rw [bindParams_clash hr.scopes (by rw [hl]; rfl)]
          exact .error trivial
      | none =>
          rw [bindParams_cons hr.scopes hl]
          have hg := Grown.storeParam f k hr
          have h1 := Traced.insert (i := .alloca (g.newSlot .i32)) hr hc rfl
          have hr1 : (g.insert (.alloca (g.newSlot .i32))).Ready := hr.insert rfl
          have h2 := Traced.insert (i := .store (.arg f k) (g.newSlot .i32)) hr1 h1.context trivial
          have hin : (g.storeParam f k).InEntry (g.storeParam f k).currentFunction (g.newSlot .i32) :=
            ⟨g.insertBlock, hg.frame.entryBlock he,
              mem_insert_instrs.mpr (.inl (mem_insert_instrs.mpr (.inr ⟨rfl, rfl⟩)))⟩
          have h3 := h1.append (h2.append (Traced.one (a := .declare x (g.newSlot .i32)) h2.context
            (h2.context.put hin) (by rintro f ⟨⟩) rfl))
          have hadd := Grown.addParam (f := f) (k := k) hr hl
          refine (ih (k + 1) hadd.ready h3.context (hadd.frame.entryBlock he)).weaken (fun g2 h4 => ?_)
            (fun _ => id)
          exact h3.seq (s := fun g => [.insert (.alloca (g.newSlot .i32)),
            .insert (.store (.arg f k) (g.newSlot .i32)), .declare x (g.newSlot .i32)]) h4

/-- Up to the body of a function literal: the function is opened, its scope pushed and its parameters
    bound. -/
theorem enterFunction_passes (name : Option Name) (ps : List Name) (hr : g.Ready) (hc : g.Context fs) :
    Ensures (g.enterFunction M name ps) (fun g1 => Grown (g.openFunction M name ps.length) g1 ∧
      Passes ⟨fs, false⟩ g (Script.enterFunction M name ps g) ⟨g.functions.length :: fs, false⟩ g1)
      (fun _ => True) := by
  have ho := openFunction_opened (M := M) name ps.length g
  have hopen := openFunction_passes (M := M) name ps.length hr hc
  have hr1 := ho.ready hr
  have hbind := bindParams_traced g.functions.length ps 0 hr1 (ho.context hr hc) (ho.entry hr)
  exact ((bindParams_grows hr1).and hbind).weaken
    (fun g1 h => ⟨h.1, hopen.seq (s := Script.openFunction M name ps.length) h.2⟩) (fun _ _ => trivial)

/-- Leaving gives back the functions that were being compiled. -/
theorem leaveFunction_passes (hr : g.Ready) (hc : g.Context fs) (ho : Opened g g1) (h : Grown g1 g2)
    (hc2 : g2.Context (f :: fs)) :
    Passes ⟨f :: fs, false⟩ g2 (Script.leaveFunction g g2) ⟨fs, false⟩ (closeFunction g g2) := by
  have hs := returnUnlessTerminated_scopeStack g2.lastValue g2
  have h1 := returnUnlessTerminated_traced g2.lastValue h.ready hc2
  -- the scope of the parameters goes, and with it the slots of the function left
  have hclosed : (closeFunction g g2).Context fs := by
    refine ⟨(Grown.leave hr ho h).ready.parent, hc.innermost, ?_⟩
    have hscopes := h1.context.scopes
    rw [hs] at hscopes
    show List.Forall₂ (fun f l => ∀ p ∈ l, (g2.returnUnlessTerminated g2.lastValue).InEntry f p.2) fs
      g2.scopeStack.tail
    cases hl : g2.scopeStack with
    | nil =>
        rw [hl] at hscopes
        cases hscopes
    | cons l ls =>
        rw [hl] at hscopes
        cases hscopes with
        | cons _ htail => exact htail
  have hlast : closeFunction g g2 = { g2.returnUnlessTerminated g2.lastValue with
      scopeStack := (g2.returnUnlessTerminated g2.lastValue).scopeStack.tail
      currentFunction := g.currentFunction
      insertBlock := g.insertBlock
      lastValue := .const (.func g.functions.length) } := by
    rw [hs]
    rfl
  rw [hlast] at hclosed ⊢
  -- the four assignments at the end of `visit(Func)` emit nothing
  have hback : Context { g2.returnUnlessTerminated g2.lastValue with
      scopeStack := (g2.returnUnlessTerminated g2.lastValue).scopeStack.tail
      currentFunction := g.currentFunction
      insertBlock := g.insertBlock } fs := { hclosed with }
  refine h1.seq (s := Script.returnUnlessTerminated g2.lastValue) ?_
  exact .plain h1.context rfl (.hidden (.hidden (.hidden (.hidden (Traced.setLast hback _)))))

/-! ## The visitors -/

/-- A visitor passes through its script. -/
abbrev Traces (fs : List Nat) (g : CodeGenerator) (s : Script) (r : Except Thrown CodeGenerator) : Prop :=
  Ensures r (Traced fs g (s g)) (fun _ => True)

/-- A traced step that also grows gives both for the state it reaches. -/
theorem Traces.grown {s : Script} {m : Except Thrown CodeGenerator} (hg : Grows g m) (h : Traces fs g s m) :
    Ensures m (fun g1 => Grown g g1 ∧ Traced fs g (s g) g1) (fun _ => True) :=
  (hg.and h).result

/-- A visitor step after another. -/
theorem Traces.seq {s r : Script} {m : Except Thrown CodeGenerator}
    {k : CodeGenerator → Except Thrown CodeGenerator} (hg : Grows g m) (h : Traces fs g s m)
    (hk : ∀ g1, Grown g g1 → g1.Context fs → Traces fs g1 r (k g1)) : Traces fs g (s.seq r) (m >>= k) :=
  (Traces.grown hg h).bind (fun g1 h1 =>
    (hk g1 h1.1 h1.2.context).weaken (fun _ h2 => h1.2.seq h2) (fun _ => id))

/-- `CreateLoad` is an instruction and its value. -/
theorem createLoad_traced (a : AllocaInst) (hr : g.Ready) (hc : g.Context fs) :
    Traced fs g (Script.createLoad a g) (g.createLoad a) := Traced.insertLast hr hc trivial

/-- So is `CreateCall`, with its arguments. -/
theorem createCall_traced (arity : Nat) (callee : Value) (args : List Value) (hr : g.Ready)
    (hc : g.Context fs) : Traced fs g (Script.createCall arity callee args g) (g.createCall arity callee args) :=
  Traced.insertLast hr hc trivial

/-- A variable is loaded, or its function is named. -/
theorem visitVariable_traces (x : Name) (hr : g.Ready) (hc : g.Context fs) :
    Traces fs g (Script.visitVariable x) (g.visitVariable x) := by
  unfold Traces Script.visitVariable CodeGenerator.visitVariable
  cases g.lookup x with
  | some a => exact .ok (createLoad_traced a hr hc)
  | none =>
      cases g.functionTable x with
      | some f => exact .ok (Traced.setLast hc _)
      | none => exact .error trivial

/-- An assignment takes a slot and stores. -/
theorem assign_traces (x : Name) (hr : g.Ready) (hc : g.Context fs) :
    Traces fs g (Script.assign x) (g.assign x) := by
  obtain ⟨g1, h, hg, ht⟩ := slotFor_traced x g.lastValue.ty hr hc
  rw [assign, h]
  exact .ok (ht.seq (s := Script.slotFor x g.lastValue.ty) (Traced.insert hg.ready ht.context trivial))

/-- An input calls `scanf` on the slot of `__input_var` and loads it. -/
theorem visitInput_traces (hr : g.Ready) (hc : g.Context fs) : Traces fs g Script.visitInput g.visitInput := by
  obtain ⟨g1, h, hg, ht⟩ := slotFor_traced inputVar .i32 hr hc
  have h2 := getFunc_traced "scanf" hg.ready ht.context
  have hr2 := (Grown.getFunc "scanf" hg.ready).ready
  have h3 := createCall_traced 2 (.const (.func (g1.getFunc "scanf").1))
    [.const (.str "%d"), .slot (Script.slot inputVar .i32 g)] hr2 h2.context
  have h4 := createLoad_traced (Script.slot inputVar .i32 g) (createCall_grown _ _ _ hr2).ready h3.context
  rw [visitInput, h]
  exact .ok (ht.seq (s := Script.slotFor inputVar .i32)
    (h2.seq (s := Script.getFunc "scanf") (h3.seq (s := Script.createCall _ _ _) h4)))

/-- A print calls `printf` on the last value. -/
theorem print_traced (hr : g.Ready) (hc : g.Context fs) : Traced fs g (Script.print g) g.print := by
  have h := getFunc_traced "printf" hr hc
  have hr1 := (Grown.getFunc "printf" hr).ready
  exact h.seq (s := Script.getFunc "printf") (createCall_traced _ _ _ hr1 h.context)

/-- A call of a function value. -/
theorem call_traced (callee : Value) (args : List Value) (hr : g.Ready) (hc : g.Context fs) :
    Traced fs g (Script.call callee args g) (g.call callee args) :=
  createCall_traced _ callee args hr hc

mutual

/-- **Visitors keep the emission context.** -/
theorem visit_traced : ∀ (e : Expression) {fs : List Nat} {g : CodeGenerator}, g.Ready → g.Context fs →
    Traces fs g (e.script M L) (visit M L e g)
  | .number _, fs, g, _, hc => .ok (Traced.setLast hc _)
  | .var x, fs, g, hr, hc => visitVariable_traces x hr hc
  | .assignmentExpr x e, fs, g, hr, hc =>
      .seq (visit_grows e hr) (visit_traced e hr hc) (fun _ h1 hc1 => assign_traces x h1.ready hc1)
  | .binaryOperator op a b, fs, g, hr, hc =>
      .seq (visit_grows a hr) (visit_traced a hr hc) (fun g1 h1 hc1 =>
        .seq (visit_grows b h1.ready) (visit_traced b h1.ready hc1) (fun g2 h2 hc2 =>
          .ok (emitLast_traced _ h2.ready hc2)))
  | .unaryOperator op e, fs, g, hr, hc =>
      .seq (visit_grows e hr) (visit_traced e hr hc) (fun _ h1 hc1 => .ok (emitLast_traced _ h1.ready hc1))
  | .input, fs, g, hr, hc => visitInput_traces hr hc
  | .blockExpr ss, fs, g, hr, hc => visitStmts_traced ss hr hc
  | .func f ps body, fs, g, hr, hc => by
      have ho := openFunction_opened (M := M) f ps.length g
      rw [visit, Expression.script]
      refine (enterFunction_passes f ps hr hc).bind (fun g1 h1 => ?_)
      refine (Traces.grown (visit_grows body h1.1.ready) (visit_traced body h1.1.ready h1.2.context)).bind ?_
      intro g2 h2
      rw [leaveFunction_ok h2.1.ready.scopes]
      have hleave := leaveFunction_passes hr hc ho (h1.1.trans (ho.ready hr) h2.1) h2.2.context
      exact .ok (h1.2.seq (s := Script.enterFunction M f ps) (h2.2.seq hleave))
  | .call t es, fs, g, hr, hc => by
      rw [visit, Expression.script]
      refine .seq (visit_grows t hr) (visit_traced t hr hc) (fun g1 h1 hc1 => ?_)
      have hargs := (visitArgs_grows es h1.ready).and
        (visitArgs_traced es (fun values => Script.call g1.lastValue values) h1.ready hc1)
      refine hargs.result.bind (fun r h2 => ?_)
      exact .ok (h2.2.2 _ (call_traced _ _ h2.1.ready h2.2.1))

/-- A statement passes through its script. -/
theorem visitStmt_traced : ∀ (s : Statement) {fs : List Nat} {g : CodeGenerator}, g.Ready → g.Context fs →
    Traces fs g (s.script M L) (visitStmt M L s g)
  | .emptyStmt, fs, g, _, hc => .ok (Traced.refl hc)
  | .exprStmt e, fs, g, hr, hc => visit_traced e hr hc
  | .ifStmt c t none, fs, g, hr, hc => by
      rw [visitStmt, Statement.script]
      refine .seq (visit_grows c hr) (visit_traced c hr hc) (fun g1 h1 hc1 => ?_)
      have ho := openIf_opens (M := M) h1.ready
      -- the blocks are created and the branch inserted while the condition is still in the current block
      have hopen := openCondition_traced (M := M) (n := 2) (by omega) h1.ready hc1
      have ht := Traces.grown (visit_grows t ho.ready) (visit_traced t ho.ready hopen.context)
      refine ht.bind (fun g2 h2 => ?_)
      have hb := h2.1.trans ho.ready (branchUnlessTerminated_grown h2.1.ready (g1.blockCount + 1))
      have hclose : Grown g1 (g2.closeBranch (g1.blockCount + 1) (g1.blockCount + 1)) :=
        .goOn h1.ready ho hb (by omega) (by omega)
      exact .ok (hopen.seq (s := Script.openIf M)
        (h2.2.seq (closeBranch_traced h2.1.ready h2.2.context hclose.ready)))
  | .ifStmt c t (some e), fs, g, hr, hc => by
      rw [visitStmt, Statement.script]
      refine .seq (visit_grows c hr) (visit_traced c hr hc) (fun g1 h1 hc1 => ?_)
      have ho := openIfElse_opens (M := M) h1.ready
      have hopen := openCondition_traced (M := M) (n := 3) (by omega) h1.ready hc1
      have ht := Traces.grown (visit_grows t ho.ready) (visit_traced t ho.ready hopen.context)
      refine ht.bind (fun g2 h2 => ?_)
      have h3 := closeThen_grown h1.ready h2.1
      -- the `else` part starts where the `then` part has been closed
      have ht3 := closeBranch_traced h2.1.ready h2.2.context h3.ready
      have he := Traces.grown (visit_grows e h3.ready) (visit_traced e h3.ready ht3.context)
      refine he.bind (fun g4 h4 => ?_)
      have hclose := closeElse_grown h1.ready h2.1 h4.1
      exact .ok (hopen.seq (s := Script.openIfElse M) (h2.2.seq (ht3.seq (h4.2.seq
        (closeBranch_traced h4.1.ready h4.2.context hclose.ready)))))
  | .whileStmt c b, fs, g, hr, hc => by
      rw [visitStmt, Statement.script]
      have hl := openLoop_opens hr
      have hloop := openBlocks_traced (n := 1) (i := .br g.blockCount) (by omega) hr hc (fun _ => trivial)
      have hcond := Traces.grown (visit_grows c hl.ready) (visit_traced c hl.ready hloop.context)
      refine hcond.bind (fun g1 h1 => ?_)
      have ho := openBody_opens (M := M) h1.1.ready
      have hopen := openCondition_traced (M := M) (n := 2) (by omega) h1.1.ready h1.2.context
      have hbody := Traces.grown (visit_grows b ho.ready) (visit_traced b ho.ready hopen.context)
      refine hbody.bind (fun g2 h2 => ?_)
      -- the jump back is unconditional, whether or not the body ended in `return`
      have hb : Grown (g1.openBody M) (g2.createBrLast g.blockCount) :=
        h2.1.trans ho.ready (Grown.insert (i := .br g.blockCount) h2.1.ready trivial).setLast
      have hclose : Grown g1 (g2.closeLoop g.blockCount (g1.blockCount + 1)) :=
        .goOn h1.1.ready ho hb (by omega) (by omega)
      exact .ok (hloop.seq (s := Script.openLoop) (h1.2.seq (hopen.seq (s := Script.openBody M)
        (h2.2.seq (closeLoop_traced h2.1.ready h2.2.context hclose.ready)))))
  | .printStmt e, fs, g, hr, hc =>
      .seq (visit_grows e hr) (visit_traced e hr hc) (fun _ h1 hc1 => .ok (print_traced h1.ready hc1))
  | .returnStmt none, fs, g, hr, hc => .ok (Traced.insert hr hc trivial)
  | .returnStmt (some e), fs, g, hr, hc =>
      .seq (visit_grows e hr) (visit_traced e hr hc) (fun _ h1 hc1 => .ok (Traced.insert h1.ready hc1 trivial))

/-- So do statements in a row. -/
theorem visitStmts_traced : ∀ (ss : List Statement) {fs : List Nat} {g : CodeGenerator}, g.Ready →
    g.Context fs → Traces fs g (scriptOfStmts M L ss) (visitStmts M L ss g)
  | [], _, _, _, hc => .ok (Traced.refl hc)
  | s :: ss, _, _, hr, hc =>
      .seq (visitStmt_grows s hr) (visitStmt_traced s hr hc) (fun _ h1 hc1 => visitStmts_traced ss h1.ready hc1)

/-- Arguments hand their values to what is done with them. -/
theorem visitArgs_traced : ∀ (es : List Expression) {fs : List Nat} {g : CodeGenerator}
    (k : List Value → Script), g.Ready → g.Context fs →
    Ensures (visitArgs M L es g) (fun r => r.2.Context fs ∧
      ∀ g', Traced fs r.2 (k r.1 r.2) g' → Traced fs g (scriptOfArgs M L es k g) g') (fun _ => True)
  | [], fs, g, k, _, hc => .ok ⟨hc, fun _ => id⟩
  | e :: es, fs, g, k, hr, hc => by
      rw [visitArgs, scriptOfArgs]
      refine (Traces.grown (visit_grows e hr) (visit_traced e hr hc)).bind (fun g1 h1 => ?_)
      refine (visitArgs_traced es
        (fun values => k (g1.lastValue :: values)) h1.1.ready h1.2.context).bind (fun r h2 => ?_)
      exact .ok ⟨h2.1, fun g' h3 => h1.2.seq (h2.2 g' h3)⟩

end

/-- `main` is the first function to be compiled. -/
theorem enterMain_passes :
    Passes .init .init (Script.enterMain M .init) ⟨[0], false⟩ (enterMain M) := by
  refine .hidden (.hidden (.hidden (.hidden (.hidden (Traced.refl ⟨rfl, rfl, .cons ?_ .nil⟩)))))
  rintro p ⟨⟩

/-- A whole program passes through its script, from the empty module on. -/
theorem visitProgram_passes (p : Program) : Ensures (visitProgram M L p)
    (Passes .init .init (p.script M L .init) ⟨[0], false⟩) (fun _ => True) := by
  have hmain := enterMain_passes (M := M)
  have hstmts := Traces.grown (visitStmts_grows (M := M) (L := L) p.stmts enterMain_ready)
    (visitStmts_traced p.stmts enterMain_ready hmain.context)
  refine hstmts.bind (fun g h => ?_)
  have hret := returnUnlessTerminated_traced (.const (.int 0)) h.1.ready h.2.context
  exact .ok (hmain.seq (s := Script.enterMain M)
    (h.2.seq (r := Script.returnUnlessTerminated (.const (.int 0))) hret))

/-! ## What a visit gives back -/

/-- The function at hand and the number of scopes are as before. -/
structure Returns (g g' : CodeGenerator) : Prop where
  current : g'.currentFunction = g.currentFunction
  depth : g'.scopeStack.length = g.scopeStack.length

theorem Returns.refl (g : CodeGenerator) : Returns g g := ⟨rfl, rfl⟩

/-- What each of two steps gives back, both do. -/
theorem Returns.trans (h1 : Returns g g1) (h2 : Returns g1 g2) : Returns g g2 :=
  ⟨h2.current.trans h1.current, h2.depth.trans h1.depth⟩

/-- What has been thrown is not looked at. -/
abbrev GivesBack (g : CodeGenerator) (r : Except Thrown CodeGenerator) : Prop :=
  Ensures r (Returns g) (fun _ => True)

/-- A step that gives back, and then another. -/
theorem GivesBack.andThen {m : Except Thrown CodeGenerator} {k : CodeGenerator → Except Thrown CodeGenerator}
    (h : GivesBack g m) (hk : ∀ g1, GivesBack g1 (k g1)) : GivesBack g (m >>= k) :=
  h.bind (fun g1 h1 => (hk g1).weaken (fun _ h2 => h1.trans h2) (fun _ => id))

/-- `IRBuilder` does not know of functions and scopes. -/
theorem emit_returns {α : Type} (m : Emit α) (g : CodeGenerator) : Returns g (g.emit M m).2 := by
  induction m generalizing g with
  | pure a => exact .refl g
  | create opcode args next ih =>
      unfold CodeGenerator.emit
      split
      · exact ih _ g
      · have h : Returns g (g.insert (.op g.nextId opcode args)) := ⟨rfl, rfl⟩
        exact h.trans (ih _ _)

theorem emitLast_returns (m : Emit Value) (g : CodeGenerator) : Returns g (g.emitLast M m) := by
  have h := emit_returns (M := M) m g
  exact ⟨h.current, h.depth⟩

theorem condition_returns (n : Nat) (i : CodeGenerator → Instruction) (g : CodeGenerator) :
    Returns g (openBlocks n (i (g.condition M).2) (g.condition M).2) := by
  have h := emit_returns (M := M) (createICmp .ne g.lastValue (.const (.int 0))) g
  have hblocks (n : Nat) (g : CodeGenerator) : Returns g (createBlocks n g) := by
    induction n generalizing g with
    | zero => exact .refl g
    | succ n ih =>
        have h1 : Returns g (g.createBlock g.currentFunction) := ⟨rfl, rfl⟩
        exact h1.trans (ih _)
  have h2 := h.trans (hblocks n _)
  exact ⟨h2.current, h2.depth⟩

theorem branchUnlessTerminated_returns (target : Nat) (g : CodeGenerator) :
    Returns g (g.branchUnlessTerminated target) := by
  unfold branchUnlessTerminated
  split
  · exact .refl g
  · exact ⟨rfl, rfl⟩

theorem closeBranch_returns (merge next : Nat) (g : CodeGenerator) : Returns g (g.closeBranch merge next) := by
  have h := branchUnlessTerminated_returns merge g
  exact ⟨h.current, h.depth⟩

theorem declare_returns (x : Name) (a : AllocaInst) (g : CodeGenerator) : GivesBack g (g.declare x a) := by
  unfold declare
  split
  · exact .error trivial
  · split
    · exact .error trivial
    · exact .ok ⟨rfl, Tables.length_put⟩

/-- A new slot is declared in a scope that is there. -/
theorem slotFor_returns (x : Name) (ty : Ty) (g : CodeGenerator) :
    Ensures (g.slotFor x ty) (fun r => Returns g r.2) (fun _ => True) := by
  unfold slotFor
  cases g.lookup x with
  | some a => exact .ok (.refl g)
  | none =>
      have h := declare_returns x (g.newSlot ty) (g.createEntryAlloca ty)
      exact h.bind (fun g1 h1 => .ok ⟨h1.current, h1.depth⟩)

/-- A declaration changes the module alone. -/
theorem getFunc_returns (name : String) (g : CodeGenerator) : Returns g (g.getFunc name).2 := by
  unfold getFunc
  split
  · exact .refl g
  · exact ⟨rfl, rfl⟩

theorem bindParams_returns (f : Nat) (ps : List Name) (k : Nat) (g : CodeGenerator) :
    GivesBack g (bindParams f ps k g) := by
  induction ps generalizing g k with
  | nil => exact .ok (.refl g)
  | cons x ps ih =>
      have h : GivesBack g ((g.storeParam f k).declare x (g.newSlot .i32)) :=
        (declare_returns x (g.newSlot .i32) (g.storeParam f k)).weaken
          (fun _ h => ⟨h.current, h.depth⟩) (fun _ => id)
      exact h.andThen (fun g1 => ih (k + 1) g1)

/-- The scope that the function has opened is closed again. -/
theorem leaveFunction_returns (saved : CodeGenerator) (h : g.scopeStack.length = saved.scopeStack.length + 1) :
    GivesBack saved (leaveFunction saved g) := by
  have hne : g.scopeStack ≠ [] := List.ne_nil_of_length_eq_add_one h
  rw [leaveFunction_ok hne]
  refine .ok ⟨rfl, ?_⟩
  show g.scopeStack.tail.length = _
  rw [List.length_tail, h]
  rfl

mutual

/-- **Every visitor gives back** the current function and the scopes it was called with. -/
theorem visit_returns : ∀ (e : Expression) (g : CodeGenerator), GivesBack g (visit M L e g)
  | .number _, g => .ok ⟨rfl, rfl⟩
  | .var x, g => by
      rw [visit, visitVariable]
      cases g.lookup x with
      | some a => exact .ok ⟨rfl, rfl⟩
      | none =>
          cases g.functionTable x with
          | some f => exact .ok ⟨rfl, rfl⟩
          | none => exact .error trivial
  | .assignmentExpr x e, g => .andThen (visit_returns e g) (fun g1 => by
      refine (slotFor_returns x g1.lastValue.ty g1).bind (fun r h => ?_)
      exact .ok ⟨h.current, h.depth⟩)
  | .binaryOperator op a b, g =>
      .andThen (visit_returns a g) (fun g1 =>
        .andThen (visit_returns b g1) (fun g2 => .ok (emitLast_returns _ g2)))
  | .unaryOperator op e, g => .andThen (visit_returns e g) (fun g1 => .ok (emitLast_returns _ g1))
  | .input, g => by
      refine (slotFor_returns inputVar .i32 g).bind (fun r h => ?_)
      have h2 := h.trans (getFunc_returns "scanf" r.2)
      exact .ok ⟨h2.current, h2.depth⟩
  | .blockExpr ss, g => visitStmts_returns ss g
  | .func f ps body, g => by
      have hopen : (g.openFunction M f ps.length).scopeStack.length = g.scopeStack.length + 1 := by
        rw [(openFunction_opened f ps.length g).scopeStack]
        rfl
      rw [visit]
      refine (bindParams_returns g.functions.length ps 0 (g.openFunction M f ps.length)).bind (fun g1 h1 => ?_)
      refine (visit_returns body g1).bind (fun g2 h2 => ?_)
      exact leaveFunction_returns g (h2.depth.trans (h1.depth.trans hopen))
  | .call t es, g => by
      rw [visit]
      refine .andThen (visit_returns t g) (fun g1 => ?_)
      refine (visitArgs_returns es g1).bind (fun r h => ?_)
      exact .ok ⟨h.current, h.depth⟩

/-- So does every statement. -/
theorem visitStmt_returns : ∀ (s : Statement) (g : CodeGenerator), GivesBack g (visitStmt M L s g)
  | .emptyStmt, g => .ok (.refl g)
  | .exprStmt e, g => visit_returns e g
  | .ifStmt c t none, g => by
      rw [visitStmt]
      refine .andThen (visit_returns c g) (fun g1 => ?_)
      have ho : Returns g1 (g1.openIf M) :=
        condition_returns 2 (fun g' => .condBr (g1.condition M).1 g'.blockCount (g'.blockCount + 1)) g1
      refine (visit_returns t _).bind (fun g2 h2 => ?_)
      exact .ok (ho.trans (h2.trans (closeBranch_returns _ _ g2)))
  | .ifStmt c t (some e), g => by
      rw [visitStmt]
      refine .andThen (visit_returns c g) (fun g1 => ?_)
      have ho : Returns g1 (g1.openIfElse M) :=
        condition_returns 3 (fun g' => .condBr (g1.condition M).1 g'.blockCount (g'.blockCount + 1)) g1
      refine (visit_returns t _).bind (fun g2 h2 => ?_)
      refine (visit_returns e _).bind (fun g3 h3 => ?_)
      have h4 := ho.trans (h2.trans (closeBranch_returns (g1.blockCount + 2) (g1.blockCount + 1) g2))
      exact .ok (h4.trans (h3.trans (closeBranch_returns _ _ g3)))
  | .whileStmt c b, g => by
      rw [visitStmt]
      refine (visit_returns c g.openLoop).bind (fun g1 h1 => ?_)
      have ho : Returns g1 (g1.openBody M) :=
        condition_returns 2 (fun g' => .condBr (g1.condition M).1 g'.blockCount (g'.blockCount + 1)) g1
      refine (visit_returns b _).bind (fun g2 h2 => ?_)
      have h3 := h1.trans (ho.trans h2)
      exact .ok ⟨h3.current, h3.depth⟩
  | .printStmt e, g => .andThen (visit_returns e g) (fun g1 => by
      have h := getFunc_returns "printf" g1
      exact .ok ⟨h.current, h.depth⟩)
  | .returnStmt none, g => .ok ⟨rfl, rfl⟩
  | .returnStmt (some e), g => .andThen (visit_returns e g) (fun _ => .ok ⟨rfl, rfl⟩)

theorem visitStmts_returns : ∀ (ss : List Statement) (g : CodeGenerator), GivesBack g (visitStmts M L ss g)
  | [], g => .ok (.refl g)
  | s :: ss, g => .andThen (visitStmt_returns s g) (visitStmts_returns ss)

theorem visitArgs_returns : ∀ (es : List Expression) (g : CodeGenerator),
    Ensures (visitArgs M L es g) (fun r => Returns g r.2) (fun _ => True)
  | [], g => .ok (.refl g)
  | e :: es, g => by
      rw [visitArgs]
      refine (visit_returns e g).bind (fun g1 h1 => ?_)
      refine (visitArgs_returns es g1).bind (fun r h2 => ?_)
      exact .ok (h1.trans h2)

end

end CodeGenerator

/-! ## The invariant of a run -/

/-- `func() {};` -/
def emptyFunction : Program where
  stmts := [.exprStmt (.func none [] (.blockExpr []))]

/-- Between `SetInsertPoint` and the assignment to `current_function_` the insertion block is not of that
    function. -/
theorem context_switching : ¬ ∀ p, Accepted p →
    ∀ g, CodeGenerator.visitProgram .standard .source p = .ok g →
    ∀ t u, p.script .standard .source .init = t ++ u → (emission.ghost t .init).funcs ≠ [] →
      (emission.after t .init).block.parent = (emission.after t .init).currentFunction := by
  intro h
  have hctx := h emptyFunction (by decide) _ rfl _ _
    (List.take_append_drop 11 (emptyFunction.script .standard .source .init)).symm (by decide)
  exact absurd hctx (by decide)

/-- **The emission context invariant.** A program that compiles takes the calls of its script. At every moment
    of it but for a change of functions there is an emission context in the functions being compiled; what is
    created goes into the innermost of them; and every visit gives back what it found. -/
theorem emission_context {M : Llvm} {L : Lowering} {p : Program} {g : CodeGenerator}
    (h : CodeGenerator.visitProgram M L p = .ok g) :
    emission.after (p.script M L .init) .init = g ∧
      (∀ t u, p.script M L .init = t ++ u → (emission.ghost t .init).switching = false →
        (emission.after t .init).Context (emission.ghost t .init).funcs) ∧
      (∀ t a u, p.script M L .init = t ++ a :: u → (emission.ghost t .init).switching = false →
        ∀ f ∈ a.target (emission.after t .init), (emission.ghost t .init).funcs.head? = some f) ∧
      (∀ e g g', CodeGenerator.visit M L e g = .ok g' → g.Returns g') ∧
      ∀ s g g', CodeGenerator.visitStmt M L s g = .ok g' → g.Returns g' := by
  have hpass := (CodeGenerator.visitProgram_passes (M := M) (L := L) p).of_ok h
  refine ⟨hpass.lands, fun t u heq => ?_, fun t a u heq => ?_, fun e g1 g2 hv => ?_, fun s g1 g2 hv => ?_⟩
  · have hsafe := hpass.safe
    rw [heq] at hsafe
    exact hsafe.good
  · have hsafe := hpass.safe
    rw [heq] at hsafe
    exact hsafe.allowed
  · exact (CodeGenerator.visit_returns e g1).of_ok hv
  · exact (CodeGenerator.visitStmt_returns s g1).of_ok hv

/-- A program with a function: the script is its own, it gives back `main` and its scope, and passes. -/
theorem emission_context_emptyFunction :
    ∃ g, CodeGenerator.visitProgram .standard .source emptyFunction = .ok g ∧
      emission.after (emptyFunction.script .standard .source .init) .init = g ∧
      (∀ t u, emptyFunction.script .standard .source .init = t ++ u →
        (emission.ghost t .init).switching = false →
        (emission.after t .init).Context (emission.ghost t .init).funcs) ∧
      (∀ t a u, emptyFunction.script .standard .source .init = t ++ a :: u →
        (emission.ghost t .init).switching = false →
        ∀ f ∈ a.target (emission.after t .init), (emission.ghost t .init).funcs.head? = some f) ∧
      (∀ e g g', CodeGenerator.visit .standard .source e g = .ok g' → g.Returns g') ∧
      ∀ s g g', CodeGenerator.visitStmt .standard .source s g = .ok g' → g.Returns g' :=
  ⟨_, rfl, emission_context (M := .standard) (L := .source) (p := emptyFunction) rfl⟩

end ParaCL
