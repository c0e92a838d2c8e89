import ParaCL.Ast.Renaming
import ParaCL.Codegen.Growth

/-!
# `Codegen.Capture` — names of the generator and names of the program

The generator keeps its own names where it keeps those of the program: `__input_var` in the scope table,
`func_0`, `func_1`, … in the function table, `printf` and `scanf` among the functions of the module.
`Bindings` follows, through the uses of two programs that differ in their names only, what each name stands
for on either side, and `Resolves` says that the next use finds the same on both. As long as it does, the
generator's states differ in nothing but names (`Renamed`); this module shows it for the steps of the
visitors.
-/

namespace ParaCL

open Lib

/-! ## What the names stand for -/

/-- A function of the C library in the two modules: not there, at the same place of both, or hidden behind a
    function of one of the programs. -/
inductive Held where
  | missing | shared | taken
  deriving DecidableEq, Repr

namespace Held

/-- The modules get one more function each, which has the name or not. -/
def next (has has' : Bool) : Held → Held
  | .missing => if has && has' then .shared else if has || has' then .taken else .missing
  | .shared => .shared
  | .taken => .taken

/-- A function of another name changes nothing. -/
@[simp] theorem next_false (h : Held) : h.next false false = h := by cases h <;> rfl

end Held

/-- An entry of the scope table: a variable, under its two names, or the hidden variable of `?`. -/
abbrev Entry := Option (Name × Name)

/-- The name in the one program. -/
def Entry.oldName : Entry → Name
  | some u => u.1
  | none => inputVar

/-- The name in the other program. -/
def Entry.newName : Entry → Name
  | some u => u.2
  | none => inputVar

/-- The names of both programs: the entries of the scope table, how many functions had no name, which
    function names stand for different functions since then, and where the library functions are. -/
structure Bindings where
  scopes : Layers Entry
  anonymous : Nat
  overwritten : Name × Name → Bool
  printf : Held
  scanf : Held

namespace Bindings

/-- At the beginning no name is bound. -/
def init : Bindings := ⟨[[]], 0, fun _ => false, .missing, .missing⟩

/-- Some entry has the name, in the one program. -/
def Declared (B : Bindings) (x : Name) : Prop := Layers.Visible x (B.scopes.map (List.map Entry.oldName))

instance (B : Bindings) (x : Name) : Decidable (B.Declared x) :=
  inferInstanceAs (Decidable (Layers.Visible _ _))

/-- Look the entry up, or put it into the innermost scope. -/
def bind (k : Entry) (B : Bindings) : Bindings :=
  if B.Declared k.oldName then B
  else match B.scopes with
    | [] => B
    | l :: ls => { B with scopes := (k :: l) :: ls }

/-- The modules get one more function each. -/
def extend (name name' : Name) (B : Bindings) : Bindings :=
  { B with
    printf := B.printf.next (name = "printf") (name' = "printf")
    scanf := B.scanf.next (name = "scanf") (name' = "scanf") }

/-- Enter a function: one of the program, or one that gets the next name of `func_0`, `func_1`, … -/
def enter (funcName : Option (Name × Name)) (B : Bindings) : Bindings :=
  match funcName with
  | some u =>
      { B.extend u.1 u.2 with
        scopes := [] :: B.scopes
        overwritten := Function.update B.overwritten u false }
  | none =>
      let f := "func_" ++ toString B.anonymous
      { B with
        scopes := [] :: B.scopes
        anonymous := B.anonymous + 1
        -- of two names, one that is overwritten alone no longer stands for what the other one does
        overwritten := fun u => if u.1 = f ∨ u.2 = f then u.1 ≠ u.2 else B.overwritten u }

/-- What one use binds. -/
def step (B : Bindings) : Use (Name × Name) → Bindings
  | .read _ => B
  | .bind u => B.bind (some u)
  | .enter funcName => B.enter funcName
  | .leave => { B with scopes := B.scopes.tail }
  | .input => (B.bind none).extend "scanf" "scanf"
  | .print => B.extend "printf" "printf"

/-- While the hidden variable is in scope, none of the two names alone is its name. -/
def Apart (B : Bindings) (u : Name × Name) : Prop :=
  Layers.Visible none B.scopes → (u.1 = inputVar ↔ u.2 = inputVar)

/-- The use finds the same on both sides. -/
def Resolves (B : Bindings) : Use (Name × Name) → Prop
  | .read u => B.Apart u ∧ (B.Declared u.1 ∨ B.overwritten u = false)
  | .bind u => B.Apart u
  | .input => (∀ l ∈ B.scopes, ∀ k ∈ l, (k.oldName = inputVar ↔ k.newName = inputVar)) ∧ B.scanf ≠ .taken
  | .print => B.printf ≠ .taken
  | .enter _ => True
  | .leave => True

instance (B : Bindings) (u : Name × Name) : Decidable (B.Apart u) :=
  inferInstanceAs (Decidable (Layers.Visible none B.scopes → (u.1 = inputVar ↔ u.2 = inputVar)))

instance (B : Bindings) : ∀ u, Decidable (B.Resolves u)
  | .read u => inferInstanceAs (Decidable (B.Apart u ∧ (B.Declared u.1 ∨ B.overwritten u = false)))
  | .bind u => inferInstanceAs (Decidable (B.Apart u))
  | .input => inferInstanceAs (Decidable
      ((∀ l ∈ B.scopes, ∀ k ∈ l, (k.oldName = inputVar ↔ k.newName = inputVar)) ∧ B.scanf ≠ .taken))
  | .print => inferInstanceAs (Decidable (B.printf ≠ .taken))
  | .enter _ => inferInstanceAs (Decidable True)
  | .leave => inferInstanceAs (Decidable True)

/-- What the names stand for after some uses. -/
def after (us : List (Use (Name × Name))) (B : Bindings) : Bindings := us.foldl step B

/-- Each of the uses finds the same on both sides. -/
def Resolved : List (Use (Name × Name)) → Bindings → Prop
  | [], _ => True
  | u :: us, B => B.Resolves u ∧ Resolved us (B.step u)

/-- The uses are walked through once. -/
instance decidableResolved : ∀ us B, Decidable (Resolved us B)
  | [], _ => .isTrue trivial
  | u :: us, B =>
      @instDecidableAnd (B.Resolves u) (Resolved us (B.step u)) _ (decidableResolved us (B.step u))

/-- Uses in two parts. -/
theorem after_append (us vs : List (Use (Name × Name))) (B : Bindings) :
    after (us ++ vs) B = after vs (after us B) := List.foldl_append

/-- The second part starts with the bindings that the first one leaves. -/
theorem resolved_append {us vs : List (Use (Name × Name))} {B : Bindings} :
    Resolved (us ++ vs) B ↔ Resolved us B ∧ Resolved vs (after us B) := by
  induction us generalizing B with
  | nil => simp [Resolved, after]
  | cons u us ih => simp only [List.cons_append, Resolved, ih, and_assoc]; rfl

/-- A name that is free goes into the innermost scope. -/
theorem bind_scopes_cons {k : Entry} {B : Bindings} {l : List Entry} {ls : Layers Entry}
    (hs : B.scopes = l :: ls) (h : ¬ B.Declared k.oldName) :
    B.bind k = { B with scopes := (k :: l) :: ls } := by
  rw [bind, if_neg h, hs]

end Bindings

/-! ## Two states of the generator -/

/-- The tables of the generator in which names occur. -/
structure NameTables where
  functions : List IrFunction
  scopeStack : Tables Name AllocaInst
  functionTable : Name → Option Nat

namespace CodeGenerator

/-- The state with other tables of names. -/
def withTables (N : NameTables) (g : CodeGenerator) : CodeGenerator :=
  { g with
    functions := N.functions
    scopeStack := N.scopeStack
    functionTable := N.functionTable }

/-- A step that neither reads nor changes these tables. -/
structure Nameless (op : CodeGenerator → CodeGenerator) : Prop where
  commutes : ∀ N g, op (g.withTables N) = (op g).withTables N
  counter : ∀ g, (op g).funcCounter = g.funcCounter
  keeps : ∀ g f, (op g).entryBlock f = none → g.entryBlock f = none

end CodeGenerator

/-- The library function of the name, in the functions of the two modules. -/
def Held.Agrees (s : String) (fs fs' : List IrFunction) : Held → Prop
  | .missing => (∀ f ∈ fs, f.name ≠ s) ∧ ∀ f ∈ fs', f.name ≠ s
  | .shared => ∃ k, fs.findIdx? (fun f => f.name = s) = some k ∧ fs'.findIdx? (fun f => f.name = s) = some k
  | .taken => True

/-- The states differ in their names only. -/
structure Renamed (τ : Name → Name) (B : Bindings) (g g' : CodeGenerator) : Prop where
  same : ∃ N, g' = g.withTables N
  scopes : ∃ T, Tables.keys T = B.scopes ∧ g.scopeStack = Tables.mapKeys Entry.oldName T ∧
    g'.scopeStack = Tables.mapKeys Entry.newName T
  pairs : ∀ u, Layers.Visible (some u) B.scopes → u.2 = τ u.1
  counts : g'.functions.map IrFunction.paramCount = g.functions.map IrFunction.paramCount
  declarations : ∀ f, g.entryBlock f = none → g'.functions[f]? = g.functions[f]?
  table : ∀ x, B.overwritten (x, τ x) = false → g'.functionTable (τ x) = g.functionTable x
  counter : B.anonymous = g.funcCounter
  printf : B.printf.Agrees "printf" g.functions g'.functions
  scanf : B.scanf.Agrees "scanf" g.functions g'.functions

namespace CodeGenerator

/-! ## Nameless steps -/

section Nameless

variable {op op' : CodeGenerator → CodeGenerator} {g g' : CodeGenerator} {M : Llvm}

/-- Two nameless steps make one. -/
theorem Nameless.comp (h : Nameless op) (h' : Nameless op') : Nameless (fun g => op' (op g)) where
  commutes N g := by rw [h.commutes, h'.commutes]
  counter g := (h'.counter _).trans (h.counter g)
  keeps g f hf := h.keeps g f (h'.keeps _ f hf)

/-- A function has no entry block exactly if it has no block. -/
theorem entryBlock_eq_none {f : Nat} :
    g.entryBlock f = none ↔ ∀ b < g.blockCount, (g.blocks b).parent ≠ f := by
  simp [entryBlock]

/-- A function keeps its blocks. -/
theorem entryBlock_keeps {f : Nat} (hn : g.blockCount ≤ g'.blockCount)
    (hp : ∀ b < g.blockCount, (g'.blocks b).parent = (g.blocks b).parent) (h : g'.entryBlock f = none) :
    g.entryBlock f = none := by
  rw [entryBlock_eq_none] at h ⊢
  intro b hb
  rw [← hp b hb]
  exact h b (Nat.lt_of_lt_of_le hb hn)

theorem update_parent {blocks : Nat → BasicBlock} {b : Nat} {c : BasicBlock}
    (hc : c.parent = (blocks b).parent) (d : Nat) :
    (Function.update blocks b c d).parent = (blocks d).parent := by
  by_cases hdb : d = b
  · subst hdb
    rw [Function.update_self, hc]
  · rw [Function.update_of_ne hdb]

/-- An instruction that is made without the tables. -/
theorem nameless_insert (i : CodeGenerator → Instruction) (hi : ∀ N g, i (g.withTables N) = i g) :
    Nameless (fun g => g.insert (i g)) where
  commutes N g := by rw [hi]; rfl
  counter _ := rfl
  keeps g _ h := by
    have hp (b : Nat) : ((g.insert (i g)).blocks b).parent = (g.blocks b).parent := by
      show (Function.update g.blocks g.insertBlock _ b).parent = _
      exact update_parent (by rfl) b
    have hn : g.blockCount ≤ (g.insert (i g)).blockCount := Nat.le_refl _
    exact entryBlock_keeps hn (fun b _ => hp b) h

/-- Likewise a value. -/
theorem nameless_setLast (v : CodeGenerator → Value) (hv : ∀ N g, v (g.withTables N) = v g) :
    Nameless (fun g => g.setLast (v g)) where
  commutes N g := by rw [hv]; rfl
  counter _ := rfl
  keeps _ _ h := h

/-- The next block may be chosen without them too. -/
theorem nameless_setInsertPoint (b : CodeGenerator → Nat) (hb : ∀ N g, b (g.withTables N) = b g) :
    Nameless (fun g => g.setInsertPoint (b g)) where
  commutes N g := by rw [hb]; rfl
  counter _ := rfl
  keeps _ _ h := h

/-- So may the function that a block is put into. -/
theorem nameless_createBlock (f : CodeGenerator → Nat) (hf : ∀ N g, f (g.withTables N) = f g) :
    Nameless (fun g => g.createBlock (f g)) where
  commutes N g := by rw [hf]; rfl
  counter _ := rfl
  keeps g _ h := by
    refine entryBlock_keeps (Nat.le_succ _) (fun b hb => ?_) h
    exact congrArg BasicBlock.parent (Function.update_of_ne (Nat.ne_of_lt hb) _ _)

/-- A hoisted slot has no name yet. -/
theorem nameless_createEntryAlloca (ty : Ty) : Nameless (createEntryAlloca ty) where
  commutes _ _ := rfl
  counter _ := rfl
  keeps g _ h := by
    have hp (b : Nat) : ((g.createEntryAlloca ty).blocks b).parent = (g.blocks b).parent := by
      show (Function.update g.blocks ((g.entryBlock g.block.parent).getD 0) _ b).parent = _
      exact update_parent (by rfl) b
    have hn : g.blockCount ≤ (g.createEntryAlloca ty).blockCount := Nat.le_refl _
    exact entryBlock_keeps hn (fun b _ => hp b) h

theorem nameless_createLoad (a : AllocaInst) : Nameless (createLoad a) := by
  have h := nameless_insert (fun g => .load g.nextId a) (fun _ _ => rfl)
  exact ⟨fun _ _ => rfl, fun _ => rfl, h.keeps⟩

theorem nameless_createStore (v : Value) (a : AllocaInst) : Nameless (createStore v a) :=
  nameless_insert (fun _ => .store v a) (fun _ _ => rfl)

theorem nameless_createCall (arity : Nat) (callee : Value) (args : List Value) :
    Nameless (createCall arity callee args) := by
  have h := nameless_insert (fun g => .call g.nextId arity callee args) (fun _ _ => rfl)
  exact ⟨fun _ _ => rfl, fun _ => rfl, h.keeps⟩

theorem nameless_createRet (v : Value) : Nameless (createRet v) := nameless_insert (fun _ => .ret v) (fun _ _ => rfl)

theorem nameless_storeParam (f k : Nat) : Nameless (storeParam f k) := by
  have h := nameless_insert (fun g => .alloca (g.newSlot .i32)) (fun _ _ => rfl)
  have h' (a : AllocaInst) := (nameless_createStore (.arg f k) a).keeps
  exact ⟨fun _ _ => rfl, fun _ => rfl, fun g _ hf => h.keeps g _ (h' _ _ _ hf)⟩

/-- Whether the block is closed is not a matter of names. -/
theorem nameless_unlessTerminated {op : CodeGenerator → CodeGenerator} (h : Nameless op) :
    Nameless (fun g => if g.terminated then g else op g) where
  commutes N g := by
    show (if g.terminated then g.withTables N else op (g.withTables N)) = _
    rw [h.commutes]
    split <;> rfl
  counter g := by
    split
    · rfl
    · exact h.counter g
  keeps g f hf := by
    split at hf
    · exact hf
    · exact h.keeps g f hf

theorem nameless_returnUnlessTerminated (v : Value) : Nameless (returnUnlessTerminated v) :=
  nameless_unlessTerminated (nameless_createRet v)

/-- The end of a branch looks at the block alone. -/
theorem nameless_closeBranch (merge next : Nat) : Nameless (closeBranch merge next) :=
  (nameless_unlessTerminated (nameless_insert (fun _ => .br merge) (fun _ _ => rfl))).comp
    (nameless_setInsertPoint (fun _ => next) (fun _ _ => rfl))

/-- So does the end of a loop. -/
theorem nameless_closeLoop (cond endLoop : Nat) : Nameless (closeLoop cond endLoop) := by
  have h := nameless_insert (fun _ => .br cond) (fun _ _ => rfl)
  exact ⟨fun _ _ => rfl, fun _ => rfl, h.keeps⟩

theorem nameless_openLoop : Nameless openLoop := by
  have h := nameless_createBlock currentFunction (fun _ _ => rfl)
  have h' (b : Nat) := (nameless_insert (fun _ => .br b) (fun _ _ => rfl)).keeps
  exact ⟨fun _ _ => rfl, fun _ => rfl, fun g _ hf => h.keeps g _ (h' _ _ _ hf)⟩

/-- A sequence of instructions gives the same values. -/
theorem emit_withTables {α : Type} (m : Emit α) (N : NameTables) (g : CodeGenerator) :
    emit M m (g.withTables N) = ((emit M m g).1, (emit M m g).2.withTables N) := by
  induction m generalizing g with
  | pure a => rfl
  | create opcode args next ih =>
      unfold emit
      cases foldValue M opcode args with
      | some c => exact ih _ g
      | none => exact ih _ (g.insert (.op g.nextId opcode args))

/-- Operators are lowered, and folded, without the tables. -/
theorem nameless_emit {α : Type} (m : Emit α) : Nameless (fun g => (emit M m g).2) where
  commutes N g := by rw [emit_withTables]
  counter g := by
    induction m generalizing g with
    | pure a => rfl
    | create opcode args next ih =>
        unfold emit
        cases foldValue M opcode args with
        | some c => exact ih _ g
        | none => exact ih _ (g.insert (.op g.nextId opcode args))
  keeps g f hf := by
    induction m generalizing g with
    | pure a => exact hf
    | create opcode args next ih =>
        unfold emit at hf
        cases hfold : foldValue M opcode args with
        | some c =>
            rw [hfold] at hf
            exact ih _ g hf
        | none =>
            rw [hfold] at hf
            have h := nameless_insert (fun g => .op g.nextId opcode args) (fun _ _ => rfl)
            exact h.keeps g f (ih _ _ hf)

theorem nameless_createBlocks (n : Nat) : Nameless (createBlocks n) := by
  induction n with
  | zero => exact ⟨fun _ _ => rfl, fun _ => rfl, fun _ _ h => h⟩
  | succ n ih => exact (nameless_createBlock currentFunction (fun _ _ => rfl)).comp ih

theorem nameless_openBlocks (n : Nat) (i : Instruction) : Nameless (openBlocks n i) where
  commutes N g := by
    unfold openBlocks
    rw [(nameless_createBlocks n).commutes]
    rfl
  counter g := (nameless_createBlocks n).counter g
  keeps g f hf := by
    have hinsert := nameless_insert (fun _ => i) (fun _ _ => rfl)
    exact (nameless_createBlocks n).keeps g f (hinsert.keeps _ f hf)

/-- A branch on the last value. -/
theorem nameless_openCondition (n : Nat) : Nameless (fun g => openBlocks n
    (.condBr (g.condition M).1 (g.condition M).2.blockCount ((g.condition M).2.blockCount + 1))
    (g.condition M).2) where
  commutes N g := by
    have h := emit_withTables (M := M) (createICmp .ne g.lastValue (.const (.int 0))) N g
    have h : (g.withTables N).condition M = ((g.condition M).1, (g.condition M).2.withTables N) := h
    rw [h]
    exact (nameless_openBlocks n _).commutes N _
  counter g := ((nameless_openBlocks n _).counter _).trans ((nameless_emit _).counter g)
  keeps g f hf := (nameless_emit _).keeps g f ((nameless_openBlocks n _).keeps _ f hf)

theorem nameless_openIf : Nameless (openIf M) := nameless_openCondition 2

theorem nameless_openIfElse : Nameless (openIfElse M) := nameless_openCondition 3

theorem nameless_openBody : Nameless (openBody M) := nameless_openCondition 2

theorem nameless_emitLast (m : Emit Value) : Nameless (emitLast M m) where
  commutes N g := by
    unfold emitLast
    rw [emit_withTables]
    rfl
  counter g := (nameless_emit (M := M) m).counter g
  keeps g f hf := (nameless_emit (M := M) m).keeps g f hf

end Nameless

end CodeGenerator

/-! ## The steps of the visitors -/

open CodeGenerator

section Steps

variable {τ : Name → Name} {B : Bindings} {g g' : CodeGenerator} {M : Llvm} {k : Entry} {x : Name}

/-- A nameless step leaves the tables alone. -/
theorem CodeGenerator.Nameless.tables {op : CodeGenerator → CodeGenerator} (h : Nameless op) (g : CodeGenerator) :
    (op g).functions = g.functions ∧ (op g).scopeStack = g.scopeStack ∧
      (op g).functionTable = g.functionTable := by
  have hc : op g = (op g).withTables ⟨g.functions, g.scopeStack, g.functionTable⟩ := h.commutes ⟨_, _, _⟩ g
  have hf := congrArg functions hc
  have hs := congrArg scopeStack hc
  have ht := congrArg functionTable hc
  exact ⟨hf, hs, ht⟩

/-- **Nameless steps act alike on both sides.** -/
theorem Renamed.nameless {op : CodeGenerator → CodeGenerator} (hop : Nameless op) (h : Renamed τ B g g') :
    Renamed τ B (op g) (op g') := by
  obtain ⟨N, rfl⟩ := h.same
  obtain ⟨hf, hs, ht⟩ := hop.tables g
  rw [hop.commutes]
  refine ⟨⟨N, rfl⟩, ?_, h.pairs, ?_, fun f hnone => ?_, ?_, ?_, ?_, ?_⟩
  · rw [hs]; exact h.scopes
  · rw [hf]; exact h.counts
  · rw [hf]; exact h.declarations f (hop.keeps g f hnone)
  · rw [ht]; exact h.table
  · rw [hop.counter]; exact h.counter
  · rw [hf]; exact h.printf
  · rw [hf]; exact h.scanf

/-- Values do not carry names. -/
theorem Renamed.lastValue (h : Renamed τ B g g') : g'.lastValue = g.lastValue := by
  obtain ⟨N, rfl⟩ := h.same; rfl

/-- Blocks are numbered on both sides alike. -/
theorem Renamed.blockCount (h : Renamed τ B g g') : g'.blockCount = g.blockCount := by
  obtain ⟨N, rfl⟩ := h.same; rfl

/-- A function has as many parameters under either name. -/
theorem Renamed.paramCount (h : Renamed τ B g g') (f : Nat) :
    g'.functions[f]?.map IrFunction.paramCount = g.functions[f]?.map IrFunction.paramCount := by
  rw [← List.getElem?_map, ← List.getElem?_map, h.counts]

theorem Renamed.length (h : Renamed τ B g g') : g'.functions.length = g.functions.length := by
  have hc := congrArg List.length h.counts
  rwa [List.length_map, List.length_map] at hc

/-! ### The scope table -/

/-- The two names of the entry are those of the same entries. -/
def Bindings.Same (B : Bindings) (k : Entry) : Prop :=
  ∀ j, Layers.Visible j B.scopes → (j.oldName = k.oldName ↔ j.newName = k.newName)

/-- A name that is apart from the hidden variable is bound on both sides or on neither. -/
theorem Renamed.same_of_apart (hτ : Function.Injective τ) (h : Renamed τ B g g') (ha : B.Apart (x, τ x)) :
    B.Same (some (x, τ x)) := by
  intro j hj
  cases j with
  | none =>
      have hx := ha hj
      exact ⟨fun he => (hx.mp he.symm).symm, fun he => (hx.mpr he.symm).symm⟩
  | some u =>
      show u.1 = x ↔ u.2 = τ x
      rw [h.pairs u hj, hτ.eq_iff]

/-- So is the hidden variable, as long as no name in scope is its name on one side only. -/
theorem same_input (hu : ∀ l ∈ B.scopes, ∀ j ∈ l, (j.oldName = inputVar ↔ j.newName = inputVar)) :
    B.Same none := by
  rintro j ⟨l, hl, hj⟩
  exact hu l hl j hj

/-- Names bound alike stand for the same slot. -/
theorem Renamed.lookup (h : Renamed τ B g g') (hk : B.Same k) :
    g'.lookup k.newName = g.lookup k.oldName := by
  obtain ⟨T, hT, hs, hs'⟩ := h.scopes
  unfold CodeGenerator.lookup
  rw [hs, hs']
  exact (Tables.lookup_mapKeys (fun j hj => hk j (hT ▸ hj))).symm

/-- The bindings know which names have a slot. -/
theorem Renamed.declared (h : Renamed τ B g g') : (g.lookup x).isSome ↔ B.Declared x := by
  obtain ⟨T, hT, hs, _⟩ := h.scopes
  unfold CodeGenerator.lookup Bindings.Declared
  rw [hs, Tables.lookup_isSome, Tables.keys_mapKeys, hT]

/-- Declaring a name succeeds on both sides or throws on both. -/
theorem Renamed.declare (h : Renamed τ B g g') (hk : B.Same k) (hp : ∀ u, k = some u → u.2 = τ u.1)
    (a : AllocaInst) :
    Coupled (g.declare k.oldName a) (g'.declare k.newName a) (Renamed τ (B.bind k)) := by
  have hl := h.lookup hk
  have hd := h.declared (x := k.oldName)
  obtain ⟨N, rfl⟩ := h.same
  obtain ⟨T, hT, hs, hs'⟩ := h.scopes
  unfold CodeGenerator.declare
  cases T with
  | nil =>
      have hs : g.scopeStack = [] := hs
      have hs' : (g.withTables N).scopeStack = [] := hs'
      rw [if_pos hs, if_pos hs']
      exact Coupled.error
  | cons l ls =>
      have hne : g.scopeStack ≠ [] := by rw [hs]; exact List.cons_ne_nil _ _
      have hne' : (g.withTables N).scopeStack ≠ [] := by rw [hs']; exact List.cons_ne_nil _ _
      rw [if_neg hne, if_neg hne', hl]
      by_cases hv : (g.lookup k.oldName).isSome
      -- a parameter of a name in scope: both throw
      · rw [if_pos hv, if_pos hv]
        exact Coupled.error
      · rw [if_neg hv, if_neg hv, Bindings.bind_scopes_cons hT.symm (mt hd.mpr hv)]
        refine Coupled.ok ⟨⟨⟨N.functions, Tables.put k.newName a N.scopeStack, N.functionTable⟩, rfl⟩,
          ?_, ?_, h.counts, h.declarations, h.table, h.counter, h.printf, h.scanf⟩
        · refine ⟨Tables.put k a (l :: ls), rfl, ?_, ?_⟩
          · rw [Tables.mapKeys_put, ← hs]
          · rw [Tables.mapKeys_put, ← hs']
        · intro u hu
          rcases Layers.visible_cons.mp hu with hu | hu
          · rcases List.mem_cons.mp hu with hu | hu
            · exact hp u hu.symm
            · exact h.pairs u (hT ▸ Layers.visible_cons.mpr (.inl hu))
          · exact h.pairs u (hT ▸ Layers.visible_cons.mpr (.inr hu))

/-- A slot is found on both sides or made on both. -/
theorem Renamed.slotFor (h : Renamed τ B g g') (hk : B.Same k) (hp : ∀ u, k = some u → u.2 = τ u.1)
    (ty : Ty) : Coupled (g.slotFor k.oldName ty) (g'.slotFor k.newName ty)
      (fun r r' => r'.1 = r.1 ∧ Renamed τ (B.bind k) r.2 r'.2) := by
  have hl := h.lookup hk
  unfold CodeGenerator.slotFor
  rw [hl]
  cases hx : g.lookup k.oldName with
  | some a =>
      have hd : B.Declared k.oldName := h.declared.mp (by rw [hx]; rfl)
      refine Coupled.ok ⟨rfl, ?_⟩
      rw [Bindings.bind, if_pos hd]
      exact h
  | none =>
      have hslot : g'.newSlot ty = g.newSlot ty := by
        obtain ⟨N, rfl⟩ := h.same; rfl
      have hdecl := (h.nameless (nameless_createEntryAlloca ty)).declare hk hp (g.newSlot ty)
      dsimp only
      rw [hslot]
      exact hdecl.bind (fun _ _ hg => Coupled.ok ⟨rfl, hg⟩)

/-- A variable loads the same slot, names the same function, or is unknown on both sides. -/
theorem visitVariable_renamed (hτ : Function.Injective τ) (h : Renamed τ B g g')
    (hx : B.Resolves (.read (x, τ x))) :
    Coupled (g.visitVariable x) (g'.visitVariable (τ x)) (Renamed τ B) := by
  obtain ⟨ha, hr⟩ := hx
  have hl : g'.lookup (τ x) = g.lookup x := h.lookup (h.same_of_apart hτ ha)
  unfold visitVariable
  rw [hl]
  cases hx : g.lookup x with
  | some a => exact Coupled.ok (h.nameless (nameless_createLoad a))
  | none =>
      have hnot : ¬ B.Declared x := fun hd => by
        have hsome := h.declared.mpr hd
        rw [hx] at hsome
        cases hsome
      have ht := h.table x (hr.resolve_left hnot)
      dsimp only
      rw [ht]
      cases g.functionTable x with
      | some f => exact Coupled.ok (h.nameless (nameless_setLast (fun _ => .const (.func f)) (fun _ _ => rfl)))
      | none => exact Coupled.error

/-- An assignment binds its name on both sides. -/
theorem assign_renamed (hτ : Function.Injective τ) (h : Renamed τ B g g') (ha : B.Apart (x, τ x)) :
    Coupled (g.assign x) (g'.assign (τ x)) (Renamed τ (B.bind (some (x, τ x)))) := by
  have hs := h.slotFor (h.same_of_apart hτ ha) (fun u hu => by cases hu; rfl) g.lastValue.ty
  unfold assign
  rw [h.lastValue]
  refine hs.bind (fun r r' hr => ?_)
  obtain ⟨a, g1⟩ := r
  obtain ⟨a', g1'⟩ := r'
  obtain ⟨ha, hg⟩ := hr
  have ha : a' = a := ha
  subst ha
  exact Coupled.ok (hg.nameless (nameless_createStore _ _))

end Steps

end ParaCL
