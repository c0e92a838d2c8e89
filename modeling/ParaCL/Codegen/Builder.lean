import ParaCL.Codegen.Ir
import ParaCL.Lib.Layers
import Mathlib.Logic.Function.Basic

/-!
# `Codegen.Builder` — the generator's state and what it calls on LLVM

`CodeGenerator` holds the module (its functions and basic blocks), the insertion point of `builder_` and
the fields of the class. `builder_` always inserts at the end of a block. Instructions that compute a value
from values go through `Emit`, a sequence of `builder_.Create…` calls: operators are lowered to such
sequences, and `IRBuilder` folds a call whose operands are all constants if the folder can.
-/

namespace ParaCL

open Lib

/-- What the generator's own code throws. -/
inductive GenError where
  | undeclaredVariable (name : Name)
  | alreadyDeclared (name : Name)
  | declareOnEmpty
  | popOnEmpty
  deriving DecidableEq, Repr

def GenError.message : GenError → String
  | .undeclaredVariable name => "use of undeclared variable: " ++ name
  | .alreadyDeclared _ => "variable already declared in this scope"
  | .declareOnEmpty => "add_variable() called with empty scope stack"
  | .popOnEmpty => "pop() called with empty scope stack"

/-- `Code_generator`. -/
structure CodeGenerator where
  functions : List IrFunction
  blocks : Nat → BasicBlock
  blockCount : Nat
  nextId : Nat
  insertBlock : Nat
  currentFunction : Nat
  scopeStack : Tables Name AllocaInst
  functionTable : Name → Option Nat
  funcCounter : Nat
  lastValue : Value

/-- An exception, and the state it leaves behind. -/
structure Thrown where
  error : GenError
  state : CodeGenerator

namespace CodeGenerator

/-- The constructor: an empty module and the global scope. -/
def init : CodeGenerator where
  functions := []
  blocks := fun _ => ⟨0, [], []⟩
  blockCount := 0
  nextId := 0
  insertBlock := 0
  currentFunction := 0
  scopeStack := [[]]
  functionTable := fun _ => none
  funcCounter := 0
  lastValue := .unset

/-! ## Blocks and instructions -/

/-- `builder_.GetInsertBlock()`. -/
def block (g : CodeGenerator) : BasicBlock := g.blocks g.insertBlock

/-- `builder_.GetInsertBlock()->getTerminator()`. -/
def terminated (g : CodeGenerator) : Bool := g.block.hasTerminator

def setLast (v : Value) (g : CodeGenerator) : CodeGenerator := { g with lastValue := v }

/-- Append an instruction at the insertion point. -/
def insert (i : Instruction) (g : CodeGenerator) : CodeGenerator :=
  { g with
    blocks := Function.update g.blocks g.insertBlock { g.block with body := g.block.body ++ [i] }
    nextId := g.nextId + 1 }

/-- `BasicBlock::Create(context_, name, parent)`; the block is number `g.blockCount`. -/
def createBlock (parent : Nat) (g : CodeGenerator) : CodeGenerator :=
  { g with
    blocks := Function.update g.blocks g.blockCount ⟨parent, [], []⟩
    blockCount := g.blockCount + 1 }

/-- `builder_.SetInsertPoint(block)`. -/
def setInsertPoint (b : Nat) (g : CodeGenerator) : CodeGenerator := { g with insertBlock := b }

/-- `getEntryBlock()`: the first block of the function. -/
def entryBlock (g : CodeGenerator) (f : Nat) : Option Nat :=
  (List.range g.blockCount).find? (fun b => (g.blocks b).parent = f)

/-! ## Values -/

/-- What `IRBuilder` makes of an instruction on these operands without inserting one. The language's own
    operators are never folded. -/
def foldValue (M : Llvm) : Opcode → List Value → Option Constant
  | .binary _, _ => none
  | .unary _, _ => none
  | opcode, args => (args.mapM Value.constant?).bind (M.fold opcode)

end CodeGenerator

/-- A sequence of `builder_.Create…` calls that compute a value. -/
inductive Emit (α : Type) where
  | pure (a : α)
  | create (opcode : Opcode) (args : List Value) (next : Value → Emit α)

namespace Emit

variable {α β : Type}

def bind : Emit α → (α → Emit β) → Emit β
  | .pure a, f => f a
  | .create opcode args next, f => .create opcode args (fun v => (next v).bind f)

instance : Monad Emit where
  pure := .pure
  bind := bind

/-- One call. -/
def call (opcode : Opcode) (args : List Value) : Emit Value := .create opcode args .pure

/-- The result, whatever `IRBuilder` makes of the calls. -/
def Yields (P : α → Prop) : Emit α → Prop
  | .pure a => P a
  | .create _ _ next => (∀ c, (next (.const c)).Yields P) ∧ ∀ id ty, (next (.inst id ty)).Yields P

theorem Yields.call {P : Value → Prop} {opcode : Opcode} {args : List Value} (hc : ∀ c, P (.const c))
    (hi : ∀ id ty, P (.inst id ty)) : (call opcode args).Yields P := ⟨hc, hi⟩

theorem Yields.bind {P : α → Prop} {Q : β → Prop} {m : Emit α} {f : α → Emit β} (hm : m.Yields P)
    (hf : ∀ a, P a → (f a).Yields Q) : (m >>= f).Yields Q := by
  induction m with
  | pure a => exact hf a hm
  | create opcode args next ih => exact ⟨fun c => ih _ (hm.1 c), fun id ty => ih _ (hm.2 id ty)⟩

end Emit

namespace CodeGenerator

variable (M : Llvm)

/-- Make the calls: each is folded, or appends one instruction. -/
def emit {α : Type} : Emit α → CodeGenerator → α × CodeGenerator
  | .pure a, g => (a, g)
  | .create opcode args next, g =>
      match foldValue M opcode args with
      | some c => emit (next (.const c)) g
      | none =>
          emit (next (.inst g.nextId (opcode.resultTy args))) (g.insert (.op g.nextId opcode args))

theorem emit_yields {α : Type} {P : α → Prop} {m : Emit α} (h : m.Yields P) (g : CodeGenerator) :
    P (emit M m g).1 := by
  induction m generalizing g with
  | pure a => exact h
  | create opcode args next ih =>
      unfold emit
      split
      · exact ih _ (h.1 _) g
      · exact ih _ (h.2 _ _) _

/-- Make the calls and keep the result in `last_value_`. -/
def emitLast (m : Emit Value) (g : CodeGenerator) : CodeGenerator :=
  let (v, g') := emit M m g
  g'.setLast v

/-! ## Memory, calls and terminators -/

/-- `CreateLoad(alloca->getAllocatedType(), alloca)` into `last_value_`. -/
def createLoad (a : AllocaInst) (g : CodeGenerator) : CodeGenerator :=
  (g.insert (.load g.nextId a)).setLast (.inst g.nextId a.ty)

def createStore (v : Value) (a : AllocaInst) (g : CodeGenerator) : CodeGenerator :=
  g.insert (.store v a)

/-- `CreateCall`; every callee in use returns `i32`. -/
def createCall (arity : Nat) (callee : Value) (args : List Value) (g : CodeGenerator) :
    CodeGenerator :=
  (g.insert (.call g.nextId arity callee args)).setLast (.inst g.nextId .i32)

def createBr (target : Nat) (g : CodeGenerator) : CodeGenerator := g.insert (.br target)

/-- `last_value_ = CreateBr(…)`: a branch is a value, of type `void`. -/
def createBrLast (target : Nat) (g : CodeGenerator) : CodeGenerator :=
  (g.createBr target).setLast (.inst g.nextId .void)

/-- `last_value_ = CreateCondBr(…)`. -/
def createCondBrLast (cond : Value) (thenBlock elseBlock : Nat) (g : CodeGenerator) :
    CodeGenerator :=
  (g.insert (.condBr cond thenBlock elseBlock)).setLast (.inst g.nextId .void)

def createRet (v : Value) (g : CodeGenerator) : CodeGenerator := g.insert (.ret v)

/-- The next slot to be created in the function of the insertion point. -/
def newSlot (ty : Ty) (g : CodeGenerator) : AllocaInst := ⟨g.nextId, ty, g.block.parent⟩

/-- `builder_.CreateAlloca` of the slot `g.newSlot ty`. -/
def createAlloca (ty : Ty) (g : CodeGenerator) : CodeGenerator := g.insert (.alloca (g.newSlot ty))

/-- `tmpBuilder.CreateAlloca` of the slot `g.newSlot ty`, where `tmpBuilder` points at
    `getEntryBlock().begin()` of the function of the insertion point. -/
def createEntryAlloca (ty : Ty) (g : CodeGenerator) : CodeGenerator :=
  let entry := (g.entryBlock g.block.parent).getD 0
  let b := g.blocks entry
  { g with
    blocks := Function.update g.blocks entry { b with hoisted := .alloca (g.newSlot ty) :: b.hoisted }
    nextId := g.nextId + 1 }

/-! ## Functions -/

/-- `Function::Create(type, ExternalLinkage, name, module_)`; the function is number
    `g.functions.length`. -/
def createFunction (name : String) (paramCount : Nat) (g : CodeGenerator) : CodeGenerator :=
  let taken := g.functions.map IrFunction.name
  let name := if name ∈ taken then M.uniqueName taken name else name
  { g with functions := g.functions ++ [⟨name, paramCount⟩] }

/-- `get_func`: `module_.getOrInsertFunction(name, type)` with a variadic type. -/
def getFunc (name : String) (g : CodeGenerator) : Nat × CodeGenerator :=
  match g.functions.findIdx? (fun f => f.name = name) with
  | some k => (k, g)
  | none => (g.functions.length, { g with functions := g.functions ++ [⟨name, 1⟩] })

/-! ## `Scope_stack` -/

/-- `scope_stack_.lookup`. -/
def lookup (g : CodeGenerator) (x : Name) : Option AllocaInst := Tables.lookup g.scopeStack x

def pushScope (g : CodeGenerator) : CodeGenerator := { g with scopeStack := [] :: g.scopeStack }

def popScope (g : CodeGenerator) : Except Thrown CodeGenerator :=
  match g.scopeStack with
  | [] => .error ⟨.popOnEmpty, g⟩
  | _ :: rest => .ok { g with scopeStack := rest }

/-- `scope_stack_.declare`: a name found in any scope is refused. -/
def declare (x : Name) (a : AllocaInst) (g : CodeGenerator) : Except Thrown CodeGenerator :=
  if g.scopeStack = [] then .error ⟨.declareOnEmpty, g⟩
  else if (g.lookup x).isSome then .error ⟨.alreadyDeclared x, g⟩
  else .ok { g with scopeStack := Tables.put x a g.scopeStack }

/-- The slot of a variable: the one found, or a new one of the given type, declared in the innermost
    scope. -/
def slotFor (x : Name) (ty : Ty) (g : CodeGenerator) : Except Thrown (AllocaInst × CodeGenerator) :=
  match g.lookup x with
  | some a => .ok (a, g)
  | none => do
      let a := g.newSlot ty
      let g ← (g.createEntryAlloca ty).declare x a
      return (a, g)

/-! ## What the scope operations do -/

section Scopes

variable {g : CodeGenerator} {x : Name} {a : AllocaInst} {ty : Ty}

theorem declare_ok (hne : g.scopeStack ≠ []) (h : g.lookup x = none) :
    g.declare x a = .ok { g with scopeStack := Tables.put x a g.scopeStack } := by
  simp [declare, hne, h]

theorem declare_clash (hne : g.scopeStack ≠ []) (h : (g.lookup x).isSome) :
    g.declare x a = .error ⟨.alreadyDeclared x, g⟩ := by
  simp [declare, hne, h]

theorem popScope_ok (hne : g.scopeStack ≠ []) :
    g.popScope = .ok { g with scopeStack := g.scopeStack.tail } := by
  unfold popScope
  cases hs : g.scopeStack with
  | nil => exact absurd hs hne
  | cons l ls => rfl

/-- A new slot in the entry block, declared. -/
def addSlot (x : Name) (ty : Ty) (g : CodeGenerator) : CodeGenerator :=
  { g.createEntryAlloca ty with scopeStack := Tables.put x (g.newSlot ty) g.scopeStack }

theorem slotFor_some (h : g.lookup x = some a) : g.slotFor x ty = .ok (a, g) := by
  simp [slotFor, h]

theorem slotFor_none (hne : g.scopeStack ≠ []) (h : g.lookup x = none) :
    g.slotFor x ty = .ok (g.newSlot ty, g.addSlot x ty) := by
  have hd : (g.createEntryAlloca ty).declare x (g.newSlot ty) = .ok (g.addSlot x ty) := declare_ok hne h
  simp only [slotFor, h, hd]
  rfl

/-- Taking a slot never throws while some scope is open. -/
theorem slotFor_cases (hne : g.scopeStack ≠ []) :
    (∃ a, g.lookup x = some a ∧ g.slotFor x ty = .ok (a, g)) ∨
      (g.lookup x = none ∧ g.slotFor x ty = .ok (g.newSlot ty, g.addSlot x ty)) := by
  cases h : g.lookup x with
  | some a => exact .inl ⟨a, rfl, slotFor_some h⟩
  | none => exact .inr ⟨rfl, slotFor_none hne h⟩

end Scopes

end CodeGenerator

end ParaCL
