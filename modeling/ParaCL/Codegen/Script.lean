import ParaCL.Codegen.Generator
import ParaCL.Lib.Monitor

/-!
# `Codegen.Script` — what the visitors do, call by call

The visitors of `Codegen.Generator` go from state to state. Here each is a list of single calls and
assignments, in the order of the source, so that one can stop after any of them. What is left out of a list
changes nothing. `compiling` follows the list: which functions are being compiled, and whether `visit(Program)`
or `visit(Func)` is about to change from one function to another.
-/

namespace ParaCL

open Lib

/-- One call of `builder_`, `scope_stack_` or `module_`, or one assignment. The last three are no calls: they
    mark where a change of the function at hand begins and ends. -/
inductive Action where
  | insert (i : Instruction)
  | hoist (ty : Ty)
  | createBlock (parent : Nat)
  | createEntry (parent : Nat)
  | setInsertPoint (block : Nat)
  | createFunction (f : IrFunction)
  | register (name : Name) (f : Nat)
  | countFunction
  | setCurrent (f : Nat)
  | push
  | pop
  | declare (name : Name) (slot : AllocaInst)
  | setLast (value : Value)
  | switch
  | entered (f : Nat)
  | left

namespace Action

open CodeGenerator

/-- What a call does to the generator. -/
def run : Action → CodeGenerator → CodeGenerator
  | .insert i, g => g.insert i
  | .hoist ty, g => g.createEntryAlloca ty
  | .createBlock parent, g => g.createBlock parent
  | .createEntry parent, g => g.createBlock parent
  | .setInsertPoint block, g => g.setInsertPoint block
  | .createFunction f, g => { g with functions := g.functions ++ [f] }
  | .register name f, g => { g with functionTable := Function.update g.functionTable name (some f) }
  | .countFunction, g => { g with funcCounter := g.funcCounter + 1 }
  | .setCurrent f, g => { g with currentFunction := f }
  | .push, g => g.pushScope
  | .pop, g => { g with scopeStack := g.scopeStack.tail }
  | .declare name slot, g => { g with scopeStack := Tables.put name slot g.scopeStack }
  | .setLast value, g => g.setLast value
  | .switch, g => g
  | .entered _, g => g
  | .left, g => g

/-- The function that gets a new block or a new instruction. The entry block of a function literal is not
    counted: it comes before the function is entered. -/
def target : Action → CodeGenerator → Option Nat
  | .insert _, g => some g.block.parent
  | .hoist _, g => some (g.blocks ((g.entryBlock g.block.parent).getD 0)).parent
  | .createBlock parent, _ => some parent
  | _, _ => none

end Action

/-- The functions being compiled, innermost first and `main` last, and whether the generator is changing from
    one to another. -/
structure Compiling where
  funcs : List Nat
  switching : Bool

/-- What a mark says of the functions under compilation. -/
def Compiling.step (c : Compiling) : Action → Compiling
  | .switch => { c with switching := true }
  | .entered f => ⟨f :: c.funcs, false⟩
  | .left => ⟨c.funcs.tail, false⟩
  | _ => c

/-- The slot is allocated in the entry block of the function. -/
def CodeGenerator.InEntry (g : CodeGenerator) (f : Nat) (a : AllocaInst) : Prop :=
  ∃ e, g.entryBlock f = some e ∧ .alloca a ∈ (g.blocks e).instrs

/-- **The emission context**, in the functions being compiled: the insertion block belongs to
    `current_function_`, which is the innermost of them, and each of them has one scope, whose slots are
    allocated in its entry block. -/
structure CodeGenerator.Context (g : CodeGenerator) (funcs : List Nat) : Prop where
  parent : g.block.parent = g.currentFunction
  innermost : funcs.head? = some g.currentFunction
  scopes : List.Forall₂ (fun f l => ∀ p ∈ l, g.InEntry f p.2) funcs g.scopeStack

/-- At every moment but for a change of functions there is an emission context, and what is created goes into
    the innermost function. -/
def emission : Monitor CodeGenerator Action Compiling where
  run := Action.run
  watch := Compiling.step
  Good c g := c.switching = false → g.Context c.funcs
  Allowed c g a := c.switching = false → ∀ f ∈ a.target g, c.funcs.head? = some f

/-- A list of calls that depends on the state it starts in. -/
abbrev Script : Type := CodeGenerator → List Action

/-- One script, then another. -/
def Script.seq (s t : Script) : Script := emission.seq s t

namespace Script

open CodeGenerator

variable (M : Llvm) (L : Lowering)

/-! ## The parts -/

/-- The calls of an operator that are not folded. -/
def emit {α : Type} : Emit α → Script
  | .pure _ => fun _ => []
  | .create opcode args next => fun g =>
      match foldValue M opcode args with
      | some c => emit (next (.const c)) g
      | none =>
          .insert (.op g.nextId opcode args) ::
            emit (next (.inst g.nextId (opcode.resultTy args))) (g.insert (.op g.nextId opcode args))

/-- The same, with the result in `last_value_`. -/
def emitLast (m : Emit Value) : Script := fun g => emit M m g ++ [.setLast (g.emit M m).1]

/-- A load and its value. -/
def createLoad (a : AllocaInst) : Script := fun g =>
  [.insert (.load g.nextId a), .setLast (.inst g.nextId a.ty)]

/-- A call and its value. -/
def createCall (arity : Nat) (callee : Value) (args : List Value) : Script := fun g =>
  [.insert (.call g.nextId arity callee args), .setLast (.inst g.nextId .i32)]

/-- A `ret`, if the block is open. -/
def returnUnlessTerminated (v : Value) : Script := fun g => if g.terminated then [] else [.insert (.ret v)]

/-- A `br`, if the block is open. -/
def branchUnlessTerminated (target : Nat) : Script := fun g =>
  if g.terminated then [] else [.insert (.br target)]

/-- A declaration, if there is none. -/
def getFunc (name : String) : Script := fun g =>
  match g.functions.findIdx? (fun f => f.name = name) with
  | some _ => []
  | none => [.createFunction ⟨name, 1⟩]

/-- A slot is hoisted and declared, if the name has none. -/
def slotFor (x : Name) (ty : Ty) : Script := fun g =>
  match g.lookup x with
  | some _ => []
  | none => [.hoist ty, .declare x (g.newSlot ty)]

/-- The slot that `slotFor` finds or makes. -/
def slot (x : Name) (ty : Ty) (g : CodeGenerator) : AllocaInst := (g.lookup x).getD (g.newSlot ty)

/-- A load, or the name of a function. -/
def visitVariable (x : Name) : Script := fun g =>
  match g.lookup x with
  | some a => createLoad a g
  | none =>
      match g.functionTable x with
      | some f => [.setLast (.const (.func f))]
      | none => []

/-- A slot and a store. -/
def assign (x : Name) : Script := fun g =>
  (slotFor x g.lastValue.ty).seq (fun _ => [.insert (.store g.lastValue (slot x g.lastValue.ty g))]) g

/-- A slot, `scanf` and a load. -/
def visitInput : Script := fun g =>
  let a := slot inputVar .i32 g
  (slotFor inputVar .i32).seq (fun g' =>
    (getFunc "scanf").seq ((createCall 2 (.const (.func (g'.getFunc "scanf").1))
      [.const (.str "%d"), .slot a]).seq (createLoad a)) g') g

/-- `printf` on the last value. -/
def print : Script := fun g =>
  (getFunc "printf").seq
    (createCall 2 (.const (.func (g.getFunc "printf").1)) [.const (.str "%d\n"), g.lastValue]) g

/-- The call of a function value. -/
def call (callee : Value) (args : List Value) : Script := fun g =>
  let arity :=
    match callee with
    | .const (.func f) => (g.functions[f]?.map IrFunction.paramCount).getD args.length
    | _ => args.length
  createCall arity callee args g

/-! ## Branches, loops and functions -/

/-- Some new blocks, a terminator, and on in the first of them. -/
def openBlocks (n : Nat) (i : Instruction) : Script := fun g =>
  List.replicate n (.createBlock g.currentFunction) ++
    [.insert i, .setLast (.inst g.nextId .void), .setInsertPoint g.blockCount]

/-- The condition, and the blocks it chooses from. -/
def openCondition (n : Nat) : Script := fun g =>
  (emit M (createICmp .ne g.lastValue (.const (.int 0)))).seq (fun g' =>
    openBlocks n (.condBr (g.condition M).1 g'.blockCount (g'.blockCount + 1)) g') g

/-- Two blocks and the choice between them. -/
def openIf : Script := openCondition M 2

/-- Three blocks, and the choice between the first two. -/
def openIfElse : Script := openCondition M 3

/-- The body of a loop and what follows it. -/
def openBody : Script := openCondition M 2

/-- The jump to the condition. -/
def openLoop : Script := fun g => openBlocks 1 (.br g.blockCount) g

/-- The jump to the merge block, and on in the next one. -/
def closeBranch (mergeBb next : Nat) : Script :=
  (branchUnlessTerminated mergeBb).seq (fun _ => [.setInsertPoint next])

/-- The jump back, and on behind the loop. -/
def closeLoop (condBb endLoopBb : Nat) : Script := fun g =>
  [.insert (.br condBb), .setLast (.inst g.nextId .void), .setInsertPoint endLoopBb]

/-- The slot of each parameter, its store and its declaration. -/
def bindParams (f : Nat) : List Name → Nat → Script
  | [], _ => fun _ => []
  | x :: xs, index =>
      seq (fun g => [.insert (.alloca (g.newSlot .i32)), .insert (.store (.arg f index) (g.newSlot .i32)),
        .declare x (g.newSlot .i32)]) (bindParams f xs (index + 1))

/-- The function's name and its number in `func_counter_`. -/
def functionName : Option Name → List Action
  | some _ => []
  | none => [.countFunction]

/-- `Function::Create`, with the name that the module gives it. -/
def createFunction (name : String) (paramCount : Nat) : Script := fun g =>
  let taken := g.functions.map IrFunction.name
  [.createFunction ⟨if name ∈ taken then M.uniqueName taken name else name, paramCount⟩]

/-- From `Function::Create` to the assignment to `current_function_`. -/
def openFunction (name : Option Name) (paramCount : Nat) : Script := fun g =>
  let x := (g.functionName name).1
  let f := g.functions.length
  functionName name ++ (createFunction M x paramCount g ++
    [.register x f, .createEntry f, .switch, .setInsertPoint g.blockCount, .setCurrent f, .push, .entered f])

/-- The same, with the parameters. -/
def enterFunction (name : Option Name) (params : List Name) : Script := fun g =>
  (openFunction M name params.length).seq (bindParams g.functions.length params 0) g

/-- The closing `ret`, and back to where the literal stands. -/
def leaveFunction (saved : CodeGenerator) : Script := fun g =>
  (returnUnlessTerminated g.lastValue).seq (fun _ =>
    [.switch, .pop, .setCurrent saved.currentFunction, .setInsertPoint saved.insertBlock, .left,
      .setLast (.const (.func saved.functions.length))]) g

end Script

/-! ## The visitors -/

variable (M : Llvm) (L : Lowering)

mutual

/-- The calls of an expression, in the order of its visit. -/
def Expression.script : Expression → Script
  | .number value => fun _ => [.setLast (.const (.int value))]
  | .var name => Script.visitVariable name
  | .assignmentExpr name value => value.script.seq (Script.assign name)
  | .binaryOperator op left right =>
      left.script.seq (fun g =>
        right.script.seq (fun g' => Script.emitLast M (L.binary op g.lastValue g'.lastValue) g') g)
  | .unaryOperator op operand =>
      operand.script.seq (fun g => Script.emitLast M (L.unary op g.lastValue) g)
  | .input => Script.visitInput
  | .blockExpr stmts => scriptOfStmts stmts
  | .func funcName params body => fun g =>
      (Script.enterFunction M funcName params).seq (body.script.seq (Script.leaveFunction g)) g
  | .call target args =>
      target.script.seq (fun g => scriptOfArgs args (fun values => Script.call g.lastValue values) g)

/-- The calls of a statement. -/
def Statement.script : Statement → Script
  | .emptyStmt => fun _ => []
  | .exprStmt expr => expr.script
  | .ifStmt condition thenBranch none =>
      condition.script.seq (fun g =>
        (Script.openIf M).seq (thenBranch.script.seq
          (Script.closeBranch (g.blockCount + 1) (g.blockCount + 1))) g)
  | .ifStmt condition thenBranch (some elseBranch) =>
      condition.script.seq (fun g =>
        (Script.openIfElse M).seq (thenBranch.script.seq
          ((Script.closeBranch (g.blockCount + 2) (g.blockCount + 1)).seq (elseBranch.script.seq
            (Script.closeBranch (g.blockCount + 2) (g.blockCount + 2))))) g)
  | .whileStmt condition body => fun g =>
      Script.openLoop.seq (condition.script.seq (fun g' =>
        (Script.openBody M).seq (body.script.seq
          (Script.closeLoop g.blockCount (g'.blockCount + 1))) g')) g
  | .printStmt value => value.script.seq Script.print
  | .returnStmt none => fun _ => [.insert (.ret (.const (.int 0)))]
  | .returnStmt (some value) => value.script.seq (fun g => [.insert (.ret g.lastValue)])

/-- Statements one after the other. -/
def scriptOfStmts : List Statement → Script
  | [] => fun _ => []
  | s :: ss => s.script.seq (scriptOfStmts ss)

/-- The arguments of a call, and what is done with their values. -/
def scriptOfArgs : List Expression → (List Value → Script) → Script
  | [], k => k []
  | e :: es, k => e.script.seq (fun g => scriptOfArgs es (fun values => k (g.lastValue :: values)) g)

end

/-- `visit(Program)` up to its statements. -/
def Script.enterMain : Script := fun g =>
  Script.createFunction M "main" 0 g ++
    [.createEntry 0, .setInsertPoint g.blockCount, .setCurrent 0, .entered 0]

/-- `visit(Program)`. -/
def Program.script (p : Program) : Script :=
  (Script.enterMain M).seq ((scriptOfStmts M L p.stmts).seq
    (Script.returnUnlessTerminated (.const (.int 0))))

/-- Nothing is being compiled before `main`. -/
def Compiling.init : Compiling := ⟨[], true⟩

end ParaCL
