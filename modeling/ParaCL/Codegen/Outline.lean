import ParaCL.Codegen.Generator

/-!
# `Codegen.Outline` — where straight-line code may go on

A pass over the text that keeps what the visitors read (the tables, `last_value_`, the numbering) and, of the
blocks, only whether the one at hand has been closed by a terminator. It fails where an instruction would
follow a terminator: when anything that makes an instruction comes after a `return` on the same straight
line, or the body of a loop ends on a `return`. What makes no instruction is the empty statement, a constant,
the name of a function, a function literal, an operator that `IRBuilder` folds, and a block of these.

The pass has a clause for each of the visitors' and no block or instruction, so that the condition can be read
and computed without the generator; `Codegen.Terminators` says that the two go together.
-/

namespace ParaCL

open Lib

/-- The generator without its blocks. -/
structure Outline where
  functions : List IrFunction
  nextId : Nat
  currentFunction : Nat
  scopeStack : Tables Name AllocaInst
  functionTable : Name → Option Nat
  funcCounter : Nat
  lastValue : Value
  closed : Bool

namespace Outline

variable (M : Llvm) (L : Lowering)

/-- `last_value_` is known. -/
def setLast (v : Value) (o : Outline) : Outline := { o with lastValue := v }

/-- An instruction at the end of the block, unless the block is closed. -/
def insert (terminator : Bool) (o : Outline) : Option Outline :=
  if o.closed then none else some { o with nextId := o.nextId + 1, closed := terminator }

/-- An instruction that yields a value of the type. -/
def insertLast (terminator : Bool) (ty : Ty) (o : Outline) : Option Outline :=
  (o.insert terminator).map (setLast (.inst o.nextId ty))

/-- What `IRBuilder` folds is no instruction. -/
def emit {α : Type} : Emit α → Outline → Option (α × Outline)
  | .pure a, o => some (a, o)
  | .create opcode args next, o =>
      match CodeGenerator.foldValue M opcode args with
      | some c => emit (next (.const c)) o
      | none => (o.insert false).bind (emit (next (.inst o.nextId (opcode.resultTy args))))

/-- An operator, with its result in `last_value_`. -/
def emitLast (m : Emit Value) (o : Outline) : Option Outline :=
  (emit M m o).map (fun r => r.2.setLast r.1)

/-- Start in another block. -/
def reopen (o : Outline) : Outline := { o with closed := false }

/-- The end of a branch: a jump if the block is not closed, and on in another one. -/
def closeBranch (o : Outline) : Outline :=
  if o.closed then o.reopen else { o with nextId := o.nextId + 1, closed := false }

/-- A condition, a conditional branch, and on in the first of the new blocks. -/
def branch (o : Outline) : Option Outline :=
  (emit M (createICmp .ne o.lastValue (.const (.int 0))) o).bind
    (fun r => (r.2.insertLast true .void).map reopen)

/-- A jump, and on in another block. -/
def jump (o : Outline) : Option Outline := (o.insertLast true .void).map reopen

/-- The slot of a name in scope. -/
def lookup (o : Outline) (x : Name) : Option AllocaInst := Tables.lookup o.scopeStack x

/-- A slot of the current function. -/
def newSlot (ty : Ty) (o : Outline) : AllocaInst := ⟨o.nextId, ty, o.currentFunction⟩

/-- A new slot in the entry block, declared. -/
def addSlot (x : Name) (ty : Ty) (o : Outline) : Outline :=
  { o with nextId := o.nextId + 1, scopeStack := Tables.put x (o.newSlot ty) o.scopeStack }

/-- The slot of a name, found or made: a hoisted allocation stands in front of any terminator. -/
def slotFor (x : Name) (ty : Ty) (o : Outline) : AllocaInst × Outline :=
  match o.lookup x with
  | some a => (a, o)
  | none => (o.newSlot ty, o.addSlot x ty)

/-- A declaration makes no instruction. -/
def getFunc (name : String) (o : Outline) : Outline :=
  match o.functions.findIdx? (fun f => f.name = name) with
  | some _ => o
  | none => { o with functions := o.functions ++ [⟨name, 1⟩] }

/-- A load, or the name of a function. -/
def visitVariable (x : Name) (o : Outline) : Option Outline :=
  match o.lookup x with
  | some a => o.insertLast false a.ty
  | none =>
      match o.functionTable x with
      | some f => some (o.setLast (.const (.func f)))
      | none => none

/-- A store. -/
def assign (x : Name) (o : Outline) : Option Outline := (o.slotFor x o.lastValue.ty).2.insert false

/-- `scanf` and a load. -/
def visitInput (o : Outline) : Option Outline :=
  let (a, o) := o.slotFor inputVar .i32
  ((o.getFunc "scanf").insertLast false .i32).bind (insertLast false a.ty)

/-- `printf`. -/
def print (o : Outline) : Option Outline := (o.getFunc "printf").insertLast false .i32

/-- The slot of a parameter and the store of the argument, declared. -/
def addParam (x : Name) (o : Outline) : Option Outline :=
  ((o.insert false).bind (insert false)).map
    (fun o' => { o' with scopeStack := Tables.put x (o.newSlot .i32) o.scopeStack })

/-- Each parameter in turn. -/
def bindParams : List Name → Outline → Option Outline
  | [], o => some o
  | x :: xs, o => (o.addParam x).bind (bindParams xs)

/-- A function: its name, and an open block with an empty scope. -/
def openFunction (name : Option Name) (paramCount : Nat) (o : Outline) : Outline :=
  let g := { CodeGenerator.init with funcCounter := o.funcCounter, functions := o.functions }
  let (x, g) := g.functionName name
  { o with
    functions := (g.createFunction M x paramCount).functions
    functionTable := Function.update o.functionTable x (some o.functions.length)
    funcCounter := g.funcCounter
    currentFunction := o.functions.length
    scopeStack := [] :: o.scopeStack
    closed := false }

/-- The same, with its parameters. -/
def enterFunction (name : Option Name) (params : List Name) (o : Outline) : Option Outline :=
  (o.openFunction M name params.length).bindParams params

/-- Back to where `saved` was. -/
def leaveFunction (saved o : Outline) : Outline :=
  { o with
    nextId := if o.closed then o.nextId else o.nextId + 1
    scopeStack := o.scopeStack.tail
    currentFunction := saved.currentFunction
    lastValue := .const (.func saved.functions.length)
    closed := saved.closed }

mutual

/-- Expressions, in the order of the visitors. A call needs of its arguments only what they do to the
    block. -/
def visit : Expression → Outline → Option Outline
  | .number value, o => some (o.setLast (.const (.int value)))
  | .var name, o => o.visitVariable name
  | .assignmentExpr name value, o => do
      let o ← visit value o
      o.assign name
  | .binaryOperator op left right, o => do
      let o ← visit left o
      let leftValue := o.lastValue
      let o ← visit right o
      o.emitLast M (L.binary op leftValue o.lastValue)
  | .unaryOperator op operand, o => do
      let o ← visit operand o
      o.emitLast M (L.unary op o.lastValue)
  | .input, o => o.visitInput
  | .blockExpr stmts, o => visitStmts stmts o
  | .func funcName params body, o => do
      let o' ← o.enterFunction M funcName params
      let o' ← visit body o'
      return leaveFunction o o'
  | .call target args, o => do
      let o ← visit target o
      let o ← visitArgs args o
      o.insertLast false .i32

/-- Statements. The end of a branch asks whether the block is closed, the jumps of a loop do not. -/
def visitStmt : Statement → Outline → Option Outline
  | .emptyStmt, o => some o
  | .exprStmt expr, o => visit expr o
  | .ifStmt condition thenBranch none, o => do
      let o ← visit condition o
      let o ← o.branch M
      let o ← visit thenBranch o
      return o.closeBranch
  | .ifStmt condition thenBranch (some elseBranch), o => do
      let o ← visit condition o
      let o ← o.branch M
      let o ← visit thenBranch o
      let o ← visit elseBranch o.closeBranch
      return o.closeBranch
  | .whileStmt condition body, o => do
      let o ← o.jump
      let o ← visit condition o
      let o ← o.branch M
      let o ← visit body o
      o.jump
  | .printStmt value, o => do
      let o ← visit value o
      o.print
  | .returnStmt none, o => o.insert true
  | .returnStmt (some value), o => do
      let o ← visit value o
      o.insert true

/-- Statements one after the other. -/
def visitStmts : List Statement → Outline → Option Outline
  | [], o => some o
  | s :: ss, o => do
      let o ← visitStmt s o
      visitStmts ss o

/-- Arguments one after the other. -/
def visitArgs : List Expression → Outline → Option Outline
  | [], o => some o
  | e :: es, o => do
      let o ← visit e o
      visitArgs es o

end

/-- `main` before its first statement. -/
def init : Outline where
  functions := [⟨"main", 0⟩]
  nextId := 0
  currentFunction := 0
  scopeStack := [[]]
  functionTable := fun _ => none
  funcCounter := 0
  lastValue := .unset
  closed := false

end Outline

/-- Nothing in the program makes an instruction follow a terminator. -/
def Program.StraightLine (M : Llvm) (L : Lowering) (p : Program) : Prop :=
  (Outline.visitStmts M L p.stmts .init).isSome

instance (M : Llvm) (L : Lowering) (p : Program) : Decidable (p.StraightLine M L) :=
  inferInstanceAs (Decidable (_ = true))

end ParaCL
