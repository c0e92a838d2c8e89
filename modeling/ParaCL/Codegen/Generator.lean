import ParaCL.Codegen.Lowering
import ParaCL.Lib.Ensures

/-!
# `Codegen.Generator` — the visitors of `codegen.cpp`

Each visitor takes the generator's state to the next one, or throws. A block is a loop over its statements
and leaves `last_value_` to them; `return` opens no new block.
-/

namespace ParaCL

open Lib

/-- The hidden variable of `visit(Input)`. -/
def inputVar : Name := "__input_var"

namespace CodeGenerator

variable (M : Llvm) (L : Lowering)

/-- `CreateICmpNE(last_value_, 0)`, the condition of a branch. -/
def condition (g : CodeGenerator) : Value × CodeGenerator :=
  emit M (createICmp .ne g.lastValue (.const (.int 0))) g

/-- `CreateBr(target)` unless the insertion block has a terminator. -/
def branchUnlessTerminated (target : Nat) (g : CodeGenerator) : CodeGenerator :=
  if g.terminated then g else g.createBr target

/-- `CreateRet(v)` unless the insertion block has a terminator. -/
def returnUnlessTerminated (v : Value) (g : CodeGenerator) : CodeGenerator :=
  if g.terminated then g else g.createRet v

/-- `visit(Number)`. -/
def visitNumber (value : Number) (g : CodeGenerator) : CodeGenerator := g.setLast (.const (.int value))

/-- `visit(Variable)`: a slot is loaded, a function is its own value. -/
def visitVariable (x : Name) (g : CodeGenerator) : Except Thrown CodeGenerator :=
  match g.lookup x with
  | some a => .ok (g.createLoad a)
  | none =>
      match g.functionTable x with
      | some f => .ok (g.setLast (.const (.func f)))
      | none => .error ⟨.undeclaredVariable x, g⟩

/-- `visit(Assignment_expr)` after the value has been visited. -/
def assign (x : Name) (g : CodeGenerator) : Except Thrown CodeGenerator := do
  let value := g.lastValue
  let (a, g) ← g.slotFor x value.ty
  return g.createStore value a

/-- `visit(Input)`. -/
def visitInput (g : CodeGenerator) : Except Thrown CodeGenerator := do
  let (a, g) ← g.slotFor inputVar .i32
  let (scanf, g) := g.getFunc "scanf"
  -- the result of `scanf` is not looked at
  let g := g.createCall 2 (.const (.func scanf)) [.const (.str "%d"), .slot a]
  return g.createLoad a

/-- `visit(Print_stmt)` after the value has been visited. -/
def print (g : CodeGenerator) : CodeGenerator :=
  let value := g.lastValue
  let (printf, g) := g.getFunc "printf"
  g.createCall 2 (.const (.func printf)) [.const (.str "%d\n"), value]

/-- The slot of a parameter, `g.newSlot .i32`, and the store of the argument. -/
def storeParam (f index : Nat) (g : CodeGenerator) : CodeGenerator :=
  (g.createAlloca .i32).createStore (.arg f index) (g.newSlot .i32)

/-- The loop over the parameters. -/
def bindParams (f : Nat) : List Name → Nat → CodeGenerator → Except Thrown CodeGenerator
  | [], _, g => .ok g
  | x :: xs, index, g => do
      let g ← (g.storeParam f index).declare x (g.newSlot .i32)
      bindParams f xs (index + 1) g

/-- The name of a function: its own, or the next of `func_0`, `func_1`, … -/
def functionName (name : Option Name) (g : CodeGenerator) : Name × CodeGenerator :=
  match name with
  | some x => (x, g)
  | none => ("func_" ++ toString g.funcCounter, { g with funcCounter := g.funcCounter + 1 })

/-- `visit(Func)` up to its parameters: the function is created, registered and entered. -/
def openFunction (name : Option Name) (paramCount : Nat) (g : CodeGenerator) : CodeGenerator :=
  let (x, g) := g.functionName name
  let f := g.functions.length
  let g := g.createFunction M x paramCount
  -- an earlier function of that name is forgotten
  let g := { g with functionTable := Function.update g.functionTable x (some f) }
  let g := (g.createBlock f).setInsertPoint g.blockCount
  let g := { g with currentFunction := f }
  g.pushScope

/-- `visit(Func)` up to its body. -/
def enterFunction (name : Option Name) (params : List Name) (g : CodeGenerator) :
    Except Thrown CodeGenerator :=
  bindParams g.functions.length params 0 (g.openFunction M name params.length)

/-- `visit(Func)` after its body: return, leave, and go back to where `saved` was. -/
def leaveFunction (saved g : CodeGenerator) : Except Thrown CodeGenerator := do
  let f := saved.functions.length
  let g ← (g.returnUnlessTerminated g.lastValue).popScope
  let g := { g with currentFunction := saved.currentFunction }
  return (g.setInsertPoint saved.insertBlock).setLast (.const (.func f))

/-- `visit(Call)` after target and arguments: the type is the callee's own if it is a function. -/
def call (callee : Value) (args : List Value) (g : CodeGenerator) : CodeGenerator :=
  let arity :=
    match callee with
    | .const (.func f) => (g.functions[f]?.map IrFunction.paramCount).getD args.length
    -- the type of a call through a variable is made up from the arguments
    | _ => args.length
  g.createCall arity callee args

/-! ## Branches and loops -/

/-- `visit(If_stmt)` without `else`, from the condition to the branch. The blocks are numbers
    `g.blockCount` (then) and `g.blockCount + 1` (merge), as the condition makes none. -/
def openIf (g : CodeGenerator) : CodeGenerator :=
  let (cond, g) := g.condition M
  let thenBb := g.blockCount
  let g := g.createBlock g.currentFunction
  let mergeBb := g.blockCount
  let g := g.createBlock g.currentFunction
  let g := g.createCondBrLast cond thenBb mergeBb
  g.setInsertPoint thenBb

/-- `visit(If_stmt)` with `else`: the merge block is number `g.blockCount + 2`. -/
def openIfElse (g : CodeGenerator) : CodeGenerator :=
  let (cond, g) := g.condition M
  let thenBb := g.blockCount
  let g := g.createBlock g.currentFunction
  let elseBb := g.blockCount
  let g := g.createBlock g.currentFunction
  let g := g.createBlock g.currentFunction
  let g := g.createCondBrLast cond thenBb elseBb
  g.setInsertPoint thenBb

/-- The end of a branch: go on in `next`, after a jump to the merge block unless the branch has one. -/
def closeBranch (mergeBb next : Nat) (g : CodeGenerator) : CodeGenerator :=
  (g.branchUnlessTerminated mergeBb).setInsertPoint next

/-- `visit(While_stmt)` up to its condition, in the new block `g.blockCount`. -/
def openLoop (g : CodeGenerator) : CodeGenerator :=
  let condBb := g.blockCount
  let g := g.createBlock g.currentFunction
  let g := g.createBrLast condBb
  g.setInsertPoint condBb

/-- `visit(While_stmt)` from the condition to the body. The blocks are numbers `g.blockCount` (body) and
    `g.blockCount + 1` (end). -/
def openBody (g : CodeGenerator) : CodeGenerator :=
  let (cond, g) := g.condition M
  let bodyBb := g.blockCount
  let g := g.createBlock g.currentFunction
  let endLoopBb := g.blockCount
  let g := g.createBlock g.currentFunction
  let g := g.createCondBrLast cond bodyBb endLoopBb
  g.setInsertPoint bodyBb

/-- `visit(While_stmt)` after its body. The back edge does not ask whether the body has returned. -/
def closeLoop (condBb endLoopBb : Nat) (g : CodeGenerator) : CodeGenerator :=
  (g.createBrLast condBb).setInsertPoint endLoopBb

/-! ## The visitors -/

mutual

/-- `visit` on expressions. -/
def visit : Expression → CodeGenerator → Except Thrown CodeGenerator
  | .number value, g => .ok (g.visitNumber value)
  | .var name, g => g.visitVariable name
  | .assignmentExpr name value, g => do
      let g ← visit value g
      g.assign name
  | .binaryOperator op left right, g => do
      let g ← visit left g
      let leftValue := g.lastValue
      let g ← visit right g
      -- both operands are compiled into the current block, also those of `&&` and `||`
      let rightValue := g.lastValue
      return g.emitLast M (L.binary op leftValue rightValue)
  | .unaryOperator op operand, g => do
      let g ← visit operand g
      return g.emitLast M (L.unary op g.lastValue)
  | .input, g => g.visitInput
  | .blockExpr stmts, g => visitStmts stmts g
  | .func funcName params body, g => do
      -- `g` is kept for `saved_function` and `saved_insert_bb`
      let g' ← g.enterFunction M funcName params
      let g' ← visit body g'
      leaveFunction g g'
  | .call target args, g => do
      let g ← visit target g
      let callee := g.lastValue
      let (values, g) ← visitArgs args g
      return g.call callee values

/-- `visit` on statements. -/
def visitStmt : Statement → CodeGenerator → Except Thrown CodeGenerator
  | .emptyStmt, g => .ok g
  | .exprStmt expr, g => visit expr g
  | .ifStmt condition thenBranch none, g => do
      let g ← visit condition g
      let mergeBb := g.blockCount + 1
      let g ← visit thenBranch (g.openIf M)
      return g.closeBranch mergeBb mergeBb
  | .ifStmt condition thenBranch (some elseBranch), g => do
      let g ← visit condition g
      let elseBb := g.blockCount + 1
      let mergeBb := g.blockCount + 2
      let g ← visit thenBranch (g.openIfElse M)
      let g ← visit elseBranch (g.closeBranch mergeBb elseBb)
      return g.closeBranch mergeBb mergeBb
  | .whileStmt condition body, g => do
      let condBb := g.blockCount
      let g ← visit condition g.openLoop
      let endLoopBb := g.blockCount + 1
      let g ← visit body (g.openBody M)
      return g.closeLoop condBb endLoopBb
  | .printStmt value, g => do
      let g ← visit value g
      return g.print
  | .returnStmt none, g => .ok (g.createRet (.const (.int 0)))
  | .returnStmt (some value), g => do
      let g ← visit value g
      return g.createRet g.lastValue

/-- The loop of `visit(Block_expr)`. -/
def visitStmts : List Statement → CodeGenerator → Except Thrown CodeGenerator
  | [], g => .ok g
  | s :: ss, g => do
      let g ← visitStmt s g
      visitStmts ss g

/-- The arguments of a call, with their values. -/
def visitArgs : List Expression → CodeGenerator → Except Thrown (List Value × CodeGenerator)
  | [], g => .ok ([], g)
  | e :: es, g => do
      let g ← visit e g
      let value := g.lastValue
      let (values, g) ← visitArgs es g
      return (value :: values, g)

end

/-- `visit(Program)` up to its statements: `main` and its entry block. -/
def enterMain : CodeGenerator :=
  let g := CodeGenerator.init.createFunction M "main" 0
  let g := (g.createBlock 0).setInsertPoint g.blockCount
  { g with currentFunction := 0 }

/-- `visit(Program)`. -/
def visitProgram (p : Program) : Except Thrown CodeGenerator := do
  let g ← visitStmts M L p.stmts (enterMain M)
  return g.returnUnlessTerminated (.const (.int 0))

/-! ## What the parts of `visit(Func)` do -/

section Params

variable {f k : Nat} {x : Name} {xs : List Name} {g : CodeGenerator}

/-- A parameter with its slot declared. -/
def addParam (f k : Nat) (x : Name) (g : CodeGenerator) : CodeGenerator :=
  { g.storeParam f k with scopeStack := Tables.put x (g.newSlot .i32) g.scopeStack }

theorem bindParams_cons (hne : g.scopeStack ≠ []) (h : g.lookup x = none) :
    bindParams f (x :: xs) k g = bindParams f xs (k + 1) (g.addParam f k x) := by
  have hd : (g.storeParam f k).declare x (g.newSlot .i32) = .ok (g.addParam f k x) := declare_ok hne h
  rw [bindParams, hd]
  rfl

theorem bindParams_clash (hne : g.scopeStack ≠ []) (h : (g.lookup x).isSome) :
    bindParams f (x :: xs) k g = .error ⟨.alreadyDeclared x, g.storeParam f k⟩ := by
  have hd : (g.storeParam f k).declare x (g.newSlot .i32) =
      .error ⟨.alreadyDeclared x, g.storeParam f k⟩ := declare_clash hne h
  rw [bindParams, hd]
  rfl

end Params

/-- The state after a function has been left. -/
def closeFunction (saved g : CodeGenerator) : CodeGenerator :=
  { g.returnUnlessTerminated g.lastValue with
    scopeStack := g.scopeStack.tail
    currentFunction := saved.currentFunction
    insertBlock := saved.insertBlock
    lastValue := .const (.func saved.functions.length) }

theorem returnUnlessTerminated_scopeStack (v : Value) (g : CodeGenerator) :
    (g.returnUnlessTerminated v).scopeStack = g.scopeStack := by
  unfold returnUnlessTerminated
  split <;> rfl

theorem leaveFunction_ok {saved g : CodeGenerator} (hne : g.scopeStack ≠ []) :
    leaveFunction saved g = .ok (closeFunction saved g) := by
  have hs := returnUnlessTerminated_scopeStack g.lastValue g
  have hpop := popScope_ok (hs.trans_ne hne)
  simp only [leaveFunction, hpop, hs]
  rfl

end CodeGenerator

end ParaCL
