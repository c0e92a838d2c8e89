import ParaCL.Simulator.Operators

/-!
# `Simulator.Evaluator` — the tree-walking interpreter (`simulator.cpp`, `expr_evaluator.cpp`)

`Simulator` visits statements and `Expression_evaluator` visits expressions; they call each other through
blocks. `evaluate_expression(e)` makes a fresh evaluator and hands back its `result_`, which is what
`ExpressionEvaluator.visit e` returns. The evaluator's visitors of calls and functions are empty, so
`result_` keeps its initial 0, and so is the simulator's visitor of `return`. `Simulator::visit(Block_expr)` is
never reached, as a block is an expression.

A `while` loop gets a bound `fuel` on its tests; a run that needs more of them times out.
-/

namespace ParaCL

open Lib

/-- The simulator's `nametable_`, what has been printed (oldest first) and how many values `?` has
    delivered. -/
structure SimState where
  nametable : Name → Option Number
  printed : List Number
  delivered : Nat

namespace SimState

/-- At the beginning no variable has a value and nothing is read or printed. -/
def init : SimState := ⟨fun _ => none, [], 0⟩

/-- `it->second = result_`, or `emplace` if the name is new. -/
def store (x : Name) (v : Number) (s : SimState) : SimState :=
  { s with nametable := Function.update s.nametable x (some v) }

/-- One more line of output. -/
def print (v : Number) (s : SimState) : SimState := { s with printed := s.printed ++ [v] }

/-- One more value of the input is used up. -/
def deliver (s : SimState) : SimState := { s with delivered := s.delivered + 1 }

end SimState

/-- `visit(Variable)` of the evaluator. -/
def visitVariable (x : Name) : Prog Fault SimState Number := do
  let it ← Prog.gets (fun s => s.nametable x)
  match it with
  | some v => pure v
  | none => Prog.raise (.unknownVariable x)

/-- A variable with a value is only read. -/
theorem visitVariable_some {x : Name} {v : Number} {s : SimState} (h : s.nametable x = some v) :
    visitVariable x s = .done v s := by
  rw [visitVariable, Prog.gets_bind, h]
  rfl

/-- `visit(Input)` of the evaluator. -/
def visitInput (E : Env) : Prog Fault SimState Number := do
  let value ← Prog.gets (fun s => E.input s.delivered)
  let _ ← Prog.modify SimState.deliver
  pure value

section Visitors

variable (E : Env) (fuel : Nat)

mutual

/-- `Expression_evaluator::visit`. -/
def ExpressionEvaluator.visit : Expression → Prog Fault SimState Number
  | .number value => pure value
  | .var name => visitVariable name
  | .assignmentExpr name value => do
      let result ← ExpressionEvaluator.visit value
      let _ ← Prog.modify (SimState.store name result)
      pure result
  | .binaryOperator op left right => do
      let leftValue ← ExpressionEvaluator.visit left
      -- no short circuit: the right operand of `&&` and `||` is always evaluated
      let rightValue ← ExpressionEvaluator.visit right
      applyBinary E.ops op leftValue rightValue
  | .unaryOperator op operand => do
      let value ← ExpressionEvaluator.visit operand
      applyUnary E.ops op value
  | .input => visitInput E
  | .blockExpr stmts => ExpressionEvaluator.visitStmts stmts 0
  -- empty visitors: `result_` is still 0
  | .func _ _ _ => pure 0
  | .call _ _ => pure 0

/-- The loop of `visit(Block_expr)`, with its `last_value`. -/
def ExpressionEvaluator.visitStmts : List Statement → Number → Prog Fault SimState Number
  | [], lastValue => pure lastValue
  | .exprStmt expr :: stmts, _ => do
      let value ← ExpressionEvaluator.visit expr
      ExpressionEvaluator.visitStmts stmts value
  -- any other statement leaves `last_value` alone
  | stmt :: stmts, lastValue => do
      let _ ← Simulator.visit stmt
      ExpressionEvaluator.visitStmts stmts lastValue

/-- `Simulator::visit`. -/
def Simulator.visit : Statement → Prog Fault SimState Unit
  | .emptyStmt => pure ()
  | .exprStmt expr => do
      let _ ← ExpressionEvaluator.visit expr
      pure ()
  | .ifStmt condition thenBranch none => do
      let value ← ExpressionEvaluator.visit condition
      if value != 0 then
        let _ ← ExpressionEvaluator.visit thenBranch
        pure ()
      else
        pure ()
  | .ifStmt condition thenBranch (some elseBranch) => do
      let value ← ExpressionEvaluator.visit condition
      if value != 0 then
        let _ ← ExpressionEvaluator.visit thenBranch
        pure ()
      else
        let _ ← ExpressionEvaluator.visit elseBranch
        pure ()
  | .whileStmt condition body =>
      Prog.loop
        (do
          let value ← ExpressionEvaluator.visit condition
          pure (value != 0))
        (do
          let _ ← ExpressionEvaluator.visit body
          pure ())
        fuel
  | .printStmt value => do
      let value ← ExpressionEvaluator.visit value
      Prog.modify (SimState.print value)
  -- the visitor is empty: nothing is returned from
  | .returnStmt _ => pure ()

end

/-- The loop of `Simulator::visit(Program)`. -/
def Simulator.visitProgram : List Statement → Prog Fault SimState Unit
  | [] => pure ()
  | stmt :: stmts => do
      let _ ← Simulator.visit E fuel stmt
      Simulator.visitProgram stmts

/-- `INTERPRET` mode: a fresh simulator visits the program. -/
def Simulator.run (p : Program) : Outcome Fault SimState Unit :=
  Simulator.visitProgram E fuel p.stmts .init

end Visitors

end ParaCL
