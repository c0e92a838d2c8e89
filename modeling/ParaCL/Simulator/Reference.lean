import ParaCL.Simulator.Evaluator
import ParaCL.Lib.Layers

/-!
# `Simulator.Reference` — what block scoping should mean

A functional big-step semantics that keeps a stack of scopes, written from the language and not from the
interpreter: a block is entered with an empty scope and left by dropping it, an assignment updates the
innermost scope that holds the name or else declares the name in the innermost scope, and the value of a
block is the value of the last expression statement executed directly in it, or 0. Calls, functions and
`return` are outside it.
-/

namespace ParaCL

open Lib

/-- The scopes, innermost first, and what has been printed and delivered. -/
structure RefState where
  scopes : Tables Name Number
  printed : List Number
  delivered : Nat

namespace RefState

/-- The global scope is open from the start. -/
def init : RefState := ⟨[[]], [], 0⟩

/-- A block is entered with an empty scope. -/
def enter (s : RefState) : RefState := { s with scopes := [] :: s.scopes }

/-- At its end the variables declared in it are gone. -/
def leave (s : RefState) : RefState := { s with scopes := s.scopes.tail }

/-- An assignment changes the variable of the name, or declares one in the innermost scope. -/
def assign (x : Name) (v : Number) (s : RefState) : RefState :=
  { s with scopes := Tables.assign x v s.scopes }

/-- One more line of output. -/
def print (v : Number) (s : RefState) : RefState := { s with printed := s.printed ++ [v] }

/-- One more value of the input is used up. -/
def deliver (s : RefState) : RefState := { s with delivered := s.delivered + 1 }

end RefState

namespace Reference

/-- The value of a name in the innermost scope that holds it. -/
def read (x : Name) : Prog Fault RefState Number := do
  let v ← Prog.gets (fun s => Tables.lookup s.scopes x)
  match v with
  | some v => pure v
  | none => Prog.raise (.unknownVariable x)

theorem read_some {x : Name} {v : Number} {s : RefState} (h : Tables.lookup s.scopes x = some v) :
    read x s = .done v s := by
  rw [read, Prog.gets_bind, h]
  rfl

/-- The next value of the input. -/
def readInput (E : Env) : Prog Fault RefState Number := do
  let value ← Prog.gets (fun s => E.input s.delivered)
  let _ ← Prog.modify RefState.deliver
  pure value

section Semantics

variable (E : Env) (fuel : Nat)

mutual

/-- Expressions, with a scope for every block. -/
def evalExpr : Expression → Prog Fault RefState Number
  | .number value => pure value
  | .var name => read name
  | .assignmentExpr name value => do
      let v ← evalExpr value
      let _ ← Prog.modify (RefState.assign name v)
      pure v
  | .binaryOperator op left right => do
      let a ← evalExpr left
      let b ← evalExpr right
      applyBinary E.ops op a b
  | .unaryOperator op operand => do
      let a ← evalExpr operand
      applyUnary E.ops op a
  | .input => readInput E
  | .blockExpr stmts => do
      let _ ← Prog.modify RefState.enter
      let v ← execBlock stmts 0
      let _ ← Prog.modify RefState.leave
      pure v
  | .func _ _ _ => pure 0
  | .call _ _ => pure 0

/-- The statements of a block; `last` is the value of the last expression statement so far. -/
def execBlock : List Statement → Number → Prog Fault RefState Number
  | [], last => pure last
  | .exprStmt expr :: stmts, _ => do
      let v ← evalExpr expr
      execBlock stmts v
  | stmt :: stmts, last => do
      let _ ← exec stmt
      execBlock stmts last

/-- Statements. The scope of a body is that of the block it is. -/
def exec : Statement → Prog Fault RefState Unit
  | .emptyStmt => pure ()
  | .exprStmt expr => do
      let _ ← evalExpr expr
      pure ()
  | .ifStmt condition thenBranch none => do
      let v ← evalExpr condition
      if v != 0 then
        let _ ← evalExpr thenBranch
        pure ()
      else
        pure ()
  | .ifStmt condition thenBranch (some elseBranch) => do
      let v ← evalExpr condition
      if v != 0 then
        let _ ← evalExpr thenBranch
        pure ()
      else
        let _ ← evalExpr elseBranch
        pure ()
  | .whileStmt condition body =>
      Prog.loop
        (do
          let v ← evalExpr condition
          pure (v != 0))
        (do
          let _ ← evalExpr body
          pure ())
        fuel
  | .printStmt value => do
      let v ← evalExpr value
      Prog.modify (RefState.print v)
  | .returnStmt _ => pure ()

end

/-- The statements of a program, in the outermost scope. -/
def execProgram : List Statement → Prog Fault RefState Unit
  | [] => pure ()
  | stmt :: stmts => do
      let _ ← exec E fuel stmt
      execProgram stmts

/-- The meaning of a program with scopes. -/
def run (p : Program) : Outcome Fault RefState Unit := execProgram E fuel p.stmts .init

end Semantics

end Reference

end ParaCL
