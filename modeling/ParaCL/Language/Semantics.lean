import ParaCL.Simulator.Evaluator

/-!
# `Language.Semantics` — what a program with functions means

The interpreter leaves functions, calls and `return` out, so there the meaning of a program is stated here: an
evaluator in the manner of `Simulator.Evaluator` with values that may be functions, variables that belong to
the call they are assigned in, and a `return` that stops the body it stands in. A call is handed to `call`,
which `calls` supplies for every bound on their nesting; `Program.run` ties the two bounds together.
-/

namespace ParaCL

open Lib

namespace Language

/-- A value: an integer or a function. -/
inductive Datum where
  | int (value : Number)
  | code (params : List Name) (body : Expression)

/-- The variables of the call at hand, what has been printed and how many values `?` has delivered. -/
structure World where
  locals : Name → Option Datum
  printed : List Number
  delivered : Nat

namespace World

def init : World := ⟨fun _ => none, [], 0⟩

def store (x : Name) (v : Datum) (s : World) : World := { s with locals := Function.update s.locals x (some v) }

def print (n : Number) (s : World) : World := { s with printed := s.printed ++ [n] }

def deliver (s : World) : World := { s with delivered := s.delivered + 1 }

def withLocals (μ : Name → Option Datum) (s : World) : World := { s with locals := μ }

end World

/-- Why a run stops before its end: a fault of an operator or a name, a value of the wrong kind, or a
    `return`. -/
inductive Stop where
  | fault (e : Fault)
  | kind
  | returned (v : Datum)

/-- The value, or stop. -/
def demand {α : Type} (e : Stop) : Option α → Prog Stop World α
  | some a => pure a
  | none => Prog.raise e

/-- An integer is wanted. -/
def Datum.number : Datum → Prog Stop World Number
  | .int n => pure n
  | .code _ _ => Prog.raise .kind

/-- A name: a variable of the call at hand, or else a function. -/
def read (Φ : Name → Option Datum) (x : Name) : Prog Stop World Datum := do
  let v ← Prog.gets (fun s => (s.locals x).or (Φ x))
  demand (.fault (.unknownVariable x)) v

/-- `?`. -/
def input (E : Env) : Prog Stop World Datum := do
  let n ← Prog.gets (fun s => E.input s.delivered)
  let _ ← Prog.modify World.deliver
  pure (.int n)

/-- How a function is called: its parameters, its body, and the arguments. -/
abbrev Calling := List Name → Expression → List Datum → Prog Stop World Datum

/-- Only a function can be called. -/
def Datum.apply (call : Calling) (vs : List Datum) : Datum → Prog Stop World Datum
  | .int _ => Prog.raise .kind
  | .code ps body => call ps body vs

section Visitors

variable (E : Env) (Φ : Name → Option Datum) (fuel : Nat) (call : Calling)

mutual

def eval : Expression → Prog Stop World Datum
  | .number n => pure (.int n)
  | .var x => read Φ x
  | .assignmentExpr x e => do
      let v ← eval e
      let _ ← Prog.modify (World.store x v)
      pure v
  | .binaryOperator op left right => do
      let l ← eval left
      let r ← eval right
      -- both operands have been evaluated before either is looked at
      let a ← l.number
      let b ← r.number
      let n ← demand (.fault (.binary op a b)) (E.ops.binary op a b)
      pure (.int n)
  | .unaryOperator op operand => do
      let v ← eval operand
      let a ← v.number
      let n ← demand (.fault (.unary op a)) (E.ops.unary op a)
      pure (.int n)
  | .input => input E
  | .blockExpr stmts => evalStmts stmts (.int 0)
  | .func _ params body => pure (.code params body)
  | .call target args => do
      let f ← eval target
      let vs ← evalArgs args
      f.apply call vs

/-- A statement in a block whose value so far is `last`. -/
def exec : Statement → Datum → Prog Stop World Datum
  | .emptyStmt, last => pure last
  | .exprStmt e, _ => eval e
  | .ifStmt condition thenBranch none, last => do
      let v ← eval condition
      let n ← v.number
      if n != 0 then
        let _ ← eval thenBranch
        pure last
      else
        pure last
  | .ifStmt condition thenBranch (some elseBranch), last => do
      let v ← eval condition
      let n ← v.number
      if n != 0 then
        let _ ← eval thenBranch
        pure last
      else
        let _ ← eval elseBranch
        pure last
  | .whileStmt condition body, last => do
      let _ ← Prog.loop
        (do
          let v ← eval condition
          let n ← v.number
          pure (n != 0))
        (do
          let _ ← eval body
          pure ())
        fuel
      pure last
  | .printStmt e, last => do
      let v ← eval e
      let n ← v.number
      let _ ← Prog.modify (World.print n)
      pure last
  | .returnStmt none, _ => Prog.raise (.returned (.int 0))
  | .returnStmt (some e), _ => do
      let v ← eval e
      Prog.raise (.returned v)

def evalStmts : List Statement → Datum → Prog Stop World Datum
  | [], last => pure last
  | s :: ss, last => do
      let v ← exec s last
      evalStmts ss v

def evalArgs : List Expression → Prog Stop World (List Datum)
  | [] => pure []
  | e :: es => do
      let v ← eval e
      let vs ← evalArgs es
      pure (v :: vs)

end

end Visitors

/-! ## Calls -/

/-- The parameters with their arguments. -/
def bindArgs : (Name → Option Datum) → List Name → List Datum → Name → Option Datum
  | μ, x :: xs, v :: vs => bindArgs (Function.update μ x (some v)) xs vs
  | μ, _, _ => μ

/-- Run a body with variables of its own, to its end or to a `return`. -/
def invoke (body : Prog Stop World Datum) (μ : Name → Option Datum) : Prog Stop World Datum := fun s =>
  match body (s.withLocals μ) with
  | .done v s' => .done v (s'.withLocals s.locals)
  | .fault (.returned v) s' => .done v (s'.withLocals s.locals)
  | .fault e s' => .fault e s'
  | .timeout s' => .timeout s'

/-- Calls nested up to a bound. -/
def calls (E : Env) (Φ : Name → Option Datum) (fuel : Nat) : Nat → Calling
  | 0, _, _, _ => fun s => .timeout s
  | n + 1, ps, body, vs =>
      if vs.length = ps.length then
        invoke (eval E Φ fuel (calls E Φ fuel n) body) (bindArgs (fun _ => none) ps vs)
      else Prog.raise .kind

/-! ## The functions of a program -/

mutual

/-- The functions with a name, in the order they are written. -/
def functionsOfExpr : Expression → List (Name × List Name × Expression)
  | .number _ | .var _ | .input => []
  | .assignmentExpr _ e | .unaryOperator _ e => functionsOfExpr e
  | .binaryOperator _ a b => functionsOfExpr a ++ functionsOfExpr b
  | .blockExpr ss => functionsOfStmts ss
  | .func none _ body => functionsOfExpr body
  | .func (some f) params body => (f, params, body) :: functionsOfExpr body
  | .call t es => functionsOfExpr t ++ functionsOfArgs es

def functionsOfStmt : Statement → List (Name × List Name × Expression)
  | .emptyStmt | .returnStmt none => []
  | .exprStmt e | .printStmt e | .returnStmt (some e) => functionsOfExpr e
  | .ifStmt c t none => functionsOfExpr c ++ functionsOfExpr t
  | .ifStmt c t (some e) => functionsOfExpr c ++ (functionsOfExpr t ++ functionsOfExpr e)
  | .whileStmt c b => functionsOfExpr c ++ functionsOfExpr b

def functionsOfStmts : List Statement → List (Name × List Name × Expression)
  | [] => []
  | s :: ss => functionsOfStmt s ++ functionsOfStmts ss

def functionsOfArgs : List Expression → List (Name × List Name × Expression)
  | [] => []
  | e :: es => functionsOfExpr e ++ functionsOfArgs es

end

/-- Functions as values. -/
def definitions (functions : Name → Option (List Name × Expression)) (f : Name) : Option Datum :=
  (functions f).map (fun d => .code d.1 d.2)

end Language

/-! ## The operators of a program -/

mutual

def Expression.operators : Expression → List BinaryOperators
  | .number _ | .var _ | .input => []
  | .assignmentExpr _ e | .unaryOperator _ e => e.operators
  | .binaryOperator op a b => op :: (a.operators ++ b.operators)
  | .blockExpr ss => operatorsOfStmts ss
  | .func _ _ body => body.operators
  | .call t es => t.operators ++ operatorsOfArgs es

def Statement.operators : Statement → List BinaryOperators
  | .emptyStmt | .returnStmt none => []
  | .exprStmt e | .printStmt e | .returnStmt (some e) => e.operators
  | .ifStmt c t none => c.operators ++ t.operators
  | .ifStmt c t (some e) => c.operators ++ (t.operators ++ e.operators)
  | .whileStmt c b => c.operators ++ b.operators

def operatorsOfStmts : List Statement → List BinaryOperators
  | [] => []
  | s :: ss => s.operators ++ operatorsOfStmts ss

def operatorsOfArgs : List Expression → List BinaryOperators
  | [] => []
  | e :: es => e.operators ++ operatorsOfArgs es

end

def Program.operators (p : Program) : List BinaryOperators := operatorsOfStmts p.stmts

/-- What a name stands for among the functions of a program. -/
def Program.function (p : Program) (f : Name) : Option (List Name × Expression) :=
  (Language.functionsOfStmts p.stmts).lookup f

/-- A program from its first statement on, with the bound on the tests of a loop and on nested calls. -/
def Program.run (E : Env) (fuel : Nat) (p : Program) : Outcome Language.Stop Language.World Language.Datum :=
  let Φ := Language.definitions p.function
  Language.evalStmts E Φ fuel (Language.calls E Φ fuel fuel) p.stmts (.int 0) .init

end ParaCL
