import Mathlib.Data.List.Basic

/-!
# `Ast.Node` — the abstract syntax tree (`node.hpp`)

One constructor for each node class, with the fields its constructor stores, in the source's order.
A `Statement *` that may be null (`else_branch_`, the value of a `return`) is an `Option`; a
`std::vector` of children is a `List`. The branches of an `if`, the body of a `while` and the body of a
function are expressions here as they are there: that the parser only ever puts a block in these places
is a fact about the parser (`Parser.Check`), not about the tree type.
-/

namespace ParaCL

/-- `number_t`, a C++ `int`. -/
abbrev Number := BitVec 32

/-- `name_t`. -/
abbrev Name := String

inductive BinaryOperators where
  | eq | neq | less | lessEq | greater | greaterEq
  | add | sub | mul | div | remDiv
  | and | xor | or | logOr | logAnd
  deriving DecidableEq, Repr

inductive UnaryOperators where
  | neg | plus | not
  deriving DecidableEq, Repr

mutual

/-- The `Expression` classes. -/
inductive Expression where
  | number (value : Number)
  | var (name : Name)
  | assignmentExpr (name : Name) (value : Expression)
  | binaryOperator (op : BinaryOperators) (left right : Expression)
  | unaryOperator (op : UnaryOperators) (operand : Expression)
  | input
  | blockExpr (stmts : List Statement)
  | func (funcName : Option Name) (params : List Name) (body : Expression)
  | call (target : Expression) (args : List Expression)

/-- The `Statement` classes. -/
inductive Statement where
  | emptyStmt
  | exprStmt (expr : Expression)
  | ifStmt (condition thenBranch : Expression) (elseBranch : Option Expression)
  | whileStmt (condition body : Expression)
  | printStmt (value : Expression)
  | returnStmt (value : Option Expression)

end

/-- `Program`, the root of a tree. -/
structure Program where
  stmts : List Statement

/-! ## The node kinds of a tree -/

/-- The classes that are not always allowed where a result speaks of a sublanguage. -/
inductive NodeKind where
  | input | blockExpr | func | call | returnStmt
  deriving DecidableEq, Repr

mutual

/-- The kinds of the nodes of an expression. -/
def Expression.kinds : Expression → List NodeKind
  | .number _ => []
  | .var _ => []
  | .assignmentExpr _ value => value.kinds
  | .binaryOperator _ left right => left.kinds ++ right.kinds
  | .unaryOperator _ operand => operand.kinds
  | .input => [.input]
  | .blockExpr stmts => .blockExpr :: kindsOfStmts stmts
  | .func _ _ body => .func :: body.kinds
  | .call target args => .call :: (target.kinds ++ kindsOfArgs args)

/-- The kinds of the nodes of a statement. -/
def Statement.kinds : Statement → List NodeKind
  | .emptyStmt => []
  | .exprStmt expr => expr.kinds
  | .ifStmt condition thenBranch none => condition.kinds ++ thenBranch.kinds
  | .ifStmt condition thenBranch (some elseBranch) =>
      condition.kinds ++ thenBranch.kinds ++ elseBranch.kinds
  | .whileStmt condition body => condition.kinds ++ body.kinds
  | .printStmt value => value.kinds
  | .returnStmt none => [.returnStmt]
  | .returnStmt (some value) => .returnStmt :: value.kinds

def kindsOfStmts : List Statement → List NodeKind
  | [] => []
  | s :: ss => s.kinds ++ kindsOfStmts ss

def kindsOfArgs : List Expression → List NodeKind
  | [] => []
  | e :: es => e.kinds ++ kindsOfArgs es

end

/-- The kinds of the nodes of a program. -/
def Program.kinds (p : Program) : List NodeKind := kindsOfStmts p.stmts

end ParaCL
