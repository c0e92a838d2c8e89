import ParaCL.Ast.Node
import ParaCL.Lib.Outcome
import Mathlib.Algebra.Group.Int.Defs

/-!
# `Simulator.Operators` — what the operators mean, and how a run can fault

The interpreter and the compiled code are compared under one meaning of the operators, an
`Interpretation`, which may leave an operator undefined on some operands. `Interpretation.cpp` is the one
the evaluator's `switch` computes on a 32-bit `int`: signed overflow, division by zero and the one
overflowing quotient are undefined there.
-/

namespace ParaCL

open Lib

/-- A meaning of the operators, possibly partial. -/
structure Interpretation where
  binary : BinaryOperators → Number → Number → Option Number
  unary : UnaryOperators → Number → Option Number

/-- What a run depends on besides the program: the operators, and the values `?` delivers in turn. -/
structure Env where
  ops : Interpretation
  input : Nat → Number

/-- Why a run stops early: an operator undefined on its operands, or the exception of
    `visit(Variable)`. -/
inductive Fault where
  | binary (op : BinaryOperators) (left right : Number)
  | unary (op : UnaryOperators) (operand : Number)
  | unknownVariable (name : Name)
  deriving DecidableEq, Repr

/-- The integers an `int` holds. -/
def InInt (r : Int) : Prop := -2 ^ 31 ≤ r ∧ r < 2 ^ 31

instance (r : Int) : Decidable (InInt r) := inferInstanceAs (Decidable (_ ∧ _))

/-- A C++ `bool` stored into an `int`. -/
def Number.ofBool (b : Bool) : Number := if b then 1 else 0

/-- `result` unless the operation overflows. -/
def unlessOverflow (overflow : Bool) (result : Number) : Option Number :=
  if overflow then none else some result

/-- `/` and `%` are undefined on a zero divisor and where the quotient overflows. -/
def divisible (a b : Number) : Bool := b != 0 && !(a == BitVec.intMin 32 && b == -1)

/-- `switch (node.get_operator())` of `visit(Binary_operator)`. `||` and `&&` are applied to values, so
    nothing is short-circuited. -/
def cppBinary : BinaryOperators → Number → Number → Option Number
  | .eq, a, b => some (.ofBool (a == b))
  | .neq, a, b => some (.ofBool (a != b))
  | .less, a, b => some (.ofBool (a.slt b))
  | .lessEq, a, b => some (.ofBool (a.sle b))
  | .greater, a, b => some (.ofBool (b.slt a))
  | .greaterEq, a, b => some (.ofBool (b.sle a))
  | .add, a, b => unlessOverflow (a.saddOverflow b) (a + b)
  | .sub, a, b => unlessOverflow (a.ssubOverflow b) (a - b)
  | .mul, a, b => unlessOverflow (a.smulOverflow b) (a * b)
  | .div, a, b => unlessOverflow (!divisible a b) (a.sdiv b)
  | .remDiv, a, b => unlessOverflow (!divisible a b) (a.srem b)
  | .and, a, b => some (a &&& b)
  | .xor, a, b => some (a ^^^ b)
  | .or, a, b => some (a ||| b)
  | .logOr, a, b => some (.ofBool (a != 0 || b != 0))
  | .logAnd, a, b => some (.ofBool (a != 0 && b != 0))

/-- `switch (node.get_operator())` of `visit(Unary_operator)`. -/
def cppUnary : UnaryOperators → Number → Option Number
  | .neg, a => unlessOverflow (a == BitVec.intMin 32) (-a)
  | .plus, a => some a
  | .not, a => some (.ofBool (a == 0))

/-- The operators as C++ defines them on `int`. -/
def Interpretation.cpp : Interpretation := ⟨cppBinary, cppUnary⟩

section Apply

variable {σ : Type} (I : Interpretation)

/-- Apply an operator, or get stuck on it. -/
def applyBinary (op : BinaryOperators) (a b : Number) : Prog Fault σ Number :=
  match I.binary op a b with
  | some v => pure v
  | none => Prog.raise (.binary op a b)

/-- A unary operator, or a fault where it is undefined. -/
def applyUnary (op : UnaryOperators) (a : Number) : Prog Fault σ Number :=
  match I.unary op a with
  | some v => pure v
  | none => Prog.raise (.unary op a)

end Apply

end ParaCL
