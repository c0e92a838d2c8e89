import ParaCL.Codegen.Builder

/-!
# `Codegen.Lowering` — how operators become instructions

A `Lowering` says which `builder_.Create…` calls an operator makes of the values of its operands. There
are two. `Lowering.source` is the two `switch` statements of `codegen.cpp`. `Lowering.abstract` makes one
instruction for each operator, whose meaning is left to the interpretation: results about control flow
are stated with it, as they do not depend on what the operators compute.
-/

namespace ParaCL

structure Lowering where
  binary : BinaryOperators → Value → Value → Emit Value
  unary : UnaryOperators → Value → Emit Value

/-! ## `IRBuilder` calls -/

def createICmp (p : Predicate) (l r : Value) : Emit Value := .call (.icmp p) [l, r]

/-- `CreateZExt(v, i32)` hands back a value that has the type already. -/
def createZExt (v : Value) : Emit Value := if v.ty = .i32 then pure v else .call .zext [v]

def createBinOp (opcode : Opcode) (l r : Value) : Emit Value := .call opcode [l, r]

/-- `ConstantInt::get(ty, 0)`; only an integer type has a zero. -/
def zeroOf : Ty → Value
  | .i32 => .const (.int 0)
  | .i1 => .const (.bit false)
  | _ => .unset

/-- `CreateNeg` subtracts from the null value of the type. -/
def createNeg (v : Value) : Emit Value := createBinOp .sub (zeroOf v.ty) v

/-! ## The lowering of `codegen.cpp` -/

/-- A comparison and its extension to `i32`. -/
def lowerCompare (p : Predicate) (l r : Value) : Emit Value := do
  let cmp ← createICmp p l r
  createZExt cmp

/-- `||` and `&&`: both operands compared with zero, the bits combined. -/
def lowerLogical (opcode : Opcode) (l r : Value) : Emit Value := do
  let leftBool ← createICmp .ne l (zeroOf l.ty)
  let rightBool ← createICmp .ne r (zeroOf r.ty)
  let bool ← createBinOp opcode leftBool rightBool
  createZExt bool

/-- `switch (node.get_operator())` of `visit(Binary_operator)`. -/
def lowerBinary : BinaryOperators → Value → Value → Emit Value
  | .eq, l, r => lowerCompare .eq l r
  | .neq, l, r => lowerCompare .ne l r
  | .less, l, r => lowerCompare .slt l r
  | .lessEq, l, r => lowerCompare .sle l r
  | .greater, l, r => lowerCompare .sgt l r
  | .greaterEq, l, r => do
      let _ ← lowerCompare .sge l r
      -- there is no `break`: the case runs on into the next one, which overwrites `last_value_`
      createBinOp .add l r
  | .add, l, r => createBinOp .add l r
  | .sub, l, r => createBinOp .sub l r
  | .mul, l, r => createBinOp .mul l r
  | .div, l, r => createBinOp .sdiv l r
  | .remDiv, l, r => createBinOp .srem l r
  | .and, l, r => createBinOp .and l r
  | .xor, l, r => createBinOp .xor l r
  | .or, l, r => createBinOp .or l r
  | .logOr, l, r => lowerLogical .or l r
  | .logAnd, l, r => lowerLogical .and l r

/-- `switch (node.get_operator())` of `visit(Unary_operator)`. -/
def lowerUnary : UnaryOperators → Value → Emit Value
  | .neg, v => createNeg v
  | .plus, v => pure v
  | .not, v => do
      let notBool ← createICmp .eq v (zeroOf v.ty)
      createZExt notBool

def Lowering.source : Lowering := ⟨lowerBinary, lowerUnary⟩

/-! ## Abstract operators -/

def Lowering.abstract : Lowering where
  binary op l r := .call (.binary op) [l, r]
  unary op v := .call (.unary op) [v]

end ParaCL
