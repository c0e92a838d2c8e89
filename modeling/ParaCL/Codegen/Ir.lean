import ParaCL.Ast.Node

/-!
# `Codegen.Ir` — the part of LLVM IR the generator builds

Objects LLVM knows by address have numbers here: a function is its place in the module, a basic block and
an instruction carry the number they got when they were created. An instruction that yields a value is
referred to by its number and its type. An entry block keeps apart what was inserted at its `begin()`
(`hoisted`, the last insertion first) and what was appended at its end (`body`); no other block has
hoisted instructions. Names of blocks and values only show in printed IR and are left out.
-/

namespace ParaCL

/-- The types in use. `unknown` stands for the type of an uninitialised value. -/
inductive Ty where
  | i1 | i32 | ptr | void | unknown
  deriving DecidableEq, Repr

/-- `llvm::Constant`. -/
inductive Constant where
  | int (value : Number)
  | bit (value : Bool)
  | poison (ty : Ty)
  | func (id : Nat)
  | str (text : String)
  deriving DecidableEq, Repr

def Constant.ty : Constant → Ty
  | .int _ => .i32
  | .bit _ => .i1
  | .poison ty => ty
  | .func _ => .ptr
  | .str _ => .ptr

/-- `llvm::AllocaInst`: its number, `getAllocatedType()` and `getFunction()`. -/
structure AllocaInst where
  id : Nat
  ty : Ty
  func : Nat
  deriving DecidableEq, Repr

/-- `llvm::Value`. `unset` is what a pointer that was never assigned points to. -/
inductive Value where
  | const (c : Constant)
  | inst (id : Nat) (ty : Ty)
  | arg (func index : Nat)
  | slot (a : AllocaInst)
  | unset
  deriving DecidableEq, Repr

/-- `getType()`. -/
def Value.ty : Value → Ty
  | .const c => c.ty
  | .inst _ ty => ty
  | .arg _ _ => .i32
  | .slot _ => .ptr
  | .unset => .unknown

/-- `dyn_cast<Constant>`. -/
def Value.constant? : Value → Option Constant
  | .const c => some c
  | _ => none

inductive Predicate where
  | eq | ne | slt | sle | sgt | sge
  deriving DecidableEq, Repr

/-- What computes a value from values. `binary` and `unary` are the operators of the language taken as
    instructions of their own, for results that do not depend on how operators are lowered. -/
inductive Opcode where
  | icmp (p : Predicate)
  | zext
  | add | sub | mul | sdiv | srem
  | and | or | xor
  | binary (op : BinaryOperators)
  | unary (op : UnaryOperators)
  deriving DecidableEq, Repr

/-- The type of a result, from the operands. -/
def Opcode.resultTy : Opcode → List Value → Ty
  | .icmp _, _ => .i1
  | .zext, _ => .i32
  | .binary _, _ => .i32
  | .unary _, _ => .i32
  | _, v :: _ => v.ty
  | _, [] => .unknown

inductive Instruction where
  | alloca (a : AllocaInst)
  | load (id : Nat) (slot : AllocaInst)
  | store (value : Value) (slot : AllocaInst)
  | op (id : Nat) (opcode : Opcode) (args : List Value)
  | call (id : Nat) (arity : Nat) (callee : Value) (args : List Value)
  | br (target : Nat)
  | condBr (cond : Value) (thenBlock elseBlock : Nat)
  | ret (value : Value)
  deriving DecidableEq, Repr

/-- `isTerminator()`. -/
def Instruction.isTerminator : Instruction → Bool
  | .br _ => true
  | .condBr _ _ _ => true
  | .ret _ => true
  | _ => false

/-- `llvm::BasicBlock`, with the function it belongs to. -/
structure BasicBlock where
  parent : Nat
  hoisted : List Instruction
  body : List Instruction
  deriving DecidableEq, Repr

/-- All instructions, first to last. -/
def BasicBlock.instrs (b : BasicBlock) : List Instruction := b.hoisted ++ b.body

/-- `getTerminator() != nullptr`: the last instruction is a terminator. -/
def BasicBlock.hasTerminator (b : BasicBlock) : Bool :=
  match b.instrs.getLast? with
  | some i => i.isTerminator
  | none => false

/-- `llvm::Function`: a definition if some block belongs to it, else a declaration. -/
structure IrFunction where
  name : String
  paramCount : Nat
  deriving DecidableEq, Repr

/-- What the generator relies on in LLVM and cannot be read here: how `IRBuilder` folds an instruction whose
    operands are constants, and the name a second function of one name gets. -/
structure Llvm where
  fold : Opcode → List Constant → Option Constant
  uniqueName : List String → String → String

end ParaCL
