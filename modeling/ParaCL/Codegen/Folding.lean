import ParaCL.Codegen.Ir
import ParaCL.Simulator.Operators
import Mathlib.Data.List.Nodup
import Mathlib.Data.List.Perm.Subperm

/-!
# `Codegen.Folding` — what value instructions compute, and what LLVM may fold

The values of a run are constants: integers, bits, functions, strings, and `poison` for a value that is not
defined. `Opcode.eval` is what one instruction computes; it is `none` where executing it is undefined, in
particular for a zero divisor and for operands of the wrong type. `Llvm.Sound` is what `IRBuilder`'s folder
promises: a folded constant is what the instruction would compute, or poison of its type where that is
undefined.
`Llvm.Numbers` is how a second function of one name is called. `Llvm.standard` is such a folder and such a
naming scheme.
-/

namespace ParaCL

namespace Constant

/-- An integer, a bit or poison; functions and strings are addresses. -/
def isScalar : Constant → Bool
  | .int _ => true
  | .bit _ => true
  | .poison _ => true
  | _ => false

end Constant

def Predicate.eval : Predicate → Number → Number → Bool
  | .eq, a, b => a == b
  | .ne, a, b => a != b
  | .slt, a, b => a.slt b
  | .sle, a, b => a.sle b
  | .sgt, a, b => b.slt a
  | .sge, a, b => b.sle a

/-- `icmp` on bits; only equality is used on them. -/
def Predicate.evalBit : Predicate → Bool → Bool → Option Bool
  | .eq, a, b => some (a == b)
  | .ne, a, b => some (a != b)
  | _, _, _ => none

namespace Opcode

/-- On defined integers. Arithmetic wraps around, as no `nsw` flag is set. -/
def evalInt : Opcode → Number → Number → Option Constant
  | .icmp p, a, b => some (.bit (p.eval a b))
  | .add, a, b => some (.int (a + b))
  | .sub, a, b => some (.int (a - b))
  | .mul, a, b => some (.int (a * b))
  | .sdiv, a, b => if divisible a b then some (.int (a.sdiv b)) else none
  | .srem, a, b => if divisible a b then some (.int (a.srem b)) else none
  | .and, a, b => some (.int (a &&& b))
  | .or, a, b => some (.int (a ||| b))
  | .xor, a, b => some (.int (a ^^^ b))
  | _, _, _ => none

def evalBits : Opcode → Bool → Bool → Option Constant
  | .icmp p, a, b => (p.evalBit a b).map .bit
  | .and, a, b => some (.bit (a && b))
  | .or, a, b => some (.bit (a || b))
  | .xor, a, b => some (.bit (a ^^ b))
  | _, _, _ => none

/-- The type of a poison result. -/
def poisonTy : Opcode → Ty → Ty
  | .icmp _, _ => .i1
  | .zext, _ => .i32
  | _, ty => ty

/-- What an LLVM instruction computes. An undefined operand gives an undefined result; dividing by one is
    undefined altogether. -/
def evalLlvm : Opcode → List Constant → Option Constant
  | .binary _, _ => none
  | .unary _, _ => none
  | .zext, [.bit b] => some (.int (Number.ofBool b))
  | .zext, [.poison _] => some (.poison .i32)
  | opcode, [.int a, .int b] => opcode.evalInt a b
  | opcode, [.bit a, .bit b] => opcode.evalBits a b
  | .sdiv, [_, .poison _] => none
  | .srem, [_, .poison _] => none
  | opcode, [.poison ty, _] => some (.poison (opcode.poisonTy ty))
  | opcode, [_, .poison ty] => some (.poison (opcode.poisonTy ty))
  | _, _ => none

/-- What an instruction computes, under a meaning of the abstract operators. -/
def eval (I : Interpretation) : Opcode → List Constant → Option Constant
  | .binary op, [.int a, .int b] => (I.binary op a b).map .int
  | .unary op, [.int a] => (I.unary op a).map .int
  | opcode, cs => opcode.evalLlvm cs

end Opcode

/-- The folder's promise, on scalar constants. -/
def Llvm.Sound (M : Llvm) : Prop :=
  ∀ opcode cs c, (∀ d ∈ cs, d.isScalar) → M.fold opcode cs = some c →
    opcode.evalLlvm cs = some c ∨
      (opcode.evalLlvm cs = none ∧ c = .poison (opcode.resultTy (cs.map Value.const)))

/-- What LLVM makes of a name that is in use: it appends a dot and a number. -/
def Llvm.Numbers (M : Llvm) : Prop :=
  ∀ taken name, ∃ n : Nat, M.uniqueName taken name = name ++ "." ++ toString n

/-- Fold what can be computed; an undefined quotient is poison. -/
def standardFold (opcode : Opcode) (cs : List Constant) : Option Constant :=
  match opcode.evalLlvm cs with
  | some c => some c
  | none =>
      match opcode, cs with
      | .sdiv, [.int _, .int _] => some (.poison .i32)
      | .srem, [.int _, .int _] => some (.poison .i32)
      | _, _ => none

/-- The first of `name.1`, `name.2`, … that is free. -/
def standardName (taken : List String) (name : String) : String :=
  let candidates := (List.range (taken.length + 1)).map (fun k => name ++ "." ++ toString (k + 1))
  (candidates.find? (fun n => n ∉ taken)).getD name

/-- A folder and naming scheme as LLVM has them. -/
def Llvm.standard : Llvm := ⟨standardFold, standardName⟩

theorem Llvm.standard_sound : Llvm.standard.Sound := by
  intro opcode cs c _ h
  have h : standardFold opcode cs = some c := h
  unfold standardFold at h
  cases he : opcode.evalLlvm cs with
  | some d => rw [he] at h; exact .inl h
  | none =>
      rw [he] at h
      refine .inr ⟨rfl, ?_⟩
      dsimp only at h
      split at h
      · cases h; rfl
      · cases h; rfl
      · cases h

theorem numbered_injective (name : String) :
    Function.Injective (fun k : Nat => name ++ "." ++ toString (k + 1)) := by
  intro m n h
  have h : toString (m + 1) = toString (n + 1) := (String.append_right_inj _).mp h
  have hdigits : Nat.toDigits 10 (m + 1) = Nat.toDigits 10 (n + 1) := String.ofList_injective h
  have hvalue := congrArg (fun l => Nat.ofDigitChars 10 l 0) hdigits
  simp only [Nat.ofDigitChars_ten_toDigits] at hvalue
  omega

/-- One of the candidates is free: there are more of them than names in use. -/
theorem Llvm.standard_numbers : Llvm.standard.Numbers := by
  intro taken name
  show ∃ n : Nat, standardName taken name = name ++ "." ++ toString n
  unfold standardName
  dsimp only
  cases hfind : ((List.range (taken.length + 1)).map (fun k => name ++ "." ++ toString (k + 1))).find?
      (fun n => n ∉ taken) with
  | some s =>
      obtain ⟨k, _, rfl⟩ := List.mem_map.mp (List.mem_of_find?_eq_some hfind)
      exact ⟨k + 1, rfl⟩
  | none =>
      exfalso
      have hall := List.find?_eq_none.mp hfind
      have hsub : (List.range (taken.length + 1)).map (fun k => name ++ "." ++ toString (k + 1)) ⊆ taken :=
        fun s hs => by simpa using hall s hs
      have hnodup := List.Nodup.map (numbered_injective name) (List.nodup_range (n := taken.length + 1))
      have hlen := (List.subperm_of_subset hnodup hsub).length_le
      rw [List.length_map, List.length_range] at hlen
      omega

end ParaCL
