import ParaCL.Codegen.Generator
import ParaCL.Codegen.Folding
import ParaCL.Lib.Machine

/-!
# `Codegen.Exec` — running a generated module

A small-step machine for the instructions of `Codegen.Ir`. A function that has been called is an
`Activation`: the rest of its current block, its arguments, what its instructions have computed so far and
its stack slots. A call of a function without blocks is a call of the C library, of which `printf` and
`scanf` are used. The machine ends with the value `main` returns, at an operator that is undefined on its
operands, or where the code means nothing (no terminator, a value that has not been computed, a slot that
the function has not allocated, a branch on poison).
-/

namespace ParaCL

open Lib

/-- One call under way: the code still to come, the arguments, what the instructions have computed and what the
    slots hold. -/
structure Activation where
  code : List Instruction
  args : List Constant
  regs : Nat → Option Constant
  slots : Nat → Option Constant

/-- The activation that runs, the ones that wait for it with the number of their call, what has been printed
    and how many values `scanf` has read. -/
structure Config where
  top : Activation
  callers : List (Nat × Activation)
  printed : List Number
  delivered : Nat

/-- How a run ends. -/
inductive Ending where
  | returned (value : Constant)
  | undefined (opcode : Opcode) (args : List Constant)
  | invalid

namespace Activation

/-- The value of an operand, if it has one. A slot is an address, which no instruction computes with. -/
def value (f : Activation) : Value → Option Constant
  | .const c => some c
  | .inst id _ => f.regs id
  | .arg _ index => f.args[index]?
  | .slot _ => none
  | .unset => none

/-- The result of an instruction. -/
def setReg (id : Nat) (v : Constant) (f : Activation) : Activation :=
  { f with regs := Function.update f.regs id (some v) }

/-- What a store writes. -/
def setSlot (id : Nat) (v : Constant) (f : Activation) : Activation :=
  { f with slots := Function.update f.slots id (some v) }

end Activation

namespace Config

def value (c : Config) (v : Value) : Option Constant := c.top.value v

/-- Go on with other code. -/
def setCode (code : List Instruction) (c : Config) : Config := { c with top := { c.top with code := code } }

def setReg (id : Nat) (v : Constant) (c : Config) : Config := { c with top := c.top.setReg id v }

def setSlot (id : Nat) (v : Constant) (c : Config) : Config := { c with top := c.top.setSlot id v }

/-- `printf` writes a line. -/
def print (n : Number) (c : Config) : Config := { c with printed := c.printed ++ [n] }

/-- `scanf` uses up a value of the input. -/
def deliver (c : Config) : Config := { c with delivered := c.delivered + 1 }

end Config

/-- What `printf("%d\n", n)` returns: the number of characters. -/
def printfResult (n : Number) : Number := BitVec.ofNat 32 ((toString n.toInt).length + 1)

section Step

variable (g : CodeGenerator) (E : Env)

/-- Go on at the beginning of a block. -/
def goTo (b : Nat) (c : Config) : Config := c.setCode (g.blocks b).instrs

/-- A call of the C library. -/
def callExternal (name : String) (id : Nat) (args : List Value) (c : Config) : Option Config :=
  if name = "printf" then
    match args with
    | [.const (.str "%d\n"), v] =>
        match c.value v with
        | some (.int n) => some ((c.print n).setReg id (.int (printfResult n)))
        | _ => none
    | _ => none
  else if name = "scanf" then
    match args with
    | [.const (.str "%d"), .slot a] =>
        if (c.top.slots a.id).isSome then
          some (((c.setSlot a.id (.int (E.input c.delivered))).deliver).setReg id (.int 1))
        else none
    | _ => none
  else none

/-- A call: of a function of the module with as many arguments as it has parameters, or of the C library. -/
def callFunction (id : Nat) (callee : Value) (args : List Value) (c : Config) : Option Config :=
  match c.value callee with
  | some (.func f) =>
      match g.functions[f]?, g.entryBlock f with
      | some fn, some e =>
          if args.length = fn.paramCount then
            (args.mapM c.value).map (fun vs =>
              { c with
                top := ⟨(g.blocks e).instrs, vs, fun _ => none, fun _ => none⟩
                callers := (id, c.top) :: c.callers })
          else none
      | some fn, none => callExternal E fn.name id args c
      | none, _ => none
  | _ => none

/-- Return a value to the caller. -/
def returnValue (v : Constant) (c : Config) : Config ⊕ Ending :=
  match c.callers with
  | [] => .inr (.returned v)
  | (id, f) :: rest => .inl { c with top := f.setReg id v, callers := rest }

/-- Where no rule applies, the module is invalid. -/
def orInvalid (c : Option Config) : Config ⊕ Ending :=
  match c with
  | some c => .inl c
  | none => .inr .invalid

/-- What an instruction does; `c` is at the code after it. -/
def execute (c : Config) : Instruction → Config ⊕ Ending
  | .alloca a => .inl (c.setSlot a.id (.poison a.ty))
  | .load id a => orInvalid ((c.top.slots a.id).map (fun v => c.setReg id v))
  | .store v a =>
      match c.value v, c.top.slots a.id with
      | some w, some _ => if w.ty = a.ty then .inl (c.setSlot a.id w) else .inr .invalid
      | _, _ => .inr .invalid
  | .op id opcode args =>
      match args.mapM c.value with
      | some vs =>
          match opcode.eval E.ops vs with
          | some w => .inl (c.setReg id w)
          | none => .inr (.undefined opcode vs)
      | none => .inr .invalid
  | .call id _ callee args => orInvalid (callFunction g E id callee args c)
  | .br target => .inl (goTo g target c)
  | .condBr cond thenBlock elseBlock =>
      match c.value cond with
      | some (.bit b) => .inl (goTo g (if b then thenBlock else elseBlock) c)
      | _ => .inr .invalid
  | .ret v =>
      match c.value v with
      | some w => returnValue w c
      | none => .inr .invalid

/-- **One step**: the next instruction of the top activation. -/
def step (c : Config) : Config ⊕ Ending :=
  match c.top.code with
  | [] => .inr .invalid
  | i :: rest => execute g E (c.setCode rest) i

end Step

/-- At the start of `main`. -/
def CodeGenerator.start (g : CodeGenerator) : Config where
  top := ⟨(g.blocks ((g.entryBlock 0).getD 0)).instrs, [], fun _ => none, fun _ => none⟩
  callers := []
  printed := []
  delivered := 0

/-! ## Steps -/

section Steps

variable {g : CodeGenerator} {E : Env} {c : Config} {i : Instruction} {rest : List Instruction}

/-- It executes the instruction in front. -/
theorem step_cons (h : c.top.code = i :: rest) : step g E c = execute g E (c.setCode rest) i := by
  rw [step, h]

/-- A block that runs out of instructions is invalid. -/
theorem step_nil (h : c.top.code = []) : step g E c = .inr .invalid := by
  rw [step, h]

/-- A call of the C library prints a line or none. -/
theorem callExternal_printed {name : String} {id : Nat} {args : List Value} {c' : Config}
    (h : callExternal E name id args c = some c') : c.printed <+: c'.printed := by
  unfold callExternal at h
  split at h
  · split at h
    · split at h
      · cases h; exact List.prefix_append _ _
      · cases h
    · cases h
  · split at h
    · split at h
      · split at h
        · cases h; exact List.prefix_refl _
        · cases h
      · cases h
    · cases h

/-- Entering a function prints nothing, so the same holds of every call. -/
theorem callFunction_printed {id : Nat} {callee : Value} {args : List Value} {c' : Config}
    (h : callFunction g E id callee args c = some c') : c.printed <+: c'.printed := by
  unfold callFunction at h
  split at h
  · split at h
    · split at h
      · obtain ⟨vs, _, rfl⟩ := Option.map_eq_some_iff.mp h
        exact List.prefix_refl _
      · cases h
    · exact callExternal_printed h
    · cases h
  · cases h

theorem orInvalid_eq {o : Option Config} {c' : Config} (h : orInvalid o = .inl c') : o = some c' := by
  cases o with
  | none => cases h
  | some d => cases h; rfl

/-- **No step takes output back.** -/
theorem execute_printed {c' : Config} (h : execute g E c i = .inl c') : c.printed <+: c'.printed := by
  cases i with
  | alloca a => cases h; exact List.prefix_refl _
  | load id a =>
      obtain ⟨v, _, rfl⟩ := Option.map_eq_some_iff.mp (orInvalid_eq h)
      exact List.prefix_refl _
  | store v a =>
      simp only [execute] at h
      split at h
      · split at h
        · cases h; exact List.prefix_refl _
        · cases h
      · cases h
  | op id opcode args =>
      simp only [execute] at h
      split at h
      · split at h
        · cases h; exact List.prefix_refl _
        · cases h
      · cases h
  | call id arity callee args => exact callFunction_printed (orInvalid_eq h)
  | br target => cases h; exact List.prefix_refl _
  | condBr cond thenBlock elseBlock =>
      simp only [execute] at h
      split at h
      · cases h; exact List.prefix_refl _
      · cases h
  | ret v =>
      simp only [execute] at h
      split at h
      · unfold returnValue at h
        split at h
        · cases h
        · cases h; exact List.prefix_refl _
      · cases h

/-- What has been printed stays printed. -/
theorem step_printed (c c' : Config) (h : step g E c = .inl c') : c.printed <+: c'.printed := by
  unfold step at h
  split at h
  · cases h
  · have hp := execute_printed h
    exact hp

end Steps

end ParaCL
