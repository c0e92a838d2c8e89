import ParaCL.Parser.Check
import ParaCL.Simulator.Evaluator
import ParaCL.Lib.Lockstep
import Mathlib.Algebra.Group.Int.Defs
import Mathlib.Data.Int.Basic

/-!
# `Simulator.Exact` — the arithmetic of the evaluator against exact integers

A second semantics computes with integers of any size and stops where an `int` could not follow: at a zero
divisor, or at a result (for `%` also a quotient) that no `int` holds. The evaluator runs in lockstep with
it and comes to an operation that C++ leaves undefined exactly where it stops.
-/

namespace ParaCL

open Lib

/-! ## Exact operators -/

/-- Where the exact run stops. -/
inductive ExactFault where
  | zeroDivisor
  | outOfRange (result : Int)
  | unknownVariable (name : Name)
  deriving DecidableEq

/-- The fault is one of arithmetic. -/
def ExactFault.Arithmetic (e : ExactFault) : Prop := ∀ x, e ≠ .unknownVariable x

/-- The state of the simulator, with integers of any size. -/
structure ExactState where
  nametable : Name → Option Int
  printed : List Int
  delivered : Nat

namespace ExactState

/-- At the beginning it is empty. -/
def init : ExactState := ⟨fun _ => none, [], 0⟩

/-- A name stands for one variable, whatever block it is in. -/
def store (x : Name) (v : Int) (s : ExactState) : ExactState :=
  { s with nametable := Function.update s.nametable x (some v) }

/-- One more line of output. -/
def print (v : Int) (s : ExactState) : ExactState := { s with printed := s.printed ++ [v] }

/-- One more value of the input is used up. -/
def deliver (s : ExactState) : ExactState := { s with delivered := s.delivered + 1 }

end ExactState

namespace Exact

/-- Truth as a number. -/
def ofBool (b : Bool) : Int := if b then 1 else 0

/-- A bitwise operator works on the bits an `int` has. -/
def bitwise (f : Number → Number → Number) (a b : Int) : Int :=
  (f (BitVec.ofInt 32 a) (BitVec.ofInt 32 b)).toInt

/-- The exact result; a quotient is truncated. -/
def result : BinaryOperators → Int → Int → Int
  | .eq, a, b => ofBool (a = b)
  | .neq, a, b => ofBool (a ≠ b)
  | .less, a, b => ofBool (a < b)
  | .lessEq, a, b => ofBool (a ≤ b)
  | .greater, a, b => ofBool (a > b)
  | .greaterEq, a, b => ofBool (a ≥ b)
  | .add, a, b => a + b
  | .sub, a, b => a - b
  | .mul, a, b => a * b
  | .div, a, b => a.tdiv b
  | .remDiv, a, b => a.tmod b
  | .and, a, b => bitwise (· &&& ·) a b
  | .xor, a, b => bitwise (· ^^^ ·) a b
  | .or, a, b => bitwise (· ||| ·) a b
  | .logOr, a, b => ofBool (a ≠ 0 ∨ b ≠ 0)
  | .logAnd, a, b => ofBool (a ≠ 0 ∧ b ≠ 0)

/-- What the unary operators mean. -/
def unaryResult : UnaryOperators → Int → Int
  | .neg, a => -a
  | .plus, a => a
  | .not, a => ofBool (a = 0)

/-- Division and remainder ask for a divisor. -/
def divides (op : BinaryOperators) : Bool := op == .div || op == .remDiv

/-- `result` if an `int` holds `extent`, the largest number the operation has to form. -/
def inRange (extent result : Int) : Prog ExactFault ExactState Int :=
  if InInt extent then pure result else Prog.raise (.outOfRange extent)

/-- An operator, whose result has to be an `int`. -/
def applyBinary (op : BinaryOperators) (a b : Int) : Prog ExactFault ExactState Int :=
  if divides op && b == 0 then Prog.raise .zeroDivisor
  else inRange (if divides op then a.tdiv b else result op a b) (result op a b)

/-- A unary operator, likewise. -/
def applyUnary (op : UnaryOperators) (a : Int) : Prog ExactFault ExactState Int :=
  inRange (unaryResult op a) (unaryResult op a)

/-! ## The exact run -/

/-- A variable that has a value. -/
def visitVariable (x : Name) : Prog ExactFault ExactState Int := do
  let v ← Prog.gets (fun s => s.nametable x)
  match v with
  | some v => pure v
  | none => Prog.raise (.unknownVariable x)

section Semantics

variable (input : Nat → Number) (fuel : Nat)

/-- The next value of the input. -/
def visitInput : Prog ExactFault ExactState Int := do
  let value ← Prog.gets (fun s => (input s.delivered).toInt)
  let _ ← Prog.modify ExactState.deliver
  pure value

mutual

/-- Expressions, from left to right. -/
def evalExpr : Expression → Prog ExactFault ExactState Int
  | .number value => pure value.toInt
  | .var name => visitVariable name
  | .assignmentExpr name value => do
      let v ← evalExpr value
      let _ ← Prog.modify (ExactState.store name v)
      pure v
  | .binaryOperator op left right => do
      let a ← evalExpr left
      let b ← evalExpr right
      applyBinary op a b
  | .unaryOperator op operand => do
      let a ← evalExpr operand
      applyUnary op a
  | .input => visitInput input
  | .blockExpr stmts => evalBlock stmts 0
  | .func _ _ _ => pure 0
  | .call _ _ => pure 0

/-- The statements of a block; the value is that of the last expression among them. -/
def evalBlock : List Statement → Int → Prog ExactFault ExactState Int
  | [], last => pure last
  | .exprStmt expr :: stmts, _ => do
      let v ← evalExpr expr
      evalBlock stmts v
  | stmt :: stmts, last => do
      let _ ← exec stmt
      evalBlock stmts last

/-- Statements. -/
def exec : Statement → Prog ExactFault ExactState Unit
  | .emptyStmt => pure ()
  | .exprStmt expr => do
      let _ ← evalExpr expr
      pure ()
  | .ifStmt condition thenBranch none => do
      let v ← evalExpr condition
      if v != 0 then
        let _ ← evalExpr thenBranch
        pure ()
      else
        pure ()
  | .ifStmt condition thenBranch (some elseBranch) => do
      let v ← evalExpr condition
      if v != 0 then
        let _ ← evalExpr thenBranch
        pure ()
      else
        let _ ← evalExpr elseBranch
        pure ()
  | .whileStmt condition body =>
      Prog.loop
        (do
          let v ← evalExpr condition
          pure (v != 0))
        (do
          let _ ← evalExpr body
          pure ())
        fuel
  | .printStmt value => do
      let v ← evalExpr value
      Prog.modify (ExactState.print v)
  | .returnStmt _ => pure ()

end

/-- The statements of a program. -/
def execProgram : List Statement → Prog ExactFault ExactState Unit
  | [] => pure ()
  | stmt :: stmts => do
      let _ ← exec input fuel stmt
      execProgram stmts

/-- The meaning of a program, up to a bound on the rounds of its loops. -/
def run (p : Program) : Outcome ExactFault ExactState Unit := execProgram input fuel p.stmts .init

end Semantics

end Exact

/-! ## Machine integers against exact ones -/

/-- The fault is an operation that C++ leaves undefined. -/
def Fault.Arithmetic (e : Fault) : Prop := ∀ x, e ≠ .unknownVariable x

/-- The exact state has the integers of the machine state. -/
structure Denotes (s : SimState) (t : ExactState) : Prop where
  nametable : ∀ x, t.nametable x = (s.nametable x).map BitVec.toInt
  printed : t.printed = s.printed.map BitVec.toInt
  delivered : t.delivered = s.delivered

/-- Both are arithmetic, or both name the same unknown variable. -/
def FaultsAlike (e : Fault) (e' : ExactFault) : Prop :=
  (e.Arithmetic ∧ e'.Arithmetic) ∨ ∃ x, e = .unknownVariable x ∧ e' = .unknownVariable x

/-- The exact value is the machine value, in related states. -/
def SameValue (v : Number) (v' : Int) (s : SimState) (t : ExactState) : Prop := v' = v.toInt ∧ Denotes s t

section Operators

variable {a b v : Number}

theorem toInt_ofBool (c : Bool) : (Number.ofBool c).toInt = Exact.ofBool c := by cases c <;> rfl

/-- A machine integer is an `int`. -/
theorem inInt_toInt (a : Number) : InInt a.toInt := ⟨BitVec.le_toInt a, BitVec.toInt_lt⟩

/-- The machine has a value and the exact run the same one, or both stop. -/
def OperatorAgrees (o : Option Number) (m : Prog ExactFault ExactState Int) : Prop :=
  (∃ v, o = some v ∧ m = pure v.toInt) ∨ (o = none ∧ ∃ e : ExactFault, e.Arithmetic ∧ m = Prog.raise e)

/-- A result that cannot overflow. -/
theorem OperatorAgrees.value {r : Int} (h : v.toInt = r) : OperatorAgrees (some v) (Exact.inRange r r) := by
  subst h
  exact .inl ⟨v, rfl, if_pos (inInt_toInt v)⟩

/-- One that is undefined where it does. -/
theorem OperatorAgrees.unless {o : Bool} {extent r : Int} (ho : o = false ↔ InInt extent)
    (hv : InInt extent → v.toInt = r) : OperatorAgrees (unlessOverflow o v) (Exact.inRange extent r) := by
  by_cases h : InInt extent
  · refine .inl ⟨v, ?_, ?_⟩
    · rw [ho.mpr h]
      rfl
    · rw [Exact.inRange, if_pos h, hv h]
  · refine .inr ⟨?_, .outOfRange extent, by simp [ExactFault.Arithmetic], if_neg h⟩
    have ho : o = true := by
      rw [← ho, Bool.not_eq_false] at h
      exact h
    rw [ho]
    rfl

/-- The overflow flag of an addition says that the sum is no `int`. -/
theorem saddOverflow_iff : a.saddOverflow b = false ↔ InInt (a.toInt + b.toInt) := by
  simp only [BitVec.saddOverflow, InInt, Bool.or_eq_false_iff, decide_eq_false_iff_not]
  omega

/-- So does that of a subtraction. -/
theorem ssubOverflow_iff : a.ssubOverflow b = false ↔ InInt (a.toInt - b.toInt) := by
  simp only [BitVec.ssubOverflow, InInt, Bool.or_eq_false_iff, decide_eq_false_iff_not]
  omega

/-- So does that of a multiplication. -/
theorem smulOverflow_iff : a.smulOverflow b = false ↔ InInt (a.toInt * b.toInt) := by
  simp only [BitVec.smulOverflow, InInt, Bool.or_eq_false_iff, decide_eq_false_iff_not]
  omega

theorem toInt_eq_zero : a.toInt = 0 ↔ a = 0 := by
  rw [← BitVec.toInt_inj]
  rfl

/-- A quotient overflows at one place only. -/
theorem divisible_eq (hb : b ≠ 0) : (!divisible a b) = false ↔ a ≠ BitVec.intMin 32 ∨ b ≠ -1 := by
  have hb' : (b != 0) = true := by simpa using hb
  rw [divisible, hb', Bool.true_and, Bool.not_not, Bool.and_eq_false_iff, beq_eq_false_iff_ne,
    beq_eq_false_iff_ne]

/-- One quotient leaves the range. -/
theorem divisible_iff (hb : b ≠ 0) : (!divisible a b) = false ↔ InInt (a.toInt.tdiv b.toInt) := by
  rw [divisible_eq hb]
  constructor
  · intro h
    rw [← BitVec.toInt_sdiv_of_ne_or_ne a b h]
    exact inInt_toInt _
  · intro h
    by_contra hno
    obtain ⟨rfl, rfl⟩ : a = BitVec.intMin 32 ∧ b = -1 := by simpa only [not_or, not_not] using hno
    revert h
    decide

/-- Elsewhere division rounds to zero, as on the integers. -/
theorem toInt_sdiv_of_inInt (hb : b ≠ 0) (h : InInt (a.toInt.tdiv b.toInt)) :
    (a.sdiv b).toInt = a.toInt.tdiv b.toInt :=
  BitVec.toInt_sdiv_of_ne_or_ne a b ((divisible_eq hb).mp ((divisible_iff hb).mpr h))

/-- **What C++ says of an operator is what the exact operators say.** -/
theorem applyBinary_agrees (op : BinaryOperators) (a b : Number) :
    OperatorAgrees (cppBinary op a b) (Exact.applyBinary op a.toInt b.toInt) := by
  -- division and remainder fail for zero and for one quotient out of range, the rest for their result only
  by_cases hop : Exact.divides op = true
  · by_cases hb : b = 0
    · refine .inr ⟨?_, .zeroDivisor, by simp [ExactFault.Arithmetic], ?_⟩
      · cases op with
        | div | remDiv => simp [cppBinary, divisible, hb, unlessOverflow]
        | _ => cases hop
      · rw [Exact.applyBinary, if_pos (by simp [hop, hb])]
    · have happ : Exact.applyBinary op a.toInt b.toInt =
          Exact.inRange (a.toInt.tdiv b.toInt) (Exact.result op a.toInt b.toInt) := by
        have hz : (b.toInt == 0) = false := beq_eq_false_iff_ne.mpr (mt toInt_eq_zero.mp hb)
        rw [Exact.applyBinary, hz, Bool.and_false, if_neg Bool.false_ne_true, if_pos hop]
      rw [happ]
      cases op with
      | div => exact .unless (divisible_iff hb) (toInt_sdiv_of_inInt hb)
      | remDiv => exact .unless (divisible_iff hb) (fun _ => BitVec.toInt_srem a b)
      | _ => cases hop
  · have happ : Exact.applyBinary op a.toInt b.toInt =
        Exact.inRange (Exact.result op a.toInt b.toInt) (Exact.result op a.toInt b.toInt) := by
      rw [Exact.applyBinary, if_neg (by simp [hop]), if_neg hop]
    rw [happ]
    cases op with
    | div => exact absurd rfl hop
    | remDiv => exact absurd rfl hop
    | add =>
        refine .unless saddOverflow_iff (fun h => BitVec.toInt_add_of_not_saddOverflow ?_)
        simp [saddOverflow_iff.mpr h]
    | sub =>
        refine .unless ssubOverflow_iff (fun h => BitVec.toInt_sub_of_not_ssubOverflow ?_)
        simp [ssubOverflow_iff.mpr h]
    | mul =>
        refine .unless smulOverflow_iff (fun h => BitVec.toInt_mul_of_not_smulOverflow ?_)
        simp [smulOverflow_iff.mpr h]
    | and | xor | or => exact .value (by simp [Exact.result, Exact.bitwise])
    | less | greater => exact .value (by simp [toInt_ofBool, Exact.result, BitVec.slt])
    | lessEq | greaterEq => exact .value (by simp [toInt_ofBool, Exact.result, BitVec.sle])
    | eq | neq =>
        exact .value (by simp [toInt_ofBool, Exact.result, BitVec.toInt_inj, bne, beq_eq_decide])
    | logOr | logAnd =>
        exact .value (by simp [toInt_ofBool, Exact.result, toInt_eq_zero, bne, beq_eq_decide])

/-- **Unary operators agree** with the exact ones. -/
theorem applyUnary_agrees (op : UnaryOperators) (a : Number) :
    OperatorAgrees (cppUnary op a) (Exact.applyUnary op a.toInt) := by
  cases op with
  | neg =>
      have hneg (h : a ≠ BitVec.intMin 32) : (-a).toInt = -a.toInt := BitVec.toInt_neg_of_ne_intMin h
      have hrange : (a == BitVec.intMin 32) = false ↔ InInt (-a.toInt) := by
        rw [beq_eq_false_iff_ne]
        constructor
        · intro h
          rw [← hneg h]
          exact inInt_toInt _
        · rintro h rfl
          revert h
          decide
      exact .unless hrange (fun h => hneg (beq_eq_false_iff_ne.mp (hrange.mpr h)))
  | plus => exact .value rfl
  | not =>
      exact .value (by simp [toInt_ofBool, Exact.unaryResult, toInt_eq_zero, beq_eq_decide])

end Operators

/-! ## The visitors in lockstep -/

/-- The evaluator and the exact run, from states with the same integers. -/
abbrev EvalLockstep (m : Prog Fault SimState Number) (m' : Prog ExactFault ExactState Int) : Prop :=
  Prog.Lockstep Denotes m m' SameValue FaultsAlike

/-- Two ways to run a statement, on states that denote the same. -/
abbrev ExecLockstep (m : Prog Fault SimState Unit) (m' : Prog ExactFault ExactState Unit) : Prop :=
  Prog.Lockstep Denotes m m' (fun _ _ => Denotes) FaultsAlike

section Lockstep

variable {a b : Number} {m : Prog Fault SimState Number} {m' : Prog ExactFault ExactState Int}

/-- Storing a value and the integer it is. -/
theorem Denotes.store {s : SimState} {t : ExactState} (h : Denotes s t) (x : Name) (v : Number) :
    Denotes (s.store x v) (t.store x v.toInt) where
  nametable y := by
    by_cases hy : y = x
    · subst hy
      simp [SimState.store, ExactState.store]
    · simp [SimState.store, ExactState.store, hy, h.nametable]
  printed := h.printed
  delivered := h.delivered

/-- Printing them. -/
theorem Denotes.print {s : SimState} {t : ExactState} (h : Denotes s t) (v : Number) :
    Denotes (s.print v) (t.print v.toInt) where
  nametable := h.nametable
  printed := by simp [SimState.print, ExactState.print, h.printed]
  delivered := h.delivered

/-- What follows may count on the exact value. -/
theorem EvalLockstep.andThen {β β' : Type} {f : Number → Prog Fault SimState β}
    {f' : Int → Prog ExactFault ExactState β'} {S : β → β' → SimState → ExactState → Prop}
    (h : EvalLockstep m m') (hf : ∀ v, Prog.Lockstep Denotes (f v) (f' v.toInt) S FaultsAlike) :
    Prog.Lockstep Denotes (m >>= f) (m' >>= f') S FaultsAlike := by
  refine .bind h (fun v v' s t hv => ?_)
  obtain ⟨rfl, hd⟩ := hv
  exact hf v s t hd

theorem value_lockstep (v : Number) : EvalLockstep (pure v) (pure v.toInt) := .pure (fun _ _ h => ⟨rfl, h⟩)

theorem unit_lockstep : ExecLockstep (pure ()) (pure ()) := .pure (fun _ _ h => h)

/-- An operator is defined on both sides or on neither. -/
theorem applyBinary_lockstep (op : BinaryOperators) :
    EvalLockstep (applyBinary .cpp op a b) (Exact.applyBinary op a.toInt b.toInt) := by
  rw [applyBinary]
  rcases applyBinary_agrees op a b with ⟨v, hv, he⟩ | ⟨hv, e, hne, he⟩
  · rw [he, show Interpretation.cpp.binary op a b = some v from hv]
    exact value_lockstep v
  · rw [he, show Interpretation.cpp.binary op a b = none from hv]
    exact .raise (.inl ⟨by simp [Fault.Arithmetic], hne⟩)

theorem applyUnary_lockstep (op : UnaryOperators) :
    EvalLockstep (applyUnary .cpp op a) (Exact.applyUnary op a.toInt) := by
  rw [applyUnary]
  rcases applyUnary_agrees op a with ⟨v, hv, he⟩ | ⟨hv, e, hne, he⟩
  · rw [he, show Interpretation.cpp.unary op a = some v from hv]
    exact value_lockstep v
  · rw [he, show Interpretation.cpp.unary op a = none from hv]
    exact .raise (.inl ⟨by simp [Fault.Arithmetic], hne⟩)

/-- A variable has a value on both sides or on neither. -/
theorem visitVariable_lockstep (x : Name) : EvalLockstep (visitVariable x) (Exact.visitVariable x) := by
  intro s t h
  rw [visitVariable, Exact.visitVariable, Prog.gets_bind, Prog.gets_bind, h.nametable]
  cases s.nametable x with
  | none => exact .fault (.inr ⟨x, rfl, rfl⟩)
  | some v => exact .done ⟨rfl, h⟩

/-- Both sides read the same input. -/
theorem visitInput_lockstep (input : Nat → Number) :
    EvalLockstep (visitInput ⟨.cpp, input⟩) (Exact.visitInput input) := by
  intro s t h
  have hdeliver : Denotes s.deliver t.deliver :=
    ⟨h.nametable, h.printed, congrArg (· + 1) h.delivered⟩
  rw [visitInput, Exact.visitInput, Prog.gets_bind, Prog.gets_bind, h.delivered]
  exact .done ⟨rfl, hdeliver⟩

/-- A test of a value against 0 has the same answer. -/
theorem toInt_test (v : Number) : (v.toInt != 0) = (v != 0) := by
  simp [bne, beq_eq_decide, toInt_eq_zero]

end Lockstep

section Visitors

variable {input : Nat → Number} {fuel : Nat}

/-- The evaluator's visit, with its value dropped. -/
theorem EvalLockstep.discard {m : Prog Fault SimState Number} {m' : Prog ExactFault ExactState Int}
    (h : EvalLockstep m m') : ExecLockstep (m >>= fun _ => pure ()) (m' >>= fun _ => pure ()) :=
  h.andThen (fun _ => unit_lockstep)

mutual

/-- **Expressions run in lockstep**, by induction on the tree. -/
theorem evalExpr_lockstep : ∀ e : Expression,
    EvalLockstep (ExpressionEvaluator.visit ⟨.cpp, input⟩ fuel e) (Exact.evalExpr input fuel e)
  | .number v => value_lockstep v
  | .var x => visitVariable_lockstep x
  | .assignmentExpr x e => by
      rw [ExpressionEvaluator.visit, Exact.evalExpr]
      refine (evalExpr_lockstep e).andThen (fun v => ?_)
      have hstore : ExecLockstep (Prog.modify (SimState.store x v))
          (Prog.modify (ExactState.store x v.toInt)) := .modify (fun s t h => h.store x v)
      exact .bind hstore (fun _ _ => value_lockstep v)
  | .binaryOperator op a b => by
      rw [ExpressionEvaluator.visit, Exact.evalExpr]
      refine (evalExpr_lockstep a).andThen (fun l => (evalExpr_lockstep b).andThen (fun r => ?_))
      exact applyBinary_lockstep op
  | .unaryOperator op e => by
      rw [ExpressionEvaluator.visit, Exact.evalExpr]
      exact (evalExpr_lockstep e).andThen (fun v => applyUnary_lockstep op)
  | .input => visitInput_lockstep input
  | .blockExpr ss => evalBlock_lockstep ss 0
  | .func _ _ _ => value_lockstep 0
  | .call _ _ => value_lockstep 0

/-- So do blocks, with the value of the last expression. -/
theorem evalBlock_lockstep : ∀ (ss : List Statement) (last : Number),
    EvalLockstep (ExpressionEvaluator.visitStmts ⟨.cpp, input⟩ fuel ss last)
      (Exact.evalBlock input fuel ss last.toInt)
  | [], last => value_lockstep last
  | s :: ss, last => by
      cases s with
      | exprStmt e => exact (evalExpr_lockstep e).andThen (fun v => evalBlock_lockstep ss v)
      | _ => exact .bind (exec_lockstep _) (fun _ _ => evalBlock_lockstep ss last)

/-- So do statements; a loop is an induction on its rounds. -/
theorem exec_lockstep : ∀ s : Statement,
    ExecLockstep (Simulator.visit ⟨.cpp, input⟩ fuel s) (Exact.exec input fuel s)
  | .emptyStmt => unit_lockstep
  | .exprStmt e => (evalExpr_lockstep e).discard
  | .ifStmt c t none => by
      rw [Simulator.visit, Exact.exec]
      refine (evalExpr_lockstep c).andThen (fun v => ?_)
      rw [toInt_test]
      split
      · exact (evalExpr_lockstep t).discard
      · exact unit_lockstep
  | .ifStmt c t (some e) => by
      rw [Simulator.visit, Exact.exec]
      refine (evalExpr_lockstep c).andThen (fun v => ?_)
      rw [toInt_test]
      split
      · exact (evalExpr_lockstep t).discard
      · exact (evalExpr_lockstep e).discard
  | .whileStmt c b => by
      rw [Simulator.visit, Exact.exec]
      refine .loop ?_ (evalExpr_lockstep b).discard fuel
      exact (evalExpr_lockstep c).andThen (fun v => .pure (fun _ _ h => ⟨(toInt_test v).symm, h⟩))
  | .printStmt e => by
      rw [Simulator.visit, Exact.exec]
      exact (evalExpr_lockstep e).andThen (fun v => .modify (fun _ _ h => h.print v))
  | .returnStmt _ => unit_lockstep

end

/-- So do the statements of a program. -/
theorem execProgram_lockstep (ss : List Statement) :
    ExecLockstep (Simulator.visitProgram ⟨.cpp, input⟩ fuel ss) (Exact.execProgram input fuel ss) := by
  induction ss with
  | nil => exact unit_lockstep
  | cons s ss ih => exact .bind (exec_lockstep s) (fun _ _ => ih)

/-- **The machine run and the exact run** end alike. -/
theorem run_alike (input : Nat → Number) (fuel : Nat) (p : Program) :
    Outcome.Alike (fun _ _ => Denotes) FaultsAlike (Simulator.run ⟨.cpp, input⟩ fuel p)
      (Exact.run input fuel p) :=
  execProgram_lockstep p.stmts .init .init ⟨fun _ => rfl, rfl, rfl⟩

end Visitors

/-! ## Defined arithmetic -/

/-- `print 1 / 0;` -/
def divisionByZero : Program where
  stmts := [.printStmt (.binaryOperator .div (.number 1) (.number 0))]

/-- The division is executed. -/
theorem divisionByZero_undefined : Accepted divisionByZero ∧ NodeKind.func ∉ divisionByZero.kinds ∧
    ¬ ∀ fuel e s, Simulator.run ⟨.cpp, fun _ => 0⟩ fuel divisionByZero = .fault e s → ¬ e.Arithmetic := by
  refine ⟨by decide, by decide, fun h => ?_⟩
  have hrun : Simulator.run ⟨.cpp, fun _ => 0⟩ 0 divisionByZero = .fault (.binary .div 1 0) .init := rfl
  exact h 0 _ _ hrun (by simp [Fault.Arithmetic])

/-- **No operation without a result** is executed, whatever the loops do, exactly when the exact run stays
    among the integers of an `int` and divides by no zero. -/
theorem arithmetic_defined_iff (p : Program) (input : Nat → Number) :
    (∀ fuel e s, Simulator.run ⟨.cpp, input⟩ fuel p = .fault e s → ¬ e.Arithmetic) ↔
      ∀ fuel e s, Exact.run input fuel p = .fault e s → ¬ e.Arithmetic := by
  constructor
  · intro h fuel e' t he harith
    have halike := run_alike input fuel p
    rw [he] at halike
    cases hr : Simulator.run ⟨.cpp, input⟩ fuel p with
    | done a s => rw [hr] at halike; cases halike
    | timeout s => rw [hr] at halike; cases halike
    | fault e s =>
        rw [hr] at halike
        cases halike with
        | fault hf =>
            rcases hf with ⟨hm, _⟩ | ⟨x, _, hx⟩
            · exact h fuel e s hr hm
            · exact harith x hx
  · intro h fuel e s he harith
    have halike := run_alike input fuel p
    rw [he] at halike
    cases hr : Exact.run input fuel p with
    | done a t => rw [hr] at halike; cases halike
    | timeout t => rw [hr] at halike; cases halike
    | fault e' t =>
        rw [hr] at halike
        cases halike with
        | fault hf =>
            rcases hf with ⟨_, hm⟩ | ⟨x, hx, _⟩
            · exact h fuel e' t hr hm
            · exact harith x hx

/-- `print 2147483646 + 1;` -/
def nearOverflow : Program where
  stmts := [.printStmt (.binaryOperator .add (.number 2147483646) (.number 1))]

/-- The sum is the largest `int`. -/
theorem arithmetic_defined_iff_nearOverflow :
    ¬ ∃ fuel e s, Simulator.run ⟨.cpp, fun _ => 0⟩ fuel nearOverflow = .fault e s ∧ e.Arithmetic := by
  have hexact : ∀ fuel e s, Exact.run (fun _ => 0) fuel nearOverflow = .fault e s → ¬ e.Arithmetic := by
    intro fuel e s h
    have hdone : Exact.run (fun _ => 0) fuel nearOverflow = .done () _ := rfl
    rw [hdone] at h
    cases h
  rintro ⟨fuel, e, s, hrun, harith⟩
  exact (arithmetic_defined_iff nearOverflow (fun _ => 0)).mpr hexact fuel e s hrun harith

end ParaCL
