import ParaCL.Language.Semantics
import ParaCL.Codegen.Generator

/-!
# `Language.Kinds` — programs in which every name has one kind

The language has no types, but the code of `codegen.cpp` has: a slot keeps the type of the first value assigned
to it, and parameters and results are integers. `Kinded` is the discipline under which that does no harm: a
variable holds integers or functions of one arity throughout, functions with a name are told apart from
variables, and what is used as a value comes to one. Programs outside of it are accepted too, and their modules
may do something else than they say.
-/

namespace ParaCL

namespace Language

/-- Integers, or functions with so many parameters. -/
inductive Kind where
  | number
  | function (arity : Nat)
  deriving DecidableEq, Repr

/-- What an expression comes to: a value, nothing that is one, or it never comes to its end. -/
inductive Effect where
  | value (k : Kind)
  | nothing
  | never
  deriving DecidableEq, Repr

/-- The kinds of the variables, and the functions with a name. -/
structure Signature where
  vars : Name → Kind
  functions : Name → Option (List Name × Expression)

/-- A name that functions without one are entered under. -/
def Anonymous (x : Name) : Prop := ∃ k : Nat, x = "func_" ++ toString k

/-- The name of a variable, none that the generator or a function has. -/
structure Signature.Variable (σ : Signature) (x : Name) : Prop where
  notInput : x ≠ inputVar
  notFunction : σ.functions x = none
  notAnonymous : ¬ Anonymous x

/-- A name that a function may have: it stands for this function only, and the generator does not use it. -/
structure Signature.Names (σ : Signature) (f : Name) (ps : List Name) (body : Expression) : Prop where
  stands : σ.functions f = some (ps, body)
  notInput : f ≠ inputVar
  notAnonymous : ¬ Anonymous f
  notPrintf : f ≠ "printf"
  notScanf : f ≠ "scanf"

def Kind.ty : Kind → Ty
  | .number => .i32
  | .function _ => .ptr

/-- The type of the slot of a name. -/
def Signature.slotTy (σ : Signature) (x : Name) : Ty := if x = inputVar then .i32 else (σ.vars x).ty

def Datum.Is : Datum → Kind → Prop
  | .int _, .number => True
  | .code ps _, .function n => ps.length = n
  | _, _ => False

variable (σ : Signature)

mutual

inductive Kinded : Expression → Effect → Prop where
  | number {n : Number} : Kinded (.number n) (.value .number)
  | input : Kinded .input (.value .number)
  | var {x : Name} (hx : σ.Variable x) : Kinded (.var x) (.value (σ.vars x))
  | name {f : Name} {ps : List Name} {body : Expression} (hf : σ.Names f ps body) :
      Kinded (.var f) (.value (.function ps.length))
  | assignment {x : Name} {e : Expression} (hx : σ.Variable x) (he : Kinded e (.value (σ.vars x))) :
      Kinded (.assignmentExpr x e) (.value (σ.vars x))
  | binary {op : BinaryOperators} {a b : Expression} (ha : Kinded a (.value .number))
      (hb : Kinded b (.value .number)) : Kinded (.binaryOperator op a b) (.value .number)
  | unary {op : UnaryOperators} {e : Expression} (he : Kinded e (.value .number)) :
      Kinded (.unaryOperator op e) (.value .number)
  | block {ss : List Statement} {o : Effect} (hss : KindedStmts ss .nothing o) : Kinded (.blockExpr ss) o
  | func {name : Option Name} {ps : List Name} {body : Expression} {o : Effect}
      (hps : ∀ x ∈ ps, σ.Variable x ∧ σ.vars x = .number) (hname : ∀ f ∈ name, σ.Names f ps body)
      (hbody : Kinded body o) (ho : o = .value .number ∨ o = .never) :
      Kinded (.func name ps body) (.value (.function ps.length))
  | call {t : Expression} {es : List Expression} (ht : Kinded t (.value (.function es.length)))
      (hes : KindedArgs es) : Kinded (.call t es) (.value .number)

/-- A statement in a block that has come to the first effect so far. -/
inductive KindedStmt : Statement → Effect → Effect → Prop where
  | empty {o : Effect} : KindedStmt .emptyStmt o o
  | expr {e : Expression} {acc o : Effect} (he : Kinded e o) : KindedStmt (.exprStmt e) acc o
  | ifThen {c t : Expression} {acc o : Effect} (hc : Kinded c (.value .number)) (ht : Kinded t o) :
      KindedStmt (.ifStmt c t none) acc .nothing
  | ifElse {c t e : Expression} {acc o o' : Effect} (hc : Kinded c (.value .number)) (ht : Kinded t o)
      (he : Kinded e o') : KindedStmt (.ifStmt c t (some e)) acc .nothing
  | ifNever {c t e : Expression} {acc : Effect} (hc : Kinded c (.value .number)) (ht : Kinded t .never)
      (he : Kinded e .never) : KindedStmt (.ifStmt c t (some e)) acc .never
  | whileLoop {c b : Expression} {acc o : Effect} (hc : Kinded c (.value .number)) (hb : Kinded b o) :
      KindedStmt (.whileStmt c b) acc .nothing
  | print {e : Expression} {acc : Effect} (he : Kinded e (.value .number)) :
      KindedStmt (.printStmt e) acc .nothing
  | returnNone {acc : Effect} : KindedStmt (.returnStmt none) acc .never
  | returnSome {e : Expression} {acc : Effect} (he : Kinded e (.value .number)) :
      KindedStmt (.returnStmt (some e)) acc .never

inductive KindedStmts : List Statement → Effect → Effect → Prop where
  | nil {o : Effect} : KindedStmts [] o o
  | cons {s : Statement} {ss : List Statement} {acc o o' : Effect} (hs : KindedStmt s acc o)
      (hss : KindedStmts ss o o') : KindedStmts (s :: ss) acc o'

/-- Arguments are integers. -/
inductive KindedArgs : List Expression → Prop where
  | nil : KindedArgs []
  | cons {e : Expression} {es : List Expression} (he : Kinded e (.value .number)) (hes : KindedArgs es) :
      KindedArgs (e :: es)

end

variable {σ}

theorem not_anonymous {x : Name} (h : ¬ "func_".toList <+: x.toList) : ¬ Anonymous x := by
  rintro ⟨k, rfl⟩
  rw [String.toList_append] at h
  exact h (List.prefix_append _ _)

theorem Kinded.variable {x : Name} {k : Kind} (hx : σ.Variable x) (hk : σ.vars x = k) :
    Kinded σ (.var x) (.value k) := hk ▸ .var hx

theorem Kinded.assign {x : Name} {e : Expression} {k : Kind} (hx : σ.Variable x) (hk : σ.vars x = k)
    (he : Kinded σ e (.value k)) : Kinded σ (.assignmentExpr x e) (.value k) := by
  subst hk
  exact .assignment hx he

theorem Signature.Variable.slotTy {x : Name} (h : σ.Variable x) : σ.slotTy x = (σ.vars x).ty :=
  if_neg h.notInput

theorem Signature.Names.not_variable {f : Name} {ps : List Name} {body : Expression} (h : σ.Names f ps body) :
    ¬ σ.Variable f := fun hv => by
  have hno := hv.notFunction
  rw [h.stands] at hno
  cases hno

theorem Datum.is_number {v : Datum} (h : v.Is .number) : ∃ n, v = .int n := by
  cases v with
  | int n => exact ⟨n, rfl⟩
  | code ps body => exact h.elim

theorem Datum.is_function {v : Datum} {n : Nat} (h : v.Is (.function n)) :
    ∃ ps body, v = .code ps body ∧ ps.length = n := by
  cases v with
  | int n => exact h.elim
  | code ps body => exact ⟨ps, body, rfl, h⟩

end Language

/-- The program is well kinded, for some kinds of its variables:

    * a variable holds integers throughout, or functions of one arity, and what is assigned to it has this kind;
    * a parameter is an integer, and so are operands, conditions, arguments, printed and returned values;
    * what is called is a function with as many parameters as there are arguments;
    * a function with a name is the only one of that name, which is no variable, not the slot of the input, not
      `printf` or `scanf`, and no name has the form of those that functions without one are entered under;
    * a block used as a value has an expression last, empty statements apart, and the body of a function ends in
      an integer in this way, or in a `return`, or in an `if` of whose branches neither comes to its end.

    So the text of `f = func() { print 1; };` is not well kinded, nor is `x = {5; print 6;};`. -/
def Program.WellKinded (p : Program) : Prop :=
  ∃ vars o, Language.KindedStmts ⟨vars, p.function⟩ p.stmts .nothing o

end ParaCL
