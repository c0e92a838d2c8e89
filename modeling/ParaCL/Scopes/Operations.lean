import ParaCL.Parser.Scope
import ParaCL.Codegen.Builder
import ParaCL.Lib.ScopeTrace

/-!
# `Scopes.Operations` — the two scope tables as objects (`scope.hpp`, `scope_stack.hpp`)

`Scope` keeps names, `Scope_stack` a slot for each name; both are built with one scope and then see `push`,
`pop` and `add_variable` or `declare`. `Scope` answers with the name itself, so that for its callers the
empty answer means "not found", whatever has been added.
-/

namespace ParaCL

open Lib ScopeEvent

/-! ## `Scope`, with the answers it gives -/

namespace Scope

/-- The view that `lookup` returns: empty if no scope holds the name. -/
def lookupView (s : Scope) (varName : Name) : Name := (s.lookup varName).getD ""

/-- `find` on views. -/
def findView (s : Scope) (varName : Name) : Bool := s.lookupView varName != ""

/-- `add_variable` on views: a name is there already if the answer of `lookup` is not empty. -/
def addVariableView (s : Scope) (varName : Name) : Except String (Name × Scope) :=
  match s.scopes with
  | [] => .error "add_variable() called with empty scope stack"
  | table :: rest =>
      if s.lookupView varName != "" then .ok (s.lookupView varName, s)
      else .ok (varName, ⟨(varName :: table) :: rest⟩)

variable {s : Scope} {x : Name}

theorem lookupView_of_visible (h : Layers.Visible x s.scopes) : s.lookupView x = x := by
  rw [lookupView, lookup_of_visible h, Option.getD_some]

theorem lookupView_of_not_visible (h : ¬ Layers.Visible x s.scopes) : s.lookupView x = "" := by
  rw [lookupView, lookup_eq_none.mpr h, Option.getD_none]

theorem findView_iff (hx : x ≠ "") : s.findView x = true ↔ Layers.Visible x s.scopes := by
  by_cases hv : Layers.Visible x s.scopes
  · simp [findView, lookupView_of_visible hv, hx, hv]
  · simp [findView, lookupView_of_not_visible hv, hv]

/-- The empty name is never found. -/
theorem findView_empty : s.findView "" = false := by
  by_cases hv : Layers.Visible "" s.scopes
  · simp [findView, lookupView_of_visible hv]
  · simp [findView, lookupView_of_not_visible hv]

/-- For a name that is not empty the views say what `lookup` and `add_variable` of the parser say. -/
theorem addVariableView_eq (hx : x ≠ "") : s.addVariableView x = s.addVariable x := by
  obtain ⟨scopes⟩ := s
  cases scopes with
  | nil => rfl
  | cons table rest =>
      unfold addVariableView addVariable
      by_cases hv : Layers.Visible x (table :: rest)
      · simp [lookupView_of_visible hv, lookup_of_visible hv, hx]
      · simp [lookupView_of_not_visible hv, lookup_eq_none.mpr hv]

end Scope

/-! ## `Scope_stack` -/

/-- `Scope_stack`, innermost scope first. A slot is a pointer, `none` the null pointer; an entry may hold
    one. -/
structure ScopeStack (α : Type) where
  scopes : Tables Name (Option α)

namespace ScopeStack

variable {α : Type}

/-- The constructor pushes the global scope. -/
def init : ScopeStack α := ⟨[[]]⟩

def push (s : ScopeStack α) : ScopeStack α := ⟨[] :: s.scopes⟩

def pop (s : ScopeStack α) : Except String (ScopeStack α) :=
  match s.scopes with
  | [] => .error "pop() called with empty scope stack"
  | _ :: rest => .ok ⟨rest⟩

/-- The entry of the innermost scope that has one; the null pointer also stands for none. -/
def lookup (s : ScopeStack α) (varName : Name) : Option α := (Tables.lookup s.scopes varName).join

def find (s : ScopeStack α) (varName : Name) : Bool := (s.lookup varName).isSome

def declare (s : ScopeStack α) (varName : Name) (alloca : Option α) : Except String (ScopeStack α) :=
  if s.scopes = [] then .error "add_variable() called with empty scope stack"
  else if s.find varName then .error "variable already declared in this scope"
  else .ok ⟨Tables.put varName alloca s.scopes⟩

/-! ### The tables of the generator -/

/-- Tables none of whose slots is null, as the object keeps them. -/
def ofTables (Γ : Tables Name α) : ScopeStack α := ⟨Γ.map (List.map (Prod.map id some))⟩

theorem lookup_ofTables {Γ : Tables Name α} {x : Name} : (ofTables Γ).lookup x = Tables.lookup Γ x := by
  induction Γ with
  | nil => rfl
  | cons l ls ih =>
      have hl : (l.map (Prod.map id some)).lookup x = (l.lookup x).map some := by
        induction l with
        | nil => rfl
        | cons p l ih =>
            obtain ⟨y, b⟩ := p
            rw [List.map_cons, Prod.map_apply, List.lookup_cons, List.lookup_cons, ih, id]
            cases x == y <;> rfl
      rw [lookup, ofTables] at ih ⊢
      rw [List.map_cons, Tables.lookup, Tables.lookup, hl]
      cases l.lookup x with
      | none => exact ih
      | some a => rfl

theorem put_ofTables {Γ : Tables Name α} {x : Name} {a : α} :
    ⟨Tables.put x (some a) (ofTables Γ).scopes⟩ = ofTables (Tables.put x a Γ) := by
  cases Γ <;> rfl

/-- The generator's `scope_stack_.declare` is this one, called with an alloca it has created; when it throws,
    nothing has changed. -/
theorem declare_generator (x : Name) (a : AllocaInst) (g : CodeGenerator) :
    (∃ g', g.declare x a = .ok g' ∧ (ofTables g.scopeStack).declare x (some a) = .ok (ofTables g'.scopeStack)) ∨
      (∃ t, g.declare x a = .error t ∧
        (ofTables g.scopeStack).declare x (some a) = .error t.error.message ∧ t.state = g) := by
  have hfind : (ofTables g.scopeStack).find x = (g.lookup x).isSome := by
    rw [find, lookup_ofTables]
    rfl
  by_cases hne : g.scopeStack = []
  · refine .inr ⟨_, by rw [CodeGenerator.declare, if_pos hne], ?_, rfl⟩
    rw [declare, ofTables, if_pos (by rw [hne]; rfl)]
    rfl
  · have hne' : (ofTables g.scopeStack).scopes ≠ [] := by simpa [ofTables] using hne
    cases hl : g.lookup x with
    | some b =>
        refine .inr ⟨_, CodeGenerator.declare_clash hne (by rw [hl]; rfl), ?_, rfl⟩
        rw [declare, if_neg hne', if_pos (by rw [hfind, hl]; rfl)]
        rfl
    | none =>
        refine .inl ⟨_, CodeGenerator.declare_ok hne hl, ?_⟩
        rw [declare, if_neg hne', if_neg (by rw [hfind, hl]; exact Bool.false_ne_true), put_ofTables]

end ScopeStack

/-! ## Sequences of operations -/

/-- A call on one of the tables; `add` is `add_variable` or `declare`. -/
inductive ScopeOp (α : Type) where
  | push
  | pop
  | add (varName : Name) (slot : α)
  deriving DecidableEq

/-- What the call does to the scopes that are open. -/
def ScopeOp.event {α : Type} : ScopeOp α → ScopeEvent Name
  | .push => opens
  | .pop => closes
  | .add x _ => binds x

/-- The calls so far have not popped the scope they started in. -/
abbrev OpsKeep {α : Type} (t : List (ScopeOp α)) : Prop := Keeps (t.map ScopeOp.event)

/-- The calls pop what they push. -/
abbrev OpsBalanced {α : Type} (t : List (ScopeOp α)) : Prop := WellNested (t.map ScopeOp.event)

/-- The call adds no empty name. -/
def ScopeOp.named {α : Type} : ScopeOp α → Prop
  | .add x _ => x ≠ ""
  | _ => True

/-- The call declares no null pointer. -/
def ScopeOp.allocated {α : Type} : ScopeOp (Option α) → Prop
  | .add _ a => a ≠ none
  | _ => True

def Scope.exec (s : Scope) : ScopeOp Unit → Except String Scope
  | .push => .ok s.push
  | .pop => s.pop
  | .add x _ => (s.addVariableView x).map Prod.snd

def Scope.run (s : Scope) (t : List (ScopeOp Unit)) : Except String Scope := t.foldlM Scope.exec s

namespace ScopeStack

variable {α : Type}

def exec (s : ScopeStack α) : ScopeOp (Option α) → Except String (ScopeStack α)
  | .push => .ok s.push
  | .pop => s.pop
  | .add x a => s.declare x a

/-- The object after a call: a call that throws has not touched it. -/
def step (s : ScopeStack α) (op : ScopeOp (Option α)) : ScopeStack α := (s.exec op).toOption.getD s

/-- The object after a sequence of calls whose exceptions are caught. -/
def run (s : ScopeStack α) (t : List (ScopeOp (Option α))) : ScopeStack α := t.foldl step s

end ScopeStack

end ParaCL
