import ParaCL.Ast.Node
import ParaCL.Lib.Layers

/-!
# `Parser.Scope` — the parser's scope stack (`scope.hpp`)

`scopes_` is a vector of name sets; the innermost one comes first here. The empty `string_view` that
`lookup` returns for a name it does not find is `none` (no identifier is empty). `pop` and
`add_variable` throw on an empty stack. `archived_` only keeps popped sets alive for the views into
them and is left out.
-/

namespace ParaCL

open Lib

/-- `Scope`. -/
structure Scope where
  scopes : Layers Name

namespace Scope

/-- The constructor pushes the global scope. -/
def init : Scope := ⟨[[]]⟩

def push (s : Scope) (nametable : List Name := []) : Scope := ⟨nametable :: s.scopes⟩

def pop (s : Scope) : Except String Scope :=
  match s.scopes with
  | [] => .error "pop() called with empty scope stack"
  | _ :: rest => .ok ⟨rest⟩

def lookup (s : Scope) (varName : Name) : Option Name :=
  s.scopes.findSome? (fun table => table.find? (· = varName))

def find (s : Scope) (varName : Name) : Bool := (s.lookup varName).isSome

/-- A name that some open scope holds is not declared again. -/
def addVariable (s : Scope) (varName : Name) : Except String (Name × Scope) :=
  match s.scopes with
  | [] => .error "add_variable() called with empty scope stack"
  | table :: rest =>
      match s.lookup varName with
      | some existing => .ok (existing, s)
      | none => .ok (varName, ⟨(varName :: table) :: rest⟩)

/-! ## What the operations do to the layers -/

variable {s : Scope} {x y : Name}

theorem lookup_eq_some : s.lookup x = some y ↔ y = x ∧ Layers.Visible x s.scopes := by
  constructor
  · intro h
    obtain ⟨l, hl, hf⟩ := List.exists_of_findSome?_eq_some h
    have hyx : y = x := by simpa using List.find?_some hf
    exact ⟨hyx, l, hl, hyx ▸ List.mem_of_find?_eq_some hf⟩
  · rintro ⟨rfl, l, hl, hy⟩
    have hsome : (s.lookup y).isSome := by
      refine List.findSome?_isSome_iff.mpr ⟨l, hl, ?_⟩
      exact List.find?_isSome.mpr ⟨y, hy, by simp⟩
    obtain ⟨z, hz⟩ := Option.isSome_iff_exists.mp hsome
    obtain ⟨l', _, hf⟩ := List.exists_of_findSome?_eq_some hz
    have hzy : z = y := by simpa using List.find?_some hf
    exact hzy ▸ hz

theorem lookup_of_visible (h : Layers.Visible x s.scopes) : s.lookup x = some x :=
  lookup_eq_some.mpr ⟨rfl, h⟩

theorem lookup_eq_none : s.lookup x = none ↔ ¬ Layers.Visible x s.scopes := by
  constructor
  · intro h hv; rw [lookup_of_visible hv] at h; cases h
  · intro h
    cases hl : s.lookup x with
    | none => rfl
    | some y => exact absurd (lookup_eq_some.mp hl).2 h

/-- `add_variable` is `Layers.declare`, and hands back the name it was given. -/
theorem addVariable_ok (h : s.scopes ≠ []) :
    s.addVariable x = .ok (x, ⟨Layers.declare x s.scopes⟩) := by
  obtain ⟨scopes⟩ := s
  cases scopes with
  | nil => exact absurd rfl h
  | cons table rest =>
      unfold addVariable
      by_cases hv : Layers.Visible x (table :: rest)
      · rw [lookup_of_visible hv, Layers.declare_of_visible hv]
      · rw [lookup_eq_none.mpr hv, Layers.declare_cons_of_not_visible hv]

end Scope

end ParaCL
