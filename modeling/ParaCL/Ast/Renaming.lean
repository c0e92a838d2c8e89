import ParaCL.Ast.Node
import Mathlib.SetTheory.Cardinal.Arithmetic

/-!
# `Ast.Renaming` — the names of a tree, and other names for them

`Expression.uses` lists what a tree does with names, and where it reads input and prints, along the text.
`Expression.rename` gives every identifier of the tree another name. A renaming is only applied to the
identifiers of the program, so one that is injective on them may be taken to be injective everywhere
(`exists_injective`).
-/

namespace ParaCL

/-! ## Uses -/

/-- One use of a name, or of one of the two library functions. -/
inductive Use (α : Type) where
  | read (x : α)
  | bind (x : α)
  | enter (funcName : Option α)
  | leave
  | input
  | print
  deriving DecidableEq, Repr

namespace Use

variable {α β : Type}

def map (f : α → β) : Use α → Use β
  | .read x => .read (f x)
  | .bind x => .bind (f x)
  | .enter funcName => .enter (funcName.map f)
  | .leave => .leave
  | .input => .input
  | .print => .print

def names : Use α → List α
  | .read x => [x]
  | .bind x => [x]
  | .enter funcName => funcName.toList
  | .leave | .input | .print => []

theorem map_congr {u : Use α} {f f' : α → β} (h : ∀ x ∈ u.names, f x = f' x) : u.map f = u.map f' := by
  cases u with
  | read x => exact congrArg read (h x List.mem_cons_self)
  | bind x => exact congrArg bind (h x List.mem_cons_self)
  | enter name =>
      cases name with
      | none => rfl
      | some x => exact congrArg (fun y => enter (some y)) (h x List.mem_cons_self)
  | leave | input | print => rfl

end Use

mutual

/-- The uses of an expression: the value before the variable it is assigned to, the parameters of a function
    before its body. -/
def Expression.uses : Expression → List (Use Name)
  | .number _ => []
  | .var name => [.read name]
  | .assignmentExpr name value => value.uses ++ [.bind name]
  | .binaryOperator _ left right => left.uses ++ right.uses
  | .unaryOperator _ operand => operand.uses
  | .input => [.input]
  | .blockExpr stmts => usesOfStmts stmts
  | .func funcName params body => .enter funcName :: (params.map .bind ++ (body.uses ++ [.leave]))
  | .call target args => target.uses ++ usesOfArgs args

def Statement.uses : Statement → List (Use Name)
  | .emptyStmt => []
  | .exprStmt expr => expr.uses
  | .ifStmt condition thenBranch none => condition.uses ++ thenBranch.uses
  | .ifStmt condition thenBranch (some elseBranch) =>
      condition.uses ++ (thenBranch.uses ++ elseBranch.uses)
  | .whileStmt condition body => condition.uses ++ body.uses
  | .printStmt value => value.uses ++ [.print]
  | .returnStmt none => []
  | .returnStmt (some value) => value.uses

def usesOfStmts : List Statement → List (Use Name)
  | [] => []
  | s :: ss => s.uses ++ usesOfStmts ss

def usesOfArgs : List Expression → List (Use Name)
  | [] => []
  | e :: es => e.uses ++ usesOfArgs es

end

def Program.uses (p : Program) : List (Use Name) := usesOfStmts p.stmts

/-- The names in a list of uses. -/
def namesOfUses (us : List (Use Name)) : List Name := us.flatMap Use.names

theorem mem_namesOfUses_append {us vs : List (Use Name)} {x : Name} :
    x ∈ namesOfUses (us ++ vs) ↔ x ∈ namesOfUses us ∨ x ∈ namesOfUses vs := by
  simp only [namesOfUses, List.flatMap_append, List.mem_append]

/-- The identifiers of a program: its variables, parameters and function names. -/
def Program.identifiers (p : Program) : List Name := namesOfUses p.uses

/-! ## Renaming -/

mutual

/-- The tree with other names. -/
def Expression.rename (ρ : Name → Name) : Expression → Expression
  | .number value => .number value
  | .var name => .var (ρ name)
  | .assignmentExpr name value => .assignmentExpr (ρ name) (value.rename ρ)
  | .binaryOperator op left right => .binaryOperator op (left.rename ρ) (right.rename ρ)
  | .unaryOperator op operand => .unaryOperator op (operand.rename ρ)
  | .input => .input
  | .blockExpr stmts => .blockExpr (renameStmts ρ stmts)
  | .func funcName params body => .func (funcName.map ρ) (params.map ρ) (body.rename ρ)
  | .call target args => .call (target.rename ρ) (renameArgs ρ args)

def Statement.rename (ρ : Name → Name) : Statement → Statement
  | .emptyStmt => .emptyStmt
  | .exprStmt expr => .exprStmt (expr.rename ρ)
  | .ifStmt condition thenBranch none => .ifStmt (condition.rename ρ) (thenBranch.rename ρ) none
  | .ifStmt condition thenBranch (some elseBranch) =>
      .ifStmt (condition.rename ρ) (thenBranch.rename ρ) (some (elseBranch.rename ρ))
  | .whileStmt condition body => .whileStmt (condition.rename ρ) (body.rename ρ)
  | .printStmt value => .printStmt (value.rename ρ)
  | .returnStmt none => .returnStmt none
  | .returnStmt (some value) => .returnStmt (some (value.rename ρ))

def renameStmts (ρ : Name → Name) : List Statement → List Statement
  | [] => []
  | s :: ss => s.rename ρ :: renameStmts ρ ss

def renameArgs (ρ : Name → Name) : List Expression → List Expression
  | [] => []
  | e :: es => e.rename ρ :: renameArgs ρ es

end

def Program.rename (ρ : Name → Name) (p : Program) : Program := ⟨renameStmts ρ p.stmts⟩

/-! ## Only the identifiers matter -/

/-- The two renamings agree on the names in the list. -/
def AgreeOn (us : List (Use Name)) (ρ τ : Name → Name) : Prop := ∀ x ∈ namesOfUses us, ρ x = τ x

section Agree

variable {us vs : List (Use Name)} {u : Use Name} {ρ τ : Name → Name}

theorem AgreeOn.left (h : AgreeOn (us ++ vs) ρ τ) : AgreeOn us ρ τ :=
  fun x hx => h x (mem_namesOfUses_append.mpr (.inl hx))

theorem AgreeOn.right (h : AgreeOn (us ++ vs) ρ τ) : AgreeOn vs ρ τ :=
  fun x hx => h x (mem_namesOfUses_append.mpr (.inr hx))

theorem AgreeOn.use (h : AgreeOn us ρ τ) (hu : u ∈ us) : ∀ x ∈ u.names, ρ x = τ x :=
  fun x hx => h x (List.mem_flatMap.mpr ⟨u, hu, hx⟩)

theorem AgreeOn.params {xs : List Name} (h : AgreeOn (xs.map .bind) ρ τ) : xs.map ρ = xs.map τ :=
  List.map_congr_left (fun x hx => h.use (List.mem_map_of_mem hx) x List.mem_cons_self)

/-- The uses under both names. -/
theorem AgreeOn.pairs (h : AgreeOn us ρ τ) :
    us.map (Use.map (fun x => (x, ρ x))) = us.map (Use.map (fun x => (x, τ x))) :=
  List.map_congr_left (fun _ hu => Use.map_congr (fun x hx => congrArg (Prod.mk x) (h.use hu x hx)))

mutual

/-- Renamings that agree on the names of a tree rename it alike. -/
theorem Expression.rename_congr : ∀ e : Expression, AgreeOn e.uses ρ τ → e.rename ρ = e.rename τ
  | .number _, _ | .input, _ => rfl
  | .var x, h => congrArg Expression.var (h.use List.mem_cons_self x List.mem_cons_self)
  | .assignmentExpr x e, h => by
      have hx := h.right.use List.mem_cons_self x List.mem_cons_self
      simp only [Expression.rename, hx, e.rename_congr h.left]
  | .binaryOperator _ a b, h => by
      simp only [Expression.rename, a.rename_congr h.left, b.rename_congr h.right]
  | .unaryOperator _ e, h => by simp only [Expression.rename, e.rename_congr h]
  | .blockExpr ss, h => by simp only [Expression.rename, renameStmts_congr ss h]
  | .func f ps b, h => by
      have h : AgreeOn ([.enter f] ++ (ps.map .bind ++ (b.uses ++ [.leave]))) ρ τ := h
      have hf : f.map ρ = f.map τ := by
        cases f with
        | none => rfl
        | some x => exact congrArg some (h.left.use List.mem_cons_self x List.mem_cons_self)
      simp only [Expression.rename, hf, h.right.left.params, b.rename_congr h.right.right.left]
  | .call t es, h => by simp only [Expression.rename, t.rename_congr h.left, renameArgs_congr es h.right]

theorem Statement.rename_congr : ∀ s : Statement, AgreeOn s.uses ρ τ → s.rename ρ = s.rename τ
  | .emptyStmt, _ | .returnStmt none, _ => rfl
  | .exprStmt e, h | .returnStmt (some e), h => by simp only [Statement.rename, e.rename_congr h]
  | .ifStmt c t none, h => by simp only [Statement.rename, c.rename_congr h.left, t.rename_congr h.right]
  | .ifStmt c t (some e), h => by
      simp only [Statement.rename, c.rename_congr h.left, t.rename_congr h.right.left,
        e.rename_congr h.right.right]
  | .whileStmt c b, h => by simp only [Statement.rename, c.rename_congr h.left, b.rename_congr h.right]
  | .printStmt e, h => by simp only [Statement.rename, e.rename_congr h.left]

theorem renameStmts_congr :
    ∀ ss : List Statement, AgreeOn (usesOfStmts ss) ρ τ → renameStmts ρ ss = renameStmts τ ss
  | [], _ => rfl
  | s :: ss, h => by simp only [renameStmts, s.rename_congr h.left, renameStmts_congr ss h.right]

theorem renameArgs_congr :
    ∀ es : List Expression, AgreeOn (usesOfArgs es) ρ τ → renameArgs ρ es = renameArgs τ es
  | [], _ => rfl
  | e :: es, h => by simp only [renameArgs, e.rename_congr h.left, renameArgs_congr es h.right]

end

end Agree

/-- A renaming that is injective on the names of a list agrees there with one that is injective. -/
theorem exists_injective {us : List (Use Name)} {ρ : Name → Name}
    (h : Set.InjOn ρ {x | x ∈ namesOfUses us}) : ∃ τ : Name → Name, Function.Injective τ ∧ AgreeOn us ρ τ := by
  have hfin : {x | x ∈ namesOfUses us}.Finite := List.finite_toSet _
  -- there are infinitely many names, so those left over on either side can be matched
  have hlt : Cardinal.mk {x | x ∈ namesOfUses us} < Cardinal.mk Name :=
    (Cardinal.lt_aleph0_iff_set_finite.mpr hfin).trans_le (Cardinal.aleph0_le_mk Name)
  obtain ⟨τ, hτ⟩ := Cardinal.extend_function_of_lt ⟨_, h.injective⟩ hlt ⟨.refl Name⟩
  exact ⟨τ, τ.injective, fun x hx => (hτ ⟨x, hx⟩).symm⟩

end ParaCL
