import ParaCL.Parser.Check
import ParaCL.Codegen.Generator

/-!
# `Codegen.Events` — what a program asks of the generator's name tables

The generator's visitors touch `scope_stack_` and `functions_` in four ways: they read a name, take the slot
of a name (making it if there is none), enter a function and leave one. `events` lists these along the text,
and `NameView` is what they see: the names of the slots in scope and the names of the functions. The
visitors change the view exactly as the events say (`visit_names`), whatever they emit.
-/

namespace ParaCL

open Lib

/-- One use of the name tables. -/
inductive Event where
  | read (x : Name)
  | slot (x : Name)
  | enter (funcName : Option Name) (params : List Name)
  | leave
  deriving DecidableEq, Repr

mutual

/-- The events of an expression, in the order of the visitors. -/
def Expression.events : Expression → List Event
  | .number _ => []
  | .var name => [.read name]
  | .assignmentExpr name value => value.events ++ [.slot name]
  | .binaryOperator _ left right => left.events ++ right.events
  | .unaryOperator _ operand => operand.events
  | .input => [.slot inputVar]
  | .blockExpr stmts => eventsOfStmts stmts
  | .func funcName params body => .enter funcName params :: (body.events ++ [.leave])
  | .call target args => target.events ++ eventsOfArgs args

/-- The events of a statement, in the order in which it is visited. -/
def Statement.events : Statement → List Event
  | .emptyStmt => []
  | .exprStmt expr => expr.events
  | .ifStmt condition thenBranch none => condition.events ++ thenBranch.events
  | .ifStmt condition thenBranch (some elseBranch) =>
      condition.events ++ (thenBranch.events ++ elseBranch.events)
  | .whileStmt condition body => condition.events ++ body.events
  | .printStmt value => value.events
  | .returnStmt none => []
  | .returnStmt (some value) => value.events

/-- Statements one after the other. -/
def eventsOfStmts : List Statement → List Event
  | [] => []
  | s :: ss => s.events ++ eventsOfStmts ss

/-- Arguments one after the other. -/
def eventsOfArgs : List Expression → List Event
  | [] => []
  | e :: es => e.events ++ eventsOfArgs es

end

/-- The events of a program: its functions' bodies stand where they are written. -/
def Program.events (p : Program) : List Event := eventsOfStmts p.stmts

/-! ## The view of the names -/

/-- The names of the slots, scope by scope, which names are functions, and `func_counter_`. -/
structure NameView where
  scopes : Layers Name
  isFunction : Name → Bool
  funcCounter : Nat

namespace NameView

/-- The view of `main` before its first statement. -/
def init : NameView := ⟨[[]], fun _ => false, 0⟩

/-- Declaring a parameter refuses a name that any scope holds. -/
def declareParams : List Name → NameView → Except GenError NameView
  | [], v => .ok v
  | x :: xs, v =>
      if Layers.Visible x v.scopes then .error (.alreadyDeclared x)
      else declareParams xs { v with scopes := Layers.declare x v.scopes }

/-- The name a function literal is given: its own, or the next number. -/
def functionName (name : Option Name) (v : NameView) : Name × NameView :=
  match name with
  | some x => (x, v)
  | none => ("func_" ++ toString v.funcCounter, { v with funcCounter := v.funcCounter + 1 })

/-- A function enters its name and opens a scope. -/
def enter (name : Option Name) (v : NameView) : NameView :=
  let (x, v) := v.functionName name
  { v with isFunction := Function.update v.isFunction x true, scopes := [] :: v.scopes }

/-- What an event does to the view. -/
def step (v : NameView) : Event → Except GenError NameView
  | .read x =>
      if Layers.Visible x v.scopes ∨ v.isFunction x then .ok v else .error (.undeclaredVariable x)
  | .slot x => .ok { v with scopes := Layers.declare x v.scopes }
  | .enter name params => (v.enter name).declareParams params
  | .leave => .ok { v with scopes := v.scopes.tail }

/-- The events of a text, up to the first that throws. -/
def run : List Event → NameView → Except GenError NameView
  | [], v => .ok v
  | e :: es, v => v.step e >>= run es

/-- A read goes through exactly where the name has a slot in scope or is a function. -/
theorem step_read {v w : NameView} {x : Name} :
    v.step (.read x) = .ok w ↔ (Layers.Visible x v.scopes ∨ v.isFunction x) ∧ v = w := by
  by_cases h : Layers.Visible x v.scopes ∨ v.isFunction x
  · simp [step, h]
  · simp [step, h]

theorem run_singleton (e : Event) (v : NameView) : run [e] v = v.step e := by
  rw [run]
  cases v.step e <;> rfl

/-- A text in two parts. -/
theorem run_append (es fs : List Event) (v : NameView) :
    run (es ++ fs) v = run es v >>= run fs := by
  induction es generalizing v with
  | nil => rfl
  | cons e es ih =>
      rw [List.cons_append, run, run]
      cases v.step e with
      | error err => rfl
      | ok v' => exact ih v'

end NameView

namespace NameView

/-! ## Runs that throw -/

/-- A parameter list is declared exactly if its names are new and different. -/
theorem declareParams_ok_iff {ps : List Name} {v : NameView} (hne : v.scopes ≠ []) :
    (∃ w, v.declareParams ps = .ok w) ↔ ps.Nodup ∧ ∀ x ∈ ps, ¬ Layers.Visible x v.scopes := by
  induction ps generalizing v with
  | nil => simp [declareParams]
  | cons x ps ih =>
      unfold declareParams
      by_cases hv : Layers.Visible x v.scopes
      · simp [hv]
      · have hvis : ∀ y, Layers.Visible y (Layers.declare x v.scopes) ↔ y = x ∨ Layers.Visible y v.scopes :=
          fun y => Layers.visible_declare hne
        rw [if_neg hv, ih (Layers.declare_ne_nil hne), List.nodup_cons]
        simp only [hvis, List.forall_mem_cons, not_or]
        constructor
        · rintro ⟨hnd, hall⟩
          exact ⟨⟨fun hx => (hall x hx).1 rfl, hnd⟩, hv, fun y hy => (hall y hy).2⟩
        · rintro ⟨⟨hx, hnd⟩, _, hall⟩
          exact ⟨hnd, fun y hy => ⟨fun he => hx (he ▸ hy), hall y hy⟩⟩

/-- A run that throws does so at one event, and runs up to it. -/
theorem run_error {es : List Event} {v : NameView} {e : GenError} (h : run es v = .error e) :
    ∃ a ev b u, es = a ++ ev :: b ∧ run a v = .ok u ∧ u.step ev = .error e := by
  induction es generalizing v with
  | nil => cases h
  | cons ev es ih =>
      rw [run] at h
      cases hs : v.step ev with
      | error e' =>
          rw [hs] at h
          cases h
          exact ⟨[], ev, es, v, rfl, rfl, hs⟩
      | ok w =>
          rw [hs] at h
          obtain ⟨a, ev', b, u, rfl, hr, hu⟩ := ih h
          refine ⟨ev :: a, ev', b, u, rfl, ?_, hu⟩
          rw [run, hs]
          exact hr

end NameView

/-! ## Slots in scope

Along a run that throws nothing, the scopes depend on the events alone. -/

/-- The scopes after an event. -/
def liveAfter (Γ : Layers Name) : Event → Layers Name
  | .read _ => Γ
  | .slot x => Layers.declare x Γ
  | .enter _ params => params.foldl (fun Γ x => Layers.declare x Γ) ([] :: Γ)
  | .leave => Γ.tail

/-- The slots in scope after some events of a program: what has been assigned to or read by `?`, and the
    parameters, in `main` and in the functions that have not been left. Blocks do not count. -/
def live (es : List Event) : Layers Name := es.foldl liveAfter [[]]

/-- The slots in scope after one more event. -/
theorem live_append_singleton (es : List Event) (e : Event) :
    live (es ++ [e]) = liveAfter (live es) e := by
  simp [live]

namespace NameView

/-- Parameters go into the innermost scope, in order. -/
theorem declareParams_scopes {ps : List Name} {v w : NameView} (h : v.declareParams ps = .ok w) :
    w.scopes = ps.foldl (fun Γ x => Layers.declare x Γ) v.scopes := by
  induction ps generalizing v with
  | nil => cases h; rfl
  | cons x ps ih =>
      unfold declareParams at h
      split at h
      · cases h
      · exact ih h

/-- **One event does to the scopes what its text says.** -/
theorem step_scopes {e : Event} {v w : NameView} (h : v.step e = .ok w) :
    w.scopes = liveAfter v.scopes e := by
  cases e with
  | read x => obtain ⟨_, rfl⟩ := step_read.mp h; rfl
  | slot x => cases h; rfl
  | enter name ps =>
      rw [declareParams_scopes h]
      cases name <;> rfl
  | leave => cases h; rfl

/-- So do all of them. -/
theorem run_scopes {es : List Event} {v w : NameView} (h : run es v = .ok w) :
    w.scopes = es.foldl liveAfter v.scopes := by
  induction es generalizing v with
  | nil => cases h; rfl
  | cons e es ih =>
      obtain ⟨u, hs, hr⟩ := bind_ok_iff.mp h
      rw [ih hr, List.foldl_cons, step_scopes hs]

end NameView

/-! ## Balanced events -/

/-- Every function entered is left. -/
inductive Balanced : List Event → Prop where
  | nil : Balanced []
  | read (x : Name) : Balanced [.read x]
  | slot (x : Name) : Balanced [.slot x]
  | append {es fs : List Event} : Balanced es → Balanced fs → Balanced (es ++ fs)
  | func (name : Option Name) (params : List Name) {es : List Event} :
      Balanced es → Balanced (.enter name params :: (es ++ [.leave]))

mutual

/-- Every function that is entered in a text is left in it. -/
theorem Expression.balanced : ∀ e : Expression, Balanced e.events
  | .number _ => .nil
  | .var x => .read x
  | .assignmentExpr x e => .append e.balanced (.slot x)
  | .binaryOperator _ a b => .append a.balanced b.balanced
  | .unaryOperator _ e => e.balanced
  | .input => .slot inputVar
  | .blockExpr ss => balanced_stmts ss
  | .func f ps body => .func f ps body.balanced
  | .call t es => .append t.balanced (balanced_args es)

/-- So it is in a statement. -/
theorem Statement.balanced : ∀ s : Statement, Balanced s.events
  | .emptyStmt => .nil
  | .exprStmt e => e.balanced
  | .ifStmt c t none => .append c.balanced t.balanced
  | .ifStmt c t (some e) => .append c.balanced (.append t.balanced e.balanced)
  | .whileStmt c b => .append c.balanced b.balanced
  | .printStmt e => e.balanced
  | .returnStmt none => .nil
  | .returnStmt (some e) => e.balanced

theorem balanced_stmts : ∀ ss : List Statement, Balanced (eventsOfStmts ss)
  | [] => .nil
  | s :: ss => .append s.balanced (balanced_stmts ss)

theorem balanced_args : ∀ es : List Expression, Balanced (eventsOfArgs es)
  | [] => .nil
  | e :: es => .append e.balanced (balanced_args es)

end

namespace NameView

/-- What a balanced stretch of events may change: the innermost scope grows, and so do the functions. -/
structure Grows (v w : NameView) : Prop where
  scopes : v.scopes.Grows w.scopes
  functions : ∀ x, v.isFunction x → w.isFunction x

theorem Grows.refl {v : NameView} (h : v.scopes ≠ []) : Grows v v := ⟨.refl h, fun _ => id⟩

/-- Scopes that have grown twice have grown. -/
theorem Grows.trans {u v w : NameView} (h1 : Grows u v) (h2 : Grows v w) : Grows u w :=
  ⟨h1.scopes.trans h2.scopes, fun x hx => h2.functions x (h1.functions x hx)⟩

/-- A function is entered with an empty scope. -/
theorem enter_scopes (name : Option Name) (v : NameView) :
    (v.enter name).scopes = [] :: v.scopes := by
  cases name <;> rfl

/-- No name stops being a function. -/
theorem enter_functions {name : Option Name} {v : NameView} {x : Name} (h : v.isFunction x) :
    (v.enter name).isFunction x := by
  cases name <;> simp [enter, functionName, Function.update, h]

/-- The function itself can be named in its body. -/
theorem enter_name {x : Name} {v : NameView} : (v.enter (some x)).isFunction x := by
  simp [enter, functionName]

/-- Parameters only add to the innermost scope. -/
theorem declareParams_grows {ps : List Name} {v w : NameView} (hne : v.scopes ≠ [])
    (h : declareParams ps v = .ok w) : Grows v w := by
  induction ps generalizing v with
  | nil => cases h; exact .refl hne
  | cons x ps ih =>
      unfold declareParams at h
      split at h
      · cases h
      · have hg : Grows v { v with scopes := Layers.declare x v.scopes } :=
          ⟨Layers.grows_declare hne, fun _ => id⟩
        exact hg.trans (ih hg.scopes.ne_nil h)

/-- **A balanced stretch keeps the outer scopes.** -/
theorem run_grows {es : List Event} (hb : Balanced es) {v w : NameView} (hne : v.scopes ≠ [])
    (h : run es v = .ok w) : Grows v w := by
  induction hb generalizing v w with
  | nil => cases h; exact .refl hne
  | read x =>
      obtain ⟨v', hs, hr⟩ := bind_ok_iff.mp h
      obtain ⟨_, rfl⟩ := step_read.mp hs
      cases hr
      exact .refl hne
  | slot x => cases h; exact ⟨Layers.grows_declare hne, fun _ => id⟩
  | append _ _ ih1 ih2 =>
      rw [run_append] at h
      obtain ⟨u, h1, h2⟩ := bind_ok_iff.mp h
      have hg := ih1 hne h1
      exact hg.trans (ih2 hg.scopes.ne_nil h2)
  -- what the function declares goes with its scope; the function names stay
  | @func name ps es _ ih =>
      obtain ⟨v1, h1, h2⟩ := bind_ok_iff.mp h
      rw [run_append] at h2
      obtain ⟨v2, h2', h3⟩ := bind_ok_iff.mp h2
      cases h3
      have hne0 : (v.enter name).scopes ≠ [] := by rw [enter_scopes]; exact List.cons_ne_nil _ _
      have hg1 := declareParams_grows hne0 h1
      have hg2 := ih hg1.scopes.ne_nil h2'
      have htail : v2.scopes.tail = v.scopes := by
        rw [hg2.scopes.tail, hg1.scopes.tail, enter_scopes]
        rfl
      refine ⟨?_, fun x hx => hg2.functions x (hg1.functions x (enter_functions hx))⟩
      rw [htail]
      exact .refl hne

end NameView

namespace CodeGenerator

/-- What the generator's tables hold of names. -/
def names (g : CodeGenerator) : NameView where
  scopes := Tables.keys g.scopeStack
  isFunction x := (g.functionTable x).isSome
  funcCounter := g.funcCounter

end CodeGenerator

/-! ## The visitors follow the events -/

/-- The names after a visit, or the exception alone. -/
def namesOf (r : Except Thrown CodeGenerator) : Except GenError NameView :=
  match r with
  | .ok g => .ok g.names
  | .error t => .error t.error

/-- What a visitor that goes through does to the names. -/
theorem namesOf_ok {r : Except Thrown CodeGenerator} {g : CodeGenerator} (h : r = .ok g) :
    namesOf r = .ok g.names := by rw [h]; rfl

/-- Two visitors in a row: the second one may use what the first one reached. -/
theorem namesOf_bind {r : Except Thrown CodeGenerator}
    {f : CodeGenerator → Except Thrown CodeGenerator} {o : Except GenError NameView}
    {h : NameView → Except GenError NameView} (hr : namesOf r = o)
    (hf : ∀ g, r = .ok g → namesOf (f g) = h g.names) : namesOf (r >>= f) = o >>= h := by
  subst hr
  cases r with
  | ok g => exact hf g rfl
  | error t => rfl

section Follow

variable {M : Llvm} {L : Lowering}

namespace CodeGenerator

/-- `IRBuilder` does not know of names. -/
theorem emit_names {α : Type} (m : Emit α) (g : CodeGenerator) : (emit M m g).2.names = g.names := by
  induction m generalizing g with
  | pure a => rfl
  | create opcode args next ih =>
      rw [emit]
      cases foldValue M opcode args with
      | some c => exact ih (.const c) g
      | none => rw [ih]; rfl

theorem emitLast_names (m : Emit Value) (g : CodeGenerator) : (emitLast M m g).names = g.names :=
  emit_names m g

theorem condition_names (g : CodeGenerator) : (condition M g).2.names = g.names := emit_names _ g

theorem closeBranch_names (b next : Nat) (g : CodeGenerator) :
    (g.closeBranch b next).names = g.names := by
  unfold closeBranch branchUnlessTerminated
  split <;> rfl

theorem openIf_names (g : CodeGenerator) : (g.openIf M).names = g.names := condition_names g

theorem openIfElse_names (g : CodeGenerator) : (g.openIfElse M).names = g.names := condition_names g

theorem openBody_names (g : CodeGenerator) : (g.openBody M).names = g.names := condition_names g

/-- The names of the runtime are not names of the program. -/
theorem getFunc_names (name : String) (g : CodeGenerator) : (g.getFunc name).2.names = g.names := by
  unfold getFunc
  split <;> rfl

/-- The generator finds a name exactly where the text has it in scope. -/
theorem lookup_visible {g : CodeGenerator} {x : Name} :
    (g.lookup x).isSome ↔ Layers.Visible x g.names.scopes := Tables.lookup_isSome

/-- A new slot comes into the innermost scope. -/
theorem addSlot_names {g : CodeGenerator} {x : Name} {ty : Ty} (hne : g.scopeStack ≠ [])
    (h : g.lookup x = none) :
    (g.addSlot x ty).names = { g.names with scopes := Layers.declare x g.names.scopes } := by
  obtain ⟨l, ls, hs⟩ := List.exists_cons_of_ne_nil hne
  have hv : ¬ Layers.Visible x (Tables.keys g.scopeStack) := by
    rw [← Tables.lookup_eq_none]; exact h
  rw [hs, Tables.keys_cons] at hv
  simp [names, addSlot, createEntryAlloca, hs, Tables.keys_put_cons,
    Layers.declare_cons_of_not_visible hv]

/-- Taking a slot is the event of that name. -/
theorem slotFor_names {g : CodeGenerator} (x : Name) (ty : Ty) (hne : g.scopeStack ≠ []) :
    ∃ a g', g.slotFor x ty = .ok (a, g') ∧
      g'.names = { g.names with scopes := Layers.declare x g.names.scopes } := by
  rcases slotFor_cases hne with ⟨a, hl, hr⟩ | ⟨hl, hr⟩
  · refine ⟨a, g, hr, ?_⟩
    rw [Layers.declare_of_visible (lookup_visible.mp (by rw [hl]; rfl))]
  · exact ⟨_, _, hr, addSlot_names hne hl⟩

/-- A variable is a read. -/
theorem visitVariable_names (g : CodeGenerator) (x : Name) :
    namesOf (g.visitVariable x) = g.names.step (.read x) := by
  unfold visitVariable
  cases hl : g.lookup x with
  | some a =>
      have hv : Layers.Visible x g.names.scopes := lookup_visible.mp (by rw [hl]; rfl)
      rw [NameView.step, if_pos (.inl hv)]
      rfl
  | none =>
      have hv : ¬ Layers.Visible x g.names.scopes := by rw [← lookup_visible, hl]; simp
      cases hf : g.functionTable x with
      | some f =>
          have hfn : g.names.isFunction x := by simp [names, hf]
          rw [NameView.step, if_pos (.inr hfn)]
          rfl
      | none =>
          have hfn : ¬ g.names.isFunction x := by simp [names, hf]
          rw [NameView.step, if_neg (not_or.mpr ⟨hv, hfn⟩)]
          rfl

/-- An assignment asks for a slot of its name. -/
theorem assign_names {g : CodeGenerator} {x : Name} (hne : g.scopeStack ≠ []) :
    namesOf (g.assign x) = g.names.step (.slot x) := by
  obtain ⟨a, g', hr, hn⟩ := slotFor_names x g.lastValue.ty hne
  simp only [assign, hr]
  exact congrArg Except.ok hn

/-- An input asks for the slot of `__input_var`. -/
theorem visitInput_names {g : CodeGenerator} (hne : g.scopeStack ≠ []) :
    namesOf g.visitInput = g.names.step (.slot inputVar) := by
  obtain ⟨a, g', hr, hn⟩ := slotFor_names inputVar .i32 hne
  simp only [visitInput, hr]
  exact congrArg Except.ok ((getFunc_names "scanf" g').trans hn)

theorem print_names (g : CodeGenerator) : g.print.names = g.names := getFunc_names "printf" g

/-- Parameters are declared in order, and a name that is there already throws. -/
theorem bindParams_names {f : Nat} {ps : List Name} {k : Nat} {g : CodeGenerator}
    (hne : g.scopeStack ≠ []) : namesOf (bindParams f ps k g) = g.names.declareParams ps := by
  induction ps generalizing g k with
  | nil => rfl
  | cons x ps ih =>
      rw [NameView.declareParams]
      cases hl : g.lookup x with
      | some a =>
          have hv : Layers.Visible x g.names.scopes := lookup_visible.mp (by rw [hl]; rfl)
          rw [if_pos hv, bindParams_clash hne (by rw [hl]; rfl)]
          rfl
      | none =>
          have hv : ¬ Layers.Visible x g.names.scopes := by rw [← lookup_visible, hl]; simp
          obtain ⟨l, ls, hs⟩ := List.exists_cons_of_ne_nil hne
          have hnames : (g.addParam f k x).names =
              { g.names with scopes := Layers.declare x g.names.scopes } := by
            have hv' : ¬ Layers.Visible x (l.map Prod.fst :: Tables.keys ls) := by
              simpa [names, hs] using hv
            simp [names, addParam, storeParam, createStore, createAlloca, insert, hs,
              Tables.keys_put_cons, Layers.declare_cons_of_not_visible hv']
          rw [if_neg hv, bindParams_cons hne hl, ← hnames]
          exact ih (by simp [addParam, hs, Tables.put])

/-- Opening a function enters it. -/
theorem openFunction_names (name : Option Name) (n : Nat) (g : CodeGenerator) :
    (g.openFunction M name n).names = g.names.enter name := by
  have hupdate (t : Name → Option Nat) (x : Name) (f : Nat) :
      (fun y => (Function.update t x (some f) y).isSome) =
        Function.update (fun y => (t y).isSome) x true := by
    funext y
    by_cases h : y = x
    · subst h; simp
    · simp [Function.update_of_ne h]
  cases name with
  | some x => exact congrArg (NameView.mk _ · _) (hupdate g.functionTable x _)
  | none => exact congrArg (NameView.mk _ · _) (hupdate g.functionTable _ _)

/-- As an event, with the parameters. -/
theorem enterFunction_names (name : Option Name) (ps : List Name) (g : CodeGenerator) :
    namesOf (g.enterFunction M name ps) = g.names.step (.enter name ps) := by
  have hne : (g.openFunction M name ps.length).scopeStack ≠ [] := by
    cases name <;> exact List.cons_ne_nil _ _
  rw [enterFunction, bindParams_names hne, openFunction_names]
  rfl

theorem returnUnlessTerminated_names (v : Value) (g : CodeGenerator) :
    (g.returnUnlessTerminated v).names = g.names := by
  unfold returnUnlessTerminated
  split <;> rfl

/-- Its end is the other event. -/
theorem leaveFunction_names {saved g : CodeGenerator} (hne : g.scopeStack ≠ []) :
    namesOf (leaveFunction saved g) = g.names.step .leave := by
  have hn := returnUnlessTerminated_names g.lastValue g
  rw [leaveFunction_ok hne, NameView.step]
  simp only [namesOf, closeFunction, ← hn]
  simp only [names, Tables.keys_tail, returnUnlessTerminated_scopeStack]

theorem names_ne_nil {g : CodeGenerator} : g.names.scopes ≠ [] ↔ g.scopeStack ≠ [] :=
  List.map_eq_nil_iff.not

/-- Inside a function there is a scope. -/
theorem enterFunction_ne_nil {name : Option Name} {ps : List Name} {g g' : CodeGenerator}
    (h : g.enterFunction M name ps = .ok g') : g'.names.scopes ≠ [] := by
  have hn := enterFunction_names (M := M) name ps g
  rw [namesOf_ok h, NameView.step] at hn
  have hne : (g.names.enter name).scopes ≠ [] := by
    rw [NameView.enter_scopes]
    exact List.cons_ne_nil _ _
  exact (NameView.declareParams_grows hne hn.symm).scopes.ne_nil

/-- A visit that followed balanced events leaves a scope open. -/
theorem scopes_ne_nil {r : Except Thrown CodeGenerator} {es : List Event} {v : NameView}
    {g' : CodeGenerator} (hn : namesOf r = NameView.run es v) (hb : Balanced es)
    (hne : v.scopes ≠ []) (hr : r = .ok g') : g'.names.scopes ≠ [] := by
  rw [namesOf_ok hr] at hn
  exact (NameView.run_grows hb hne hn.symm).scopes.ne_nil

mutual

/-- **Visitors follow events.** -/
theorem visit_names : ∀ (e : Expression) {g : CodeGenerator}, g.names.scopes ≠ [] →
    namesOf (visit M L e g) = NameView.run e.events g.names
  | .number _, g, _ => rfl
  | .var x, g, _ => by
      rw [visit, Expression.events, NameView.run_singleton]
      exact visitVariable_names g x
  | .assignmentExpr x e, g, hne => by
      have he := visit_names e hne
      rw [visit, Expression.events, NameView.run_append]
      refine namesOf_bind he (fun g1 h1 => ?_)
      rw [NameView.run_singleton]
      exact assign_names (names_ne_nil.mp (scopes_ne_nil he e.balanced hne h1))
  | .binaryOperator op a b, g, hne => by
      have ha := visit_names a hne
      rw [visit, Expression.events, NameView.run_append]
      refine namesOf_bind ha (fun g1 h1 => ?_)
      have hb := visit_names b (scopes_ne_nil ha a.balanced hne h1)
      rw [← bind_pure (NameView.run b.events g1.names)]
      exact namesOf_bind hb (fun g2 _ => congrArg Except.ok (emitLast_names _ g2))
  | .unaryOperator op e, g, hne => by
      rw [visit, Expression.events, ← bind_pure (NameView.run e.events g.names)]
      exact namesOf_bind (visit_names e hne) (fun g1 _ => congrArg Except.ok (emitLast_names _ g1))
  | .input, g, hne => by
      rw [visit, Expression.events, NameView.run_singleton]
      exact visitInput_names (names_ne_nil.mp hne)
  | .blockExpr ss, g, hne => visitStmts_names ss hne
  | .func f ps body, g, hne => by
      rw [visit, Expression.events, NameView.run]
      refine namesOf_bind (enterFunction_names f ps g) (fun g1 h1 => ?_)
      -- the body starts with the scope of the parameters on top
      have hne1 := enterFunction_ne_nil h1
      have hbody := visit_names body hne1
      rw [NameView.run_append]
      refine namesOf_bind hbody (fun g2 h2 => ?_)
      rw [NameView.run_singleton]
      exact leaveFunction_names (names_ne_nil.mp (scopes_ne_nil hbody body.balanced hne1 h2))
  | .call t es, g, hne => by
      have ht := visit_names t hne
      rw [visit, Expression.events, NameView.run_append]
      refine namesOf_bind ht (fun g1 h1 => ?_)
      rw [← visitArgs_names es (scopes_ne_nil ht t.balanced hne h1)]
      cases visitArgs M L es g1 <;> rfl

/-- So does a statement. -/
theorem visitStmt_names : ∀ (s : Statement) {g : CodeGenerator}, g.names.scopes ≠ [] →
    namesOf (visitStmt M L s g) = NameView.run s.events g.names
  | .emptyStmt, g, _ => rfl
  | .exprStmt e, g, hne => visit_names e hne
  | .ifStmt c t none, g, hne => by
      have hc := visit_names c hne
      rw [visitStmt, Statement.events, NameView.run_append]
      refine namesOf_bind hc (fun g1 h1 => ?_)
      have hne1 := scopes_ne_nil hc c.balanced hne h1
      -- opening blocks changes no names, so the branch starts from those after the condition
      rw [← openIf_names (M := M)] at hne1 ⊢
      rw [← bind_pure (NameView.run t.events _)]
      exact namesOf_bind (visit_names t hne1) (fun g2 _ => congrArg Except.ok (closeBranch_names _ _ g2))
  | .ifStmt c t (some e), g, hne => by
      have hc := visit_names c hne
      rw [visitStmt, Statement.events, NameView.run_append]
      refine namesOf_bind hc (fun g1 h1 => ?_)
      have hne1 := scopes_ne_nil hc c.balanced hne h1
      rw [← openIfElse_names (M := M)] at hne1 ⊢
      have ht := visit_names t hne1
      rw [NameView.run_append]
      refine namesOf_bind ht (fun g2 h2 => ?_)
      have hne2 := scopes_ne_nil ht t.balanced hne1 h2
      rw [← closeBranch_names (g1.blockCount + 2) (g1.blockCount + 1)] at hne2 ⊢
      rw [← bind_pure (NameView.run e.events _)]
      exact namesOf_bind (visit_names e hne2) (fun g3 _ => congrArg Except.ok (closeBranch_names _ _ g3))
  | .whileStmt c b, g, hne => by
      have hc := visit_names c (g := g.openLoop) hne
      rw [visitStmt, Statement.events, NameView.run_append]
      refine namesOf_bind hc (fun g1 h1 => ?_)
      have hne1 := scopes_ne_nil hc c.balanced hne h1
      rw [← openBody_names (M := M)] at hne1 ⊢
      rw [← bind_pure (NameView.run b.events _)]
      exact namesOf_bind (visit_names b hne1) (fun g2 _ => rfl)
  | .printStmt e, g, hne => by
      rw [visitStmt, Statement.events, ← bind_pure (NameView.run e.events g.names)]
      exact namesOf_bind (visit_names e hne) (fun g1 _ => congrArg Except.ok (print_names g1))
  | .returnStmt none, g, _ => rfl
  | .returnStmt (some e), g, hne => by
      rw [visitStmt, Statement.events, ← bind_pure (NameView.run e.events g.names)]
      exact namesOf_bind (visit_names e hne) (fun g1 _ => rfl)

theorem visitStmts_names : ∀ (ss : List Statement) {g : CodeGenerator}, g.names.scopes ≠ [] →
    namesOf (visitStmts M L ss g) = NameView.run (eventsOfStmts ss) g.names
  | [], g, _ => rfl
  | s :: ss, g, hne => by
      have hs := visitStmt_names s hne
      rw [visitStmts, eventsOfStmts, NameView.run_append]
      exact namesOf_bind hs (fun g1 h1 => visitStmts_names ss (scopes_ne_nil hs s.balanced hne h1))

/-- So do arguments, whatever their values. -/
theorem visitArgs_names : ∀ (es : List Expression) {g : CodeGenerator}, g.names.scopes ≠ [] →
    namesOf ((visitArgs M L es g).map Prod.snd) = NameView.run (eventsOfArgs es) g.names
  | [], g, _ => rfl
  | e :: es, g, hne => by
      have he := visit_names e hne
      rw [visitArgs, eventsOfArgs, NameView.run_append, ← he]
      cases h1 : visit M L e g with
      | error t => rfl
      | ok g1 =>
          show _ = NameView.run (eventsOfArgs es) g1.names
          rw [← visitArgs_names es (scopes_ne_nil he e.balanced hne h1)]
          show namesOf ((visitArgs M L es g1 >>= _).map Prod.snd) = _
          cases visitArgs M L es g1 <;> rfl

end

/-- **A program's names.** Generating a program ends in the names, or with the exception, that its events
    end in. -/
theorem visitProgram_names (p : Program) :
    namesOf (visitProgram M L p) = NameView.run p.events .init := by
  have hs : namesOf (visitStmts M L p.stmts (enterMain M)) = NameView.run p.events .init :=
    visitStmts_names p.stmts (List.cons_ne_nil _ _)
  rw [visitProgram, ← bind_pure (NameView.run p.events .init)]
  exact namesOf_bind hs (fun g _ => congrArg Except.ok (returnUnlessTerminated_names _ g))

end CodeGenerator

end Follow

end ParaCL
