import ParaCL.Codegen.Folding
import ParaCL.Codegen.Growth

/-!
# `Codegen.Nested` — what names mean around a nested function

`visit(Variable)` looks a name up in the scopes and then among the functions. A function that is compiled
leaves the scopes as they were, but `functions_` has one level only: whatever is compiled inside enters its
name there, over a function that had it before. `registers` reads the names entered off the tree; around a
function names keep their meaning exactly when none of these stood for a function (`nested_function_iff`).
-/

namespace ParaCL

open Lib

/-! ## The names entered -/

/-- The names a function is entered under, from a value of `func_counter_` on, and the counter after it. -/
def functionNames (name : Option Name) (k : Nat) : Name × Nat :=
  match name with
  | some x => (x, k)
  | none => ("func_" ++ toString k, k + 1)

/-- One part after the other. -/
def inTurn (p : List Name × Nat) (f : Nat → List Name × Nat) : List Name × Nat :=
  (p.1 ++ (f p.2).1, (f p.2).2)

mutual

/-- The names that the functions in a tree are entered under, and the counter after them. -/
def Expression.registers : Expression → Nat → List Name × Nat
  | .number _, k | .var _, k | .input, k => ([], k)
  | .assignmentExpr _ e, k | .unaryOperator _ e, k => e.registers k
  | .binaryOperator _ a b, k => inTurn (a.registers k) b.registers
  | .blockExpr ss, k => registersOfStmts ss k
  | .func name _ body, k => inTurn ([(functionNames name k).1], (functionNames name k).2) body.registers
  | .call t es, k => inTurn (t.registers k) (registersOfArgs es)

/-- The names in a statement, in the order in which they are entered. -/
def Statement.registers : Statement → Nat → List Name × Nat
  | .emptyStmt, k | .returnStmt none, k => ([], k)
  | .exprStmt e, k | .printStmt e, k | .returnStmt (some e), k => e.registers k
  | .ifStmt c t none, k => inTurn (c.registers k) t.registers
  | .ifStmt c t (some e), k => inTurn (c.registers k) (fun k => inTurn (t.registers k) e.registers)
  | .whileStmt c b, k => inTurn (c.registers k) b.registers

/-- Statements one after the other. -/
def registersOfStmts : List Statement → Nat → List Name × Nat
  | [], k => ([], k)
  | s :: ss, k => inTurn (s.registers k) (registersOfStmts ss)

/-- Arguments one after the other. -/
def registersOfArgs : List Expression → Nat → List Name × Nat
  | [], k => ([], k)
  | e :: es, k => inTurn (e.registers k) (registersOfArgs es)

end

namespace CodeGenerator

variable {M : Llvm} {L : Lowering} {g g' g1 g2 : CodeGenerator} {p : List Name × Nat} {x : Name}

/-- What `visit(Variable)` makes of a name: a slot, or else a function. -/
def resolve (g : CodeGenerator) (x : Name) : Option (AllocaInst ⊕ Nat) :=
  match g.lookup x with
  | some a => some (.inl a)
  | none => (g.functionTable x).map .inr

/-- These names were entered, each for a new function, and the others stand for what they did. -/
structure Registered (p : List Name × Nat) (g g' : CodeGenerator) : Prop where
  counter : g'.funcCounter = p.2
  length : g.functions.length ≤ g'.functions.length
  new : ∀ x ∈ p.1, ∃ f, g'.functionTable x = some f ∧ g.functions.length ≤ f ∧ f < g'.functions.length
  old : ∀ x, x ∉ p.1 → g'.functionTable x = g.functionTable x

/-- `functions_` is left alone. -/
structure Apart (g g' : CodeGenerator) : Prop where
  counter : g'.funcCounter = g.funcCounter
  table : g'.functionTable = g.functionTable
  length : g.functions.length ≤ g'.functions.length

theorem Apart.refl (g : CodeGenerator) : Apart g g := ⟨rfl, rfl, Nat.le_refl _⟩

/-- Two steps apart. -/
theorem Apart.trans (h1 : Apart g g1) (h2 : Apart g1 g2) : Apart g g2 :=
  ⟨h2.counter.trans h1.counter, h2.table.trans h1.table, Nat.le_trans h1.length h2.length⟩

/-- No name is entered. -/
theorem Apart.registered (h : Apart g g') : Registered ([], g.funcCounter) g g' where
  counter := h.counter
  length := h.length
  new _ hx := absurd hx List.not_mem_nil
  old x _ := congrFun h.table x

/-- A step apart may come first. -/
theorem Registered.after (h1 : Apart g g1) (h2 : Registered p g1 g2) : Registered p g g2 where
  counter := h2.counter
  length := Nat.le_trans h1.length h2.length
  new x hx := by
    obtain ⟨f, hf, hge, hlt⟩ := h2.new x hx
    exact ⟨f, hf, Nat.le_trans h1.length hge, hlt⟩
  old x hx := (h2.old x hx).trans (congrFun h1.table x)

/-- It may come last as well. -/
theorem Registered.before (h1 : Registered p g g1) (h2 : Apart g1 g2) : Registered p g g2 where
  counter := h2.counter.trans h1.counter
  length := Nat.le_trans h1.length h2.length
  new x hx := by
    obtain ⟨f, hf, hge, hlt⟩ := h1.new x hx
    exact ⟨f, (congrFun h2.table x).trans hf, hge, Nat.lt_of_lt_of_le hlt h2.length⟩
  old x hx := (congrFun h2.table x).trans (h1.old x hx)

/-- **One part after the other**: what is entered last counts. -/
theorem Registered.inTurn {f : Nat → List Name × Nat} (h1 : Registered p g g1)
    (h2 : Registered (f g1.funcCounter) g1 g2) : Registered (inTurn p f) g g2 := by
  rw [h1.counter] at h2
  refine ⟨h2.counter, Nat.le_trans h1.length h2.length, fun x hx => ?_, fun x hx => ?_⟩
  -- a name entered twice stands for the later function
  · by_cases hx2 : x ∈ (f p.2).1
    · obtain ⟨n, hn, hge, hlt⟩ := h2.new x hx2
      exact ⟨n, hn, Nat.le_trans h1.length hge, hlt⟩
    · obtain ⟨n, hn, hge, hlt⟩ := h1.new x ((List.mem_append.mp hx).resolve_right hx2)
      exact ⟨n, (h2.old x hx2).trans hn, hge, Nat.lt_of_lt_of_le hlt h2.length⟩
  · have hno : x ∉ p.1 ∧ x ∉ (f p.2).1 := by simpa [ParaCL.inTurn] using hx
    exact (h2.old x hno.2).trans (h1.old x hno.1)

/-! ## The parts of the visitors -/

/-- `last_value_`, instructions and blocks are apart from the names of functions. -/
theorem Apart.setLast {v : Value} (h : Apart g g') : Apart g (g'.setLast v) := ⟨h.counter, h.table, h.length⟩

theorem Apart.insert {i : Instruction} (h : Apart g g') : Apart g (g'.insert i) :=
  ⟨h.counter, h.table, h.length⟩

theorem Apart.setInsertPoint {b : Nat} (h : Apart g g') : Apart g (g'.setInsertPoint b) :=
  ⟨h.counter, h.table, h.length⟩

theorem Apart.createBlock {f : Nat} (h : Apart g g') : Apart g (g'.createBlock f) :=
  ⟨h.counter, h.table, h.length⟩

/-- So is all that an operator emits. -/
theorem emit_apart {α : Type} (m : Emit α) (g : CodeGenerator) : Apart g (emit M m g).2 := by
  induction m generalizing g with
  | pure a => exact .refl g
  | create opcode args next ih =>
      unfold emit
      split
      · exact ih _ g
      · exact (Apart.refl g).insert.trans (ih _ _)

theorem emitLast_apart (m : Emit Value) (g : CodeGenerator) : Apart g (emitLast M m g) :=
  (emit_apart m g).setLast

theorem createLoad_apart (a : AllocaInst) (g : CodeGenerator) : Apart g (g.createLoad a) :=
  (Apart.refl g).insert.setLast

/-- `functions_` holds no declarations. -/
theorem getFunc_apart (name : String) (g : CodeGenerator) : Apart g (g.getFunc name).2 := by
  unfold getFunc
  split
  · exact .refl g
  · exact ⟨rfl, rfl, by simp⟩

theorem print_apart (g : CodeGenerator) : Apart g g.print := (getFunc_apart "printf" g).insert.setLast

theorem openIf_apart (g : CodeGenerator) : Apart g (g.openIf M) :=
  (emit_apart _ g).createBlock.createBlock.insert.setLast.setInsertPoint

theorem openIfElse_apart (g : CodeGenerator) : Apart g (g.openIfElse M) :=
  (emit_apart _ g).createBlock.createBlock.createBlock.insert.setLast.setInsertPoint

theorem openBody_apart (g : CodeGenerator) : Apart g (g.openBody M) :=
  (emit_apart _ g).createBlock.createBlock.insert.setLast.setInsertPoint

theorem openLoop_apart (g : CodeGenerator) : Apart g g.openLoop :=
  (Apart.refl g).createBlock.insert.setLast.setInsertPoint

theorem closeBranch_apart (merge next : Nat) (g : CodeGenerator) : Apart g (g.closeBranch merge next) := by
  unfold closeBranch branchUnlessTerminated
  split
  · exact (Apart.refl g).setInsertPoint
  · exact (Apart.refl g).insert.setInsertPoint

theorem closeLoop_apart (condBb endLoopBb : Nat) (g : CodeGenerator) :
    Apart g (g.closeLoop condBb endLoopBb) :=
  (Apart.refl g).insert.setLast.setInsertPoint

/-- Variables are declared in the scopes. -/
theorem declare_apart (x : Name) (a : AllocaInst) (g : CodeGenerator) :
    Ensures (g.declare x a) (Apart g) (fun _ => True) := by
  unfold declare
  split
  · exact .error trivial
  · split
    · exact .error trivial
    · exact .ok ⟨rfl, rfl, Nat.le_refl _⟩

/-- So a slot, found or new, is apart. -/
theorem slotFor_apart (x : Name) (ty : Ty) (g : CodeGenerator) :
    Ensures (g.slotFor x ty) (fun r => Apart g r.2) (fun _ => True) := by
  unfold slotFor
  cases g.lookup x with
  | some a => exact .ok (.refl g)
  | none =>
      have hentry : Apart g (g.createEntryAlloca ty) := ⟨rfl, rfl, Nat.le_refl _⟩
      exact (declare_apart x _ _).bind (fun g1 h1 => .ok (hentry.trans h1))

/-- A variable only reads. -/
theorem visitVariable_apart (x : Name) (g : CodeGenerator) :
    Ensures (g.visitVariable x) (Apart g) (fun _ => True) := by
  unfold visitVariable
  cases g.lookup x with
  | some a => exact .ok (createLoad_apart a g)
  | none =>
      cases g.functionTable x with
      | some f => exact .ok (Apart.refl g).setLast
      | none => exact .error trivial

theorem assign_apart (x : Name) (g : CodeGenerator) : Ensures (g.assign x) (Apart g) (fun _ => True) := by
  unfold assign
  exact (slotFor_apart x _ g).bind (fun r h => .ok h.insert)

theorem visitInput_apart (g : CodeGenerator) : Ensures g.visitInput (Apart g) (fun _ => True) := by
  unfold visitInput
  refine (slotFor_apart inputVar .i32 g).bind (fun r h => .ok ?_)
  exact (h.trans (getFunc_apart "scanf" r.2)).insert.setLast.insert.setLast

/-- Parameters are variables. -/
theorem bindParams_apart {f : Nat} (ps : List Name) (k : Nat) (g : CodeGenerator) :
    Ensures (bindParams f ps k g) (Apart g) (fun _ => True) := by
  induction ps generalizing k g with
  | nil => exact .ok (.refl g)
  | cons x ps ih =>
      unfold bindParams
      have hstore : Apart g (g.storeParam f k) := (Apart.refl g).insert.insert
      refine (declare_apart x _ _).bind (fun g1 h1 => ?_)
      exact (ih (k + 1) g1).weaken (fun _ h2 => (hstore.trans h1).trans h2) (fun _ => id)

/-- A scope goes, but no function does. -/
theorem popScope_apart (g : CodeGenerator) : Ensures g.popScope (Apart g) (fun _ => True) := by
  unfold popScope
  split
  · exact .error trivial
  · exact .ok ⟨rfl, rfl, Nat.le_refl _⟩

/-- Neither does one at the end of its own body: its name stays. -/
theorem leaveFunction_apart (saved g : CodeGenerator) :
    Ensures (leaveFunction saved g) (Apart g) (fun _ => True) := by
  have hret : Apart g (g.returnUnlessTerminated g.lastValue) := by
    unfold returnUnlessTerminated
    split
    · exact .refl g
    · exact (Apart.refl g).insert
  unfold leaveFunction
  exact (popScope_apart _).bind (fun g1 h1 => .ok ⟨h1.counter.trans hret.counter, h1.table.trans hret.table,
    Nat.le_trans hret.length h1.length⟩)

/-- **A function enters its name.** -/
theorem openFunction_registered (name : Option Name) (n : Nat) (g : CodeGenerator) :
    Registered ([(functionNames name g.funcCounter).1], (functionNames name g.funcCounter).2) g
      (g.openFunction M name n) := by
  have hname : g.functionName name = ((functionNames name g.funcCounter).1,
      { g with funcCounter := (functionNames name g.funcCounter).2 }) := by
    cases name <;> rfl
  unfold openFunction
  rw [hname]
  refine ⟨rfl, ?_, fun x hx => ?_, fun x hx => ?_⟩
  · simp [createFunction, setInsertPoint, createBlock, pushScope]
  · rw [List.mem_singleton.mp hx]
    refine ⟨g.functions.length, Function.update_self _ _ _, Nat.le_refl _, ?_⟩
    simp [createFunction, setInsertPoint, createBlock, pushScope]
  · exact Function.update_of_ne (by simpa using hx) _ _

/-! ## The visitors -/

/-- A visitor that returns has entered these names. -/
abbrev Enters (p : List Name × Nat) (g : CodeGenerator) (r : Except Thrown CodeGenerator) : Prop :=
  Ensures r (Registered p g) (fun _ => True)

section Enters

variable {r : Except Thrown CodeGenerator} {k : CodeGenerator → Except Thrown CodeGenerator}
  {f : Nat → List Name × Nat}

/-- A step apart that returns has entered nothing. -/
theorem Enters.apart (h : Ensures r (Apart g) (fun _ => True)) : Enters ([], g.funcCounter) g r :=
  h.weaken (fun _ => Apart.registered) (fun _ => id)

/-- The counter passes from one part to the next. -/
theorem Enters.inTurn (h : Enters p g r) (hk : ∀ g1, Enters (f g1.funcCounter) g1 (k g1)) :
    Enters (inTurn p f) g (r >>= k) :=
  Ensures.bind h (fun g1 h1 => (hk g1).weaken (fun _ => h1.inTurn) (fun _ => id))

/-- Nothing is entered behind. -/
theorem Enters.andThen (h : Enters p g r) (hk : ∀ g1, Ensures (k g1) (Apart g1) (fun _ => True)) :
    Enters p g (r >>= k) :=
  Ensures.bind h (fun g1 h1 => (hk g1).weaken (fun _ => h1.before) (fun _ => id))

/-- Nothing is entered before. -/
theorem Enters.after (h : Apart g g1) (h1 : Enters (f g1.funcCounter) g1 r) :
    Enters (f g.funcCounter) g r := by
  rw [h.counter] at h1
  exact h1.weaken (fun _ => Registered.after h) (fun _ => id)

end Enters

/-- Up to the body the function's own name is entered. -/
theorem enterFunction_enters (name : Option Name) (params : List Name) (g : CodeGenerator) :
    Enters ([(functionNames name g.funcCounter).1], (functionNames name g.funcCounter).2) g
      (g.enterFunction M name params) :=
  (bindParams_apart params 0 _).weaken (fun _ => (openFunction_registered name params.length g).before)
    (fun _ => id)

mutual

/-- **The names entered are those of the tree.** -/
theorem visit_enters : ∀ (e : Expression) (g : CodeGenerator),
    Enters (e.registers g.funcCounter) g (visit M L e g)
  | .number _, g => .apart (.ok (Apart.refl g).setLast)
  | .var x, g => .apart (visitVariable_apart x g)
  | .assignmentExpr x e, g => .andThen (visit_enters e g) (assign_apart x)
  | .binaryOperator op a b, g => by
      rw [visit]
      refine .inTurn (visit_enters a g) (fun g1 => ?_)
      exact .andThen (visit_enters b g1) (fun g2 => .ok (emitLast_apart _ g2))
  | .unaryOperator op e, g => by
      rw [visit]
      exact .andThen (visit_enters e g) (fun g1 => .ok (emitLast_apart _ g1))
  | .input, g => .apart (visitInput_apart g)
  | .blockExpr ss, g => by
      rw [visit]
      exact visitStmts_enters ss g
  | .func name ps body, g => by
      rw [visit]
      refine .inTurn (enterFunction_enters name ps g) (fun g1 => ?_)
      exact .andThen (visit_enters body g1) (leaveFunction_apart g)
  | .call t es, g => by
      rw [visit]
      refine .inTurn (visit_enters t g) (fun g1 => ?_)
      exact (visitArgs_enters es g1).bind (fun r h => .ok (h.before (Apart.refl _).insert.setLast))

/-- So do statements. -/
theorem visitStmt_enters : ∀ (s : Statement) (g : CodeGenerator),
    Enters (s.registers g.funcCounter) g (visitStmt M L s g)
  | .emptyStmt, g => .apart (.ok (.refl g))
  | .exprStmt e, g => visit_enters e g
  | .ifStmt c t none, g => by
      rw [visitStmt]
      refine .inTurn (visit_enters c g) (fun g1 => ?_)
      refine .andThen (.after (openIf_apart g1) (visit_enters t _)) (fun g2 => .ok (closeBranch_apart _ _ g2))
  | .ifStmt c t (some e), g => by
      rw [visitStmt, Statement.registers]
      refine Enters.inTurn (f := fun k => ParaCL.inTurn (t.registers k) e.registers) (visit_enters c g)
        (fun g1 => ?_)
      refine .inTurn (.after (openIfElse_apart g1) (visit_enters t _)) (fun g2 => ?_)
      exact .andThen (.after (closeBranch_apart _ _ g2) (visit_enters e _))
        (fun g3 => .ok (closeBranch_apart _ _ g3))
  -- opening the blocks leaves `functions_` alone, so the counter is that of `g`
  | .whileStmt c b, g => by
      rw [visitStmt]
      refine .inTurn (.after (openLoop_apart g) (visit_enters c _)) (fun g1 => ?_)
      exact .andThen (.after (openBody_apart g1) (visit_enters b _)) (fun g2 => .ok (closeLoop_apart _ _ g2))
  | .printStmt e, g => by
      rw [visitStmt]
      exact .andThen (visit_enters e g) (fun g1 => .ok (print_apart g1))
  | .returnStmt none, g => .apart (.ok (Apart.refl g).insert)
  | .returnStmt (some e), g => by
      rw [visitStmt]
      exact .andThen (visit_enters e g) (fun g1 => .ok (Apart.refl g1).insert)

theorem visitStmts_enters : ∀ (ss : List Statement) (g : CodeGenerator),
    Enters (registersOfStmts ss g.funcCounter) g (visitStmts M L ss g)
  | [], g => .apart (.ok (.refl g))
  | s :: ss, g => .inTurn (visitStmt_enters s g) (visitStmts_enters ss)

/-- And arguments, whatever their values. -/
theorem visitArgs_enters : ∀ (es : List Expression) (g : CodeGenerator),
    Ensures (visitArgs M L es g) (fun r => Registered (registersOfArgs es g.funcCounter) g r.2)
      (fun _ => True)
  | [], g => .ok (Apart.refl g).registered
  | e :: es, g => by
      rw [visitArgs]
      refine (visit_enters e g).bind (fun g1 h1 => ?_)
      exact (visitArgs_enters es g1).bind (fun r h2 => .ok (h1.inTurn h2))

end

/-! ## States and names -/

/-- Every function among the names is in the module. -/
def Bounded (g : CodeGenerator) : Prop := ∀ x f, g.functionTable x = some f → f < g.functions.length

/-- The names that are entered stand for functions of the module. -/
theorem Registered.bounded (h : Registered p g g') (hb : Bounded g) : Bounded g' := by
  intro x f hf
  by_cases hx : x ∈ p.1
  · obtain ⟨f', hf', _, hlt⟩ := h.new x hx
    rw [hf'] at hf
    cases hf
    exact hlt
  · rw [h.old x hx] at hf
    exact Nat.lt_of_lt_of_le (hb x f hf) h.length

/-- A step apart keeps the bound. -/
theorem Apart.bounded (h : Apart g g') (hb : Bounded g) : Bounded g' := h.registered.bounded hb

variable (M L) in
/-- The states in which a visitor is called: at the start, after expressions and statements, and where a
    function, a branch or a loop has been entered. -/
inductive Visiting : CodeGenerator → Prop where
  | start : Visiting (enterMain M)
  | visit {g g' : CodeGenerator} {e : Expression} (h : Visiting g) (hv : visit M L e g = .ok g') : Visiting g'
  | visitStmt {g g' : CodeGenerator} {s : Statement} (h : Visiting g) (hv : visitStmt M L s g = .ok g') :
      Visiting g'
  | function {g g' : CodeGenerator} {name : Option Name} {params : List Name} (h : Visiting g)
      (hv : g.enterFunction M name params = .ok g') : Visiting g'
  | branch {g : CodeGenerator} (h : Visiting g) : Visiting (g.openIf M)
  | thenBranch {g : CodeGenerator} (h : Visiting g) : Visiting (g.openIfElse M)
  | elseBranch {g g' : CodeGenerator} {e : Expression} (h : Visiting g)
      (hv : CodeGenerator.visit M L e (g.openIfElse M) = .ok g') :
      Visiting (g'.closeBranch (g.blockCount + 2) (g.blockCount + 1))
  | loop {g : CodeGenerator} (h : Visiting g) : Visiting g.openLoop
  | body {g : CodeGenerator} (h : Visiting g) : Visiting (g.openBody M)

/-- **Every state reached is ready, and its functions are in the module.** -/
theorem Visiting.ready (h : Visiting M L g) : g.Ready ∧ Bounded g := by
  induction h with
  | start => exact ⟨enterMain_ready, fun x f hf => by cases hf⟩
  | visit _ hv ih =>
      exact ⟨((visit_grows _ ih.1).of_ok hv).ready, ((visit_enters _ _).of_ok hv).bounded ih.2⟩
  | visitStmt _ hv ih =>
      exact ⟨((visitStmt_grows _ ih.1).of_ok hv).ready, ((visitStmt_enters _ _).of_ok hv).bounded ih.2⟩
  | @function g g' name params _ hv ih =>
      have ho := openFunction_opened (M := M) name params.length g
      refine ⟨((bindParams_grows (ho.ready ih.1)).of_ok hv).ready, ?_⟩
      exact ((enterFunction_enters name params g).of_ok hv).bounded ih.2
  | branch _ ih => exact ⟨(openIf_opens ih.1).ready, (openIf_apart _).bounded ih.2⟩
  | thenBranch _ ih => exact ⟨(openIfElse_opens ih.1).ready, (openIfElse_apart _).bounded ih.2⟩
  | elseBranch _ hv ih =>
      have ho := openIfElse_opens (M := M) ih.1
      have hg := (visit_grows _ ho.ready).of_ok hv
      have hb := ((visit_enters _ _).of_ok hv).bounded ((openIfElse_apart _).bounded ih.2)
      exact ⟨(closeThen_grown ih.1 hg).ready, (closeBranch_apart _ _ _).bounded hb⟩
  | loop _ ih => exact ⟨(openLoop_opens ih.1).ready, (openLoop_apart _).bounded ih.2⟩
  | body _ ih => exact ⟨(openBody_opens ih.1).ready, (openBody_apart _).bounded ih.2⟩

/-- `visit(Func)` leaves the scopes as they were. -/
theorem func_scopeStack {name : Option Name} {params : List Name} {body : Expression} (hr : g.Ready)
    (hv : visit M L (.func name params body) g = .ok g') : g'.scopeStack = g.scopeStack := by
  have ho := openFunction_opened (M := M) name params.length g
  rw [visit] at hv
  obtain ⟨g1, h1, hv⟩ := bind_ok_iff.mp hv
  obtain ⟨g2, h2, hv⟩ := bind_ok_iff.mp hv
  have hg1 := (bindParams_grows (ho.ready hr)).of_ok h1
  have hg2 := (visit_grows body hg1.ready).of_ok h2
  rw [leaveFunction_ok hg2.ready.scopes] at hv
  cases hv
  exact closeFunction_scopeStack ho (hg1.trans (ho.ready hr) hg2)

/-- With the same scopes, names keep their meaning exactly when no function they stand for is entered over. -/
theorem Registered.resolve_iff (h : Registered p g g') (hs : g'.scopeStack = g.scopeStack) (hb : Bounded g) :
    (∀ x o, g.resolve x = some o → g'.resolve x = some o) ↔
      ∀ x ∈ p.1, g.lookup x = none → g.functionTable x = none := by
  have hlookup (x : Name) : g'.lookup x = g.lookup x := by
    unfold CodeGenerator.lookup
    rw [hs]
  constructor
  · intro hkeep x hx hno
    by_contra hsome
    obtain ⟨f, hf⟩ := Option.ne_none_iff_exists'.mp hsome
    -- the name now stands for a function that did not exist before
    obtain ⟨f', hf', hge, _⟩ := h.new x hx
    have hsame := hkeep x (.inr f) (by rw [resolve, hno, hf]; rfl)
    rw [resolve, hlookup, hno, hf'] at hsame
    cases hsame
    exact absurd (hb x f hf) (Nat.not_lt.mpr hge)
  · intro hfree x o hx
    unfold resolve at hx ⊢
    rw [hlookup]
    cases hl : g.lookup x with
    | some a =>
        rw [hl] at hx
        exact hx
    | none =>
        rw [hl] at hx
        have hnot : x ∉ p.1 := by
          intro hmem
          rw [hfree x hmem hl] at hx
          cases hx
        show (g'.functionTable x).map _ = _
        rw [h.old x hnot]
        exact hx

end CodeGenerator

open CodeGenerator

/-- **What names mean around a function.** After `visit(Func)` every name that resolved stands for the same
    object, exactly if none of the names entered for it and the functions in it stood for a function. -/
theorem nested_function_iff {M : Llvm} {L : Lowering} {g g' : CodeGenerator} (hg : Visiting M L g)
    {name : Option Name} {params : List Name} {body : Expression}
    (hv : visit M L (.func name params body) g = .ok g') :
    (∀ x o, g.resolve x = some o → g'.resolve x = some o) ↔
      ∀ x ∈ ((Expression.func name params body).registers g.funcCounter).1,
        g.lookup x = none → g.functionTable x = none := by
  obtain ⟨hr, hb⟩ := hg.ready
  exact ((visit_enters _ _).of_ok hv).resolve_iff (func_scopeStack hr hv) hb

/-- In the body of `func() : h { … }`, the name `h` survives an anonymous function. -/
theorem nested_function_iff_anonymous : ∃ g g',
    CodeGenerator.enterFunction .standard (some "h") [] (enterMain .standard) = .ok g ∧
      visit .standard .source (.func none [] (.blockExpr [.exprStmt (.number 1)])) g = .ok g' ∧
        ∀ x o, g.resolve x = some o → g'.resolve x = some o := by
  have henter : CodeGenerator.enterFunction .standard (some "h") [] (enterMain .standard) = .ok _ := rfl
  have hiff := @nested_function_iff .standard .source _ _ (.function .start henter) none []
    (.blockExpr [.exprStmt (.number 1)]) rfl
  refine ⟨_, _, rfl, rfl, hiff.mpr (fun x hx _ => ?_)⟩
  rw [List.mem_singleton.mp hx]
  rfl

/-- In `func() : h { b = func() : h { 1; }; h(); }`, the name `h` is lost to the inner function. -/
theorem nested_function_captures : ¬ ∀ (M : Llvm) (L : Lowering) (g g' : CodeGenerator) (name : Option Name)
    (params : List Name) (body : Expression), Visiting M L g → visit M L (.func name params body) g = .ok g' →
      ∀ x o, g.resolve x = some o → g'.resolve x = some o := by
  intro h
  have henter : CodeGenerator.enterFunction .standard (some "h") [] (enterMain .standard) = .ok _ := rfl
  have hsame := h .standard .source _ _ (some "h") [] (.blockExpr [.exprStmt (.number 1)])
    (Visiting.function .start henter) rfl "h" (.inr 1) rfl
  revert hsame
  decide

end ParaCL
