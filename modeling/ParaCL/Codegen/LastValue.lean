import ParaCL.Codegen.Generator
import ParaCL.Language.Kinds

/-!
# `Codegen.LastValue` — the first use of `last_value_`

The constructor of `Code_generator` leaves `last_value_` without a value. A program whose text starts with an
empty block where a value is used (`x = {};`, `print {};`, `func() {};`) makes a visitor read it before one has
set it, which C++ does not define. `Program.firstUse` finds the first use along the text.

If that is not a read, what the member held at first makes no difference (`visitProgram_setLast`). A program in
which what is used as a value comes to one does not read it first (`Program.WellKinded.sets_first`).
-/

namespace ParaCL

open Lib

/-- What ends the part of the text in which `last_value_` is not used: it is set, or read, or a parameter is
    refused and the generator throws. -/
inductive FirstUse where
  | sets
  | reads
  | throws
  deriving DecidableEq, Repr

/-- A parameter has the name of one in scope, or of one before it. -/
def paramRefused : List Name → List Name → Bool
  | _, [] => false
  | bound, x :: xs => x ∈ bound || paramRefused (x :: bound) xs

mutual

/-- The first use in an expression, or whether the block at hand has a terminator after it. Nothing but
    parameters, `bound`, has been declared before. -/
def Expression.firstUse (bound : List Name) : Expression → Bool → Except FirstUse Bool
  | .number _, _ => throw .sets
  | .var _, _ => throw .sets
  | .assignmentExpr _ value, closed => do
      let _ ← value.firstUse bound closed
      throw .reads
  | .binaryOperator _ left _, closed => do
      let _ ← left.firstUse bound closed
      throw .reads
  | .unaryOperator _ operand, closed => do
      let _ ← operand.firstUse bound closed
      throw .reads
  | .input, _ => throw .sets
  | .blockExpr stmts, closed => firstUseStmts bound stmts closed
  | .func _ params body, _ =>
      if paramRefused bound params then throw .throws
      else do
        let closed ← body.firstUse (params ++ bound) false
        -- the value of the body is returned, unless it has returned itself
        throw (if closed then .sets else .reads)
  | .call target _, closed => do
      let _ ← target.firstUse bound closed
      throw .reads

/-- The first use in a statement. An `if` reads its condition, and a loop has set the member before its condition
    is visited. -/
def Statement.firstUse (bound : List Name) : Statement → Bool → Except FirstUse Bool
  | .emptyStmt, closed => pure closed
  | .exprStmt expr, closed => expr.firstUse bound closed
  | .ifStmt condition _ _, closed => do
      let _ ← condition.firstUse bound closed
      throw .reads
  -- the jump into the loop is a value
  | .whileStmt _ _, _ => throw .sets
  | .printStmt value, closed => do
      let _ ← value.firstUse bound closed
      throw .reads
  | .returnStmt none, _ => pure true
  | .returnStmt (some value), closed => do
      let _ ← value.firstUse bound closed
      throw .reads

/-- The first use among statements. -/
def firstUseStmts (bound : List Name) : List Statement → Bool → Except FirstUse Bool
  | [], closed => pure closed
  | s :: ss, closed => do
      let closed ← s.firstUse bound closed
      firstUseStmts bound ss closed

end

/-- The first use of `last_value_` in the program, if there is one, is a read. -/
def Program.ReadsUnset (p : Program) : Prop := firstUseStmts [] p.stmts false = .error .reads

instance (p : Program) : Decidable p.ReadsUnset := inferInstanceAs (Decidable (_ = _))

/-! ## Where the first use is no read -/

namespace CodeGenerator

variable {M : Llvm} {L : Lowering} {g g' : CodeGenerator} {v : Value} {bound : List Name} {closed : Bool}
  {r r' : Except Thrown CodeGenerator}

/-- The generator in a part of the text in which `last_value_` is not used. -/
structure Before (bound : List Name) (closed : Bool) (g : CodeGenerator) : Prop where
  scopes : g.scopeStack ≠ []
  bound : ∀ x ∈ bound, (g.lookup x).isSome
  closed : closed = true → g.terminated = true

/-- The same result, also of what is thrown. -/
inductive SameResult : Except Thrown CodeGenerator → Except Thrown CodeGenerator → Prop where
  | ok (g : CodeGenerator) : SameResult (.ok g) (.ok g)
  | error {t t' : Thrown} (h : t.error = t'.error) : SameResult (.error t) (.error t')

theorem SameResult.refl (r : Except Thrown CodeGenerator) : SameResult r r := by
  cases r with
  | ok g => exact .ok g
  | error t => exact .error rfl

/-- Whatever comes behind equal results is equal. -/
theorem SameResult.bind (h : SameResult r r') (k : CodeGenerator → Except Thrown CodeGenerator) :
    SameResult (r >>= k) (r' >>= k) := by
  cases h with
  | ok g => exact .refl _
  | error h => exact .error h

/-- Two visits that start with different values in `last_value_`, by what the first use is. -/
def Meets (v : Value) (bound : List Name) (use : Except FirstUse Bool)
    (r r' : Except Thrown CodeGenerator) : Prop :=
  match use with
  | .ok closed => ∃ g, r = .ok g ∧ r' = .ok (g.setLast v) ∧ Before bound closed g
  | .error .reads => True
  | .error _ => SameResult r r'

/-- Results that are equal meet every expectation of a first use. -/
theorem Meets.same {use : FirstUse} (h : SameResult r r') : Meets v bound (.error use) r r' := by
  cases use with
  | reads => trivial
  | sets | throws => exact h

/-- A read comes after the visit. -/
theorem Meets.then_reads {use : Except FirstUse Bool} (h : Meets v bound use r r')
    (k : CodeGenerator → Except Thrown CodeGenerator) :
    Meets v bound (do let _ ← use; throw .reads) (r >>= k) (r' >>= k) := by
  cases use with
  | ok closed => trivial
  | error use =>
      cases use with
      | reads => trivial
      | sets | throws => exact SameResult.bind h k

/-! ### The parts -/

/-- A variable does not look at `last_value_`. -/
theorem visitVariable_same (x : Name) : SameResult (g.visitVariable x) ((g.setLast v).visitVariable x) := by
  have hl : (g.setLast v).lookup x = g.lookup x := rfl
  have ht : (g.setLast v).functionTable x = g.functionTable x := rfl
  unfold visitVariable
  rw [hl, ht]
  cases g.lookup x with
  | some a => exact .ok _
  | none =>
      cases g.functionTable x with
      | some f => exact .ok _
      | none => exact .error rfl

/-- Neither does an input. -/
theorem visitInput_same (hne : g.scopeStack ≠ []) : SameResult g.visitInput (g.setLast v).visitInput := by
  have hl : (g.setLast v).lookup inputVar = g.lookup inputVar := rfl
  have hfunc (g : CodeGenerator) : (g.setLast v).getFunc "scanf" =
      ((g.getFunc "scanf").1, (g.getFunc "scanf").2.setLast v) := by
    have hsame : (g.setLast v).functions = g.functions := rfl
    rw [getFunc, getFunc, hsame]
    cases g.functions.findIdx? (fun f => f.name = "scanf") <;> rfl
  rcases slotFor_cases hne with ⟨a, hsome, hs⟩ | ⟨hnone, hs⟩
  · unfold visitInput
    rw [hs, slotFor_some (hl.trans hsome)]
    show SameResult (.ok _) (.ok (((((g.setLast v).getFunc "scanf").2.createCall 2
      (.const (.func ((g.setLast v).getFunc "scanf").1)) _)).createLoad a))
    rw [hfunc]
    exact .ok _
  · unfold visitInput
    rw [hs, slotFor_none (g := g.setLast v) hne (hl.trans hnone)]
    show SameResult (.ok _) (.ok ((((((g.addSlot inputVar .i32).setLast v).getFunc "scanf").2.createCall 2
      (.const (.func (((g.addSlot inputVar .i32).setLast v).getFunc "scanf").1)) _)).createLoad _))
    rw [hfunc]
    exact .ok _

/-- Binding parameters goes through both times, and none is refused, or throws both times. -/
theorem bindParams_same (xs : List Name) (f k : Nat) (v : Value) (hne : g.scopeStack ≠ [])
    (hb : ∀ x ∈ bound, (g.lookup x).isSome) :
    (∃ g', bindParams f xs k g = .ok g' ∧ bindParams f xs k (g.setLast v) = .ok (g'.setLast v) ∧
        g'.scopeStack ≠ [] ∧ (∀ x ∈ xs ++ bound, (g'.lookup x).isSome) ∧
        paramRefused bound xs = false) ∨
      ∃ t t', bindParams f xs k g = .error t ∧ bindParams f xs k (g.setLast v) = .error t' ∧
        t.error = t'.error := by
  induction xs generalizing g bound k with
  | nil => exact .inl ⟨g, rfl, rfl, hne, hb, rfl⟩
  | cons x xs ih =>
      cases hl : g.lookup x with
      | some a =>
          have hx : (g.lookup x).isSome := Option.isSome_of_eq_some hl
          exact .inr ⟨_, _, bindParams_clash hne hx, bindParams_clash (g := g.setLast v) hne hx, rfl⟩
      | none =>
          have hnot : x ∉ bound := fun hx => by
            have hsome := hb x hx
            rw [hl] at hsome
            cases hsome
          have hself : (g.addParam f k x).lookup x = some (g.newSlot .i32) := Tables.lookup_put_self hne
          have hne' : (g.addParam f k x).scopeStack ≠ [] := by
            obtain ⟨l, ls, hs⟩ := List.exists_cons_of_ne_nil hne
            show Tables.put x (g.newSlot .i32) g.scopeStack ≠ []
            rw [hs]
            exact List.cons_ne_nil _ _
          have hb' : ∀ y ∈ x :: bound, ((g.addParam f k x).lookup y).isSome := by
            intro y hy
            by_cases hyx : y = x
            · rw [hyx, hself]
              rfl
            · have hother : (g.addParam f k x).lookup y = g.lookup y := Tables.lookup_put_ne hyx
              rw [hother]
              exact hb y ((List.mem_cons.mp hy).resolve_left hyx)
          rw [bindParams_cons hne hl, bindParams_cons (g := g.setLast v) hne hl]
          rcases ih (k + 1) hne' hb' with ⟨g', h1, h2, hne2, hall, hrefused⟩ | hthrows
          · refine .inl ⟨g', h1, h2, hne2, fun y hy => hall y ?_, ?_⟩
            · simp only [List.mem_append, List.mem_cons] at hy ⊢
              tauto
            · simp [paramRefused, hnot, hrefused]
          · exact .inr hthrows

theorem terminated_createRet (w : Value) : (g.createRet w).terminated = true := by
  show ((g.insert (.ret w)).blocks g.insertBlock).hasTerminator = true
  simp [insert, BasicBlock.hasTerminator, BasicBlock.instrs, ← List.append_assoc, Instruction.isTerminator]

/-- A function literal whose parameters are bound. -/
theorem func_meets {name : Option Name} {params : List Name} {body : Expression}
    (hg : Before bound closed g)
    (hbody : ∀ {g : CodeGenerator}, Before (params ++ bound) false g →
      Meets v (params ++ bound) (body.firstUse (params ++ bound) false) (visit M L body g)
        (visit M L body (g.setLast v))) :
    Meets v bound ((Expression.func name params body).firstUse bound closed)
      (visit M L (.func name params body) g) (visit M L (.func name params body) (g.setLast v)) := by
  have hopen : (g.setLast v).openFunction M name params.length =
      (g.openFunction M name params.length).setLast v := by
    cases name <;> rfl
  have hlookup (x : Name) : (g.openFunction M name params.length).lookup x = g.lookup x := by
    cases name <;> rfl
  have hvisit (g : CodeGenerator) : visit M L (.func name params body) g =
      bindParams g.functions.length params 0 (g.openFunction M name params.length) >>= fun g' =>
        visit M L body g' >>= leaveFunction g := rfl
  have hleave : leaveFunction (g.setLast v) = leaveFunction g := rfl
  rw [Expression.firstUse, hvisit, hvisit, hopen, hleave]
  have hbound : ∀ x ∈ bound, ((g.openFunction M name params.length).lookup x).isSome := fun x hx => by
    rw [hlookup]
    exact hg.bound x hx
  have hopened : (g.openFunction M name params.length).scopeStack ≠ [] := List.cons_ne_nil _ _
  rcases bindParams_same params g.functions.length 0 v hopened hbound with
    ⟨g1, h1, h2, hne, hall, hrefused⟩ | ⟨t, t', h1, h2, he⟩
  · rw [hrefused, if_neg (by simp), h1]
    show Meets v bound _ _ (bindParams g.functions.length params 0 _ >>= _)
    rw [h2]
    have hmeets := hbody (g := g1) ⟨hne, hall, by simp⟩
    cases huse : body.firstUse (params ++ bound) false with
    | error use =>
        rw [huse] at hmeets
        cases use with
        | reads => trivial
        | sets | throws => exact SameResult.bind hmeets _
    | ok closed' =>
        rw [huse] at hmeets
        obtain ⟨g2, hg2, hg2', hbefore⟩ := hmeets
        cases closed' with
        | false => trivial
        | true =>
            -- the body has returned, so its value is not read
            have hterm := hbefore.closed rfl
            have hkeep : g2.returnUnlessTerminated g2.lastValue = g2 := if_pos hterm
            have hkeep' : (g2.setLast v).returnUnlessTerminated v = g2.setLast v := if_pos hterm
            show SameResult (visit M L body g1 >>= _) (visit M L body (g1.setLast v) >>= _)
            rw [hg2, hg2']
            show SameResult (leaveFunction g g2) (leaveFunction g (g2.setLast v))
            obtain ⟨l, ls, hs⟩ := List.exists_cons_of_ne_nil hbefore.scopes
            have hpop : g2.popScope = .ok { g2 with scopeStack := ls } := by rw [popScope, hs]
            have hpop' : (g2.setLast v).popScope = .ok { g2 with scopeStack := ls, lastValue := v } := by
              rw [popScope, show (g2.setLast v).scopeStack = l :: ls from hs]
              rfl
            simp only [leaveFunction, hkeep]
            rw [show (g2.setLast v).lastValue = v from rfl, hkeep', hpop, hpop']
            exact .ok _
  · rw [h1]
    show Meets v bound _ _ (bindParams g.functions.length params 0 _ >>= _)
    rw [h2]
    have hsame : SameResult (Except.error t >>= fun g' => visit M L body g' >>= leaveFunction g)
        (Except.error t' >>= fun g' => visit M L body g' >>= leaveFunction g) := .error he
    split
    · exact hsame
    · cases huse : body.firstUse (params ++ bound) false with
      | error use => exact .same hsame
      | ok closed' => exact .same hsame

mutual

/-- **What comes first in an expression.** -/
theorem visit_meets : ∀ (e : Expression) {g : CodeGenerator} {bound : List Name} {closed : Bool},
    Before bound closed g →
      Meets v bound (e.firstUse bound closed) (visit M L e g) (visit M L e (g.setLast v))
  | .number n, g, _, _, _ => SameResult.ok (g.visitNumber n)
  | .var x, _, _, _, _ => visitVariable_same x
  | .assignmentExpr _ e, _, _, _, hg => (visit_meets e hg).then_reads _
  | .binaryOperator _ a _, _, _, _, hg => (visit_meets a hg).then_reads _
  | .unaryOperator _ e, _, _, _, hg => (visit_meets e hg).then_reads _
  | .input, _, _, _, hg => visitInput_same hg.scopes
  | .blockExpr ss, _, _, _, hg => visitStmts_meets ss hg
  | .func _ _ body, _, _, _, hg => func_meets hg (fun hg' => visit_meets body hg')
  | .call t _, _, _, _, hg => (visit_meets t hg).then_reads _

/-- So does a statement. -/
theorem visitStmt_meets : ∀ (s : Statement) {g : CodeGenerator} {bound : List Name} {closed : Bool},
    Before bound closed g →
      Meets v bound (s.firstUse bound closed) (visitStmt M L s g) (visitStmt M L s (g.setLast v))
  | .emptyStmt, g, _, _, hg => ⟨g, rfl, rfl, hg⟩
  | .exprStmt e, _, _, _, hg => visit_meets e hg
  | .ifStmt c _ none, _, _, _, hg => (visit_meets c hg).then_reads _
  | .ifStmt c _ (some _), _, _, _, hg => (visit_meets c hg).then_reads _
  | .whileStmt _ _, _, _, _, _ => SameResult.refl _
  | .printStmt e, _, _, _, hg => (visit_meets e hg).then_reads _
  | .returnStmt none, g, _, _, hg =>
      ⟨g.createRet (.const (.int 0)), rfl, rfl, hg.scopes, hg.bound, fun _ => terminated_createRet _⟩
  | .returnStmt (some e), _, _, _, hg => (visit_meets e hg).then_reads _

/-- So do statements in a row. -/
theorem visitStmts_meets : ∀ (ss : List Statement) {g : CodeGenerator} {bound : List Name} {closed : Bool},
    Before bound closed g →
      Meets v bound (firstUseStmts bound ss closed) (visitStmts M L ss g) (visitStmts M L ss (g.setLast v))
  | [], g, _, _, hg => ⟨g, rfl, rfl, hg⟩
  | s :: ss, g, bound, closed, hg => by
      have hs := visitStmt_meets s hg
      rw [firstUseStmts]
      show Meets v bound _ (visitStmt M L s g >>= visitStmts M L ss)
        (visitStmt M L s (g.setLast v) >>= visitStmts M L ss)
      cases huse : s.firstUse bound closed with
      | error use =>
          rw [huse] at hs
          cases use with
          | reads => trivial
          | sets | throws => exact SameResult.bind hs _
      | ok closed' =>
          rw [huse] at hs
          obtain ⟨g', hg', hg'', hbefore⟩ := hs
          rw [hg', hg'']
          exact visitStmts_meets ss hbefore

end

/-- `visit(Program)` where the constructor has left `v` in `last_value_`. -/
def visitProgramFrom (M : Llvm) (L : Lowering) (v : Value) (p : Program) : Except Thrown CodeGenerator := do
  let g ← visitStmts M L p.stmts ((enterMain M).setLast v)
  return g.returnUnlessTerminated (.const (.int 0))

/-- **The first value of `last_value_`** makes no difference to the module or to what is thrown, if it is not
    read. -/
theorem visitProgram_setLast {p : Program} (h : ¬ p.ReadsUnset) (v : Value) :
    (∃ g w, visitProgram M L p = .ok g ∧ visitProgramFrom M L v p = .ok (g.setLast w)) ∨
      ∃ t t', visitProgram M L p = .error t ∧ visitProgramFrom M L v p = .error t' ∧ t.error = t'.error := by
  have hbefore : Before [] false (enterMain M) := ⟨List.cons_ne_nil _ _, by simp, by simp⟩
  have hmeets := visitStmts_meets (M := M) (L := L) (v := v) p.stmts hbefore
  have hp : visitProgram M L p = (visitStmts M L p.stmts (enterMain M)).bind
      fun g => .ok (g.returnUnlessTerminated (.const (.int 0))) := rfl
  have hp' : visitProgramFrom M L v p = (visitStmts M L p.stmts ((enterMain M).setLast v)).bind
      fun g => .ok (g.returnUnlessTerminated (.const (.int 0))) := rfl
  rw [hp, hp']
  cases huse : firstUseStmts [] p.stmts false with
  | ok closed =>
      rw [huse] at hmeets
      obtain ⟨g, hg, hg', _⟩ := hmeets
      rw [hg, hg']
      refine .inl ⟨_, v, rfl, ?_⟩
      show Except.ok ((g.setLast v).returnUnlessTerminated _) = _
      unfold returnUnlessTerminated
      rw [show (g.setLast v).terminated = g.terminated from rfl]
      split <;> rfl
  | error use =>
      have hsame : SameResult (visitStmts M L p.stmts (enterMain M))
          (visitStmts M L p.stmts ((enterMain M).setLast v)) := by
        rw [huse] at hmeets
        cases use with
        | reads => exact absurd huse h
        | sets | throws => exact hmeets
      generalize visitStmts M L p.stmts (enterMain M) = r, visitStmts M L p.stmts ((enterMain M).setLast v) = r'
        at hsame
      cases hsame with
      | ok g => exact .inl ⟨_, _, rfl, rfl⟩
      | error he => exact .inr ⟨_, _, rfl, rfl, he⟩

end CodeGenerator

/-! ## Where values are what they should be -/

section Kinds

open ParaCL.Language

variable {σ : Signature} {o acc : Effect} {use : Except FirstUse Bool} {closed : Bool}

/-- What is known of the part of a text before the first use, from what it comes to. -/
structure Unused (o : Effect) (use : Except FirstUse Bool) : Prop where
  reads : use ≠ .error .reads
  value : ∀ k, o = .value k → ∀ closed, use ≠ .ok closed
  never : o = .never → use ≠ .ok false

/-- What is known where a list of statements goes on without having used the member. -/
structure Open (acc : Effect) (closed : Bool) : Prop where
  value : ∀ k, acc ≠ .value k
  never : acc = .never → closed = true

theorem Unused.error {e : FirstUse} (h : e ≠ .reads) : Unused o (.error e) where
  reads he := h (by cases he; rfl)
  value _ _ _ he := by cases he
  never _ he := by cases he

/-- A value that is set is not the one from before. -/
theorem Unused.sets : Unused o (.error .sets) := .error (by decide)

theorem Open.unused (h : Open acc closed) : Unused acc (.ok closed) where
  reads he := by cases he
  value k hk := absurd hk (h.value k)
  never hacc he := by
    cases he
    cases h.never hacc

theorem Unused.open (h : Unused o (.ok closed)) : Open o closed where
  value k hk := h.value k hk closed rfl
  never hno := by
    cases closed with
    | true => rfl
    | false => exact absurd rfl (h.never hno)

/-- Before a read something that comes to a value has set the member. -/
theorem Unused.then_reads {k : Kind} (h : Unused (.value k) use) :
    Unused o (do let _ ← use; throw .reads) := by
  cases use with
  | ok closed => exact absurd rfl (h.value k rfl closed)
  | error e => exact .error fun he => h.reads (congrArg Except.error he)

/-- The value of a body is read unless the body has returned, and a body without a value has. -/
theorem Unused.func {name : Option Name} {bound ps : List Name} {body : Expression}
    (ho : o = .value .number ∨ o = .never) (h : Unused o (body.firstUse (ps ++ bound) false)) :
    Unused acc ((Expression.func name ps body).firstUse bound closed) := by
  rw [Expression.firstUse]
  split
  · exact .error (by decide)
  · cases huse : body.firstUse (ps ++ bound) false with
    | error e => exact .error fun he => h.reads (by rw [huse, he])
    | ok closed' =>
        rw [huse] at h
        rcases ho with hvalue | hnever
        · exact absurd rfl (h.value _ hvalue closed')
        · rw [h.open.never hnever]
          exact .sets

/-- Behind a statement the block may be open. -/
theorem Open.nothing : Open .nothing closed := ⟨fun _ h => (by cases h), fun h => (by cases h)⟩

mutual

/-- **An expression of a kind sets its value** before anything reads it. -/
theorem Kinded.unused : ∀ {e : Expression} {o : Effect} (bound : List Name) (closed : Bool),
    Kinded σ e o → Unused o (e.firstUse bound closed)
  | _, _, _, _, .number => .sets
  | _, _, _, _, .input => .sets
  | _, _, _, _, .var _ => .sets
  | _, _, _, _, .name _ => .sets
  | _, _, bound, closed, .assignment _ he => (Kinded.unused bound closed he).then_reads
  | _, _, bound, closed, .binary ha _ => (Kinded.unused bound closed ha).then_reads
  | _, _, bound, closed, .unary he => (Kinded.unused bound closed he).then_reads
  | _, _, bound, _, .block hss => KindedStmts.unused bound .nothing hss
  | .func _ ps _, _, bound, _, .func _ _ hbody ho => (Kinded.unused (ps ++ bound) false hbody).func ho
  | _, _, bound, closed, .call ht _ => (Kinded.unused bound closed ht).then_reads

/-- So does a statement, once there is a value. -/
theorem KindedStmt.unused : ∀ {s : Statement} {acc o : Effect} {closed : Bool} (bound : List Name),
    Open acc closed → KindedStmt σ s acc o → Unused o (s.firstUse bound closed)
  | _, _, _, _, _, hopen, .empty => hopen.unused
  | _, _, _, closed, bound, _, .expr he => Kinded.unused bound closed he
  | _, _, _, closed, bound, _, .ifThen hc _ => (Kinded.unused bound closed hc).then_reads
  | _, _, _, closed, bound, _, .ifElse hc _ _ => (Kinded.unused bound closed hc).then_reads
  | _, _, _, closed, bound, _, .ifNever hc _ _ => (Kinded.unused bound closed hc).then_reads
  | _, _, _, _, _, _, .whileLoop _ _ => .sets
  | _, _, _, closed, bound, _, .print he => (Kinded.unused bound closed he).then_reads
  | _, _, _, _, _, _, .returnNone => Open.unused ⟨fun _ h => (by cases h), fun _ => rfl⟩
  | _, _, _, closed, bound, _, .returnSome he => (Kinded.unused bound closed he).then_reads

/-- So do the statements of a block. -/
theorem KindedStmts.unused : ∀ {ss : List Statement} {acc o : Effect} {closed : Bool} (bound : List Name),
    Open acc closed → KindedStmts σ ss acc o → Unused o (firstUseStmts bound ss closed)
  | _, _, _, _, _, hopen, .nil => hopen.unused
  | s :: ss, _, _, closed, bound, hopen, .cons hs hss => by
      have hu := KindedStmt.unused bound hopen hs
      rw [firstUseStmts]
      cases huse : s.firstUse bound closed with
      | error e => exact .error fun he => hu.reads (by rw [huse, he])
      | ok closed' =>
          rw [huse] at hu
          exact KindedStmts.unused bound hu.open hss

end

/-- **Where what is used as a value comes to one**, `last_value_` is set before it is read. -/
theorem Program.WellKinded.sets_first {p : Program} (h : p.WellKinded) : ¬ p.ReadsUnset := by
  obtain ⟨vars, o, hss⟩ := h
  exact (KindedStmts.unused [] .nothing hss).reads

end Kinds

end ParaCL
