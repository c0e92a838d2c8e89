import ParaCL.Codegen.Run
import ParaCL.Codegen.MainOnly
import ParaCL.Lib.Simulation

/-!
# `Codegen.Evaluation` — the code of an expression computes its value

Expressions without blocks, functions, calls and input, under any lowering whose operators compute what an
interpretation says (`Lowers`): the machine takes the code of the expression to the interpreter's value and
name table, or to the interpreter's fault.
-/

namespace ParaCL

open Lib

open CodeGenerator (emit visit)

/-- The lowering computes what the interpretation says, where it says something; where it does not, the
    machine gets to a configuration that `F` allows for the fault. -/
structure Lowers (M : Llvm) (L : Lowering) (gf : CodeGenerator) (E : Env) (I : Interpretation)
    (F : Fault → SimState → Config → Prop) : Prop where
  binary : ∀ {g : CodeGenerator} {c : Config} {op : BinaryOperators} {l r : Value}
    {a b v : Number}, g.Ready → Extends (emit M (L.binary op l r) g).2 gf → At gf g c →
    Known g c l (.int a) → Known g c r (.int b) → I.binary op a b = some v →
    Finds gf E g (emit M (L.binary op l r) g).2 c (emit M (L.binary op l r) g).1 (.int v)
  unary : ∀ {g : CodeGenerator} {c : Config} {op : UnaryOperators} {l : Value}
    {a v : Number}, g.Ready → Extends (emit M (L.unary op l) g).2 gf → At gf g c →
    Known g c l (.int a) → I.unary op a = some v →
    Finds gf E g (emit M (L.unary op l) g).2 c (emit M (L.unary op l) g).1 (.int v)
  binaryFault : ∀ {g : CodeGenerator} {s : SimState} {c : Config} {op : BinaryOperators} {l r : Value}
    {a b : Number}, g.Ready → Extends (emit M (L.binary op l r) g).2 gf → At gf g c → Corresponds gf s c →
    Known g c l (.int a) → Known g c r (.int b) → I.binary op a b = none →
    ∃ c', Star (step gf E) c c' ∧ F (.binary op a b) s c'
  unaryFault : ∀ {g : CodeGenerator} {s : SimState} {c : Config} {op : UnaryOperators} {l : Value}
    {a : Number}, g.Ready → Extends (emit M (L.unary op l) g).2 gf → At gf g c → Corresponds gf s c →
    Known g c l (.int a) → I.unary op a = none → ∃ c', Star (step gf E) c c' ∧ F (.unary op a) s c'
  unknown : ∀ x s c, F (.unknownVariable x) s c

/-- The names in scope: a variable with a value is not taken for a function, and slots are for integers. -/
structure Declares (g : CodeGenerator) (s : SimState) : Prop where
  notFunction : ∀ x v, s.nametable x = some v → (g.lookup x).isSome ∨ g.functionTable x = none
  integers : ∀ x a, g.lookup x = some a → a.ty = .i32

/-- After the code of an expression: the machine knows the value, and still all that it had computed. -/
structure Evaluated (gf g g' : CodeGenerator) (c : Config) (w : Constant) (s' : SimState)
    (c' : Config) : Prop where
  arrives : At gf g' c'
  memory : Corresponds gf s' c'
  result : Known g' c' g'.lastValue w
  names : Declares g' s'
  args : c'.top.args = c.top.args
  regs : ∀ id < g.nextId, c'.top.regs id = c.top.regs id

variable {M : Llvm} {L : Lowering} {gf : CodeGenerator} {E E' : Env}
  {F : Fault → SimState → Config → Prop} {O : SimState → Config → Prop} {fuel : Nat}

theorem Known.mono {g1 g2 : CodeGenerator} {c c' : Config} {v : Value} {w u : Constant}
    {s' : SimState} (h : Known g1 c v w) (he : Evaluated gf g1 g2 c u s' c') (hid : g1.nextId ≤ g2.nextId) :
    Known g2 c' v w where
  value := by
    have hv := h.value
    have hb := h.below
    cases v with
    | inst id ty => exact (he.regs id hb).trans hv
    | arg f index =>
        have hargs : c'.top.args[index]? = c.top.args[index]? := by rw [he.args]
        exact hargs.trans hv
    | const | slot | unset => exact hv
  ty := h.ty
  below := h.below.mono hid

theorem Known.setSlot {g : CodeGenerator} {c : Config} {v : Value} {w u : Constant} {id : Nat}
    {rest : List Instruction} (h : Known g c v w) : ((c.setCode rest).setSlot id u).value v = some w := by
  have hvalue := h.value
  cases v with
  | inst | arg | const | slot | unset => exact hvalue

theorem Finds.setLast {g g' : CodeGenerator} {c : Config} {u v : Value} {w : Constant}
    (h : Finds gf E g g' c v w) : Finds gf E g (g'.setLast u) c v w := by
  obtain ⟨c', hc, hk⟩ := h
  exact ⟨c', { hc with arrives := hc.arrives }, { hk with below := hk.below }⟩

theorem Finds.evaluated {g g1 g' : CodeGenerator} {c c1 : Config} {w : Constant} {s : SimState}
    {v : Value} (hid : g.nextId ≤ g1.nextId) (hmem : Corresponds gf s c1)
    (hnames : Declares g' s) (hargs : c1.top.args = c.top.args)
    (hregs : ∀ id < g.nextId, c1.top.regs id = c.top.regs id)
    (hlast : g'.lastValue = v) (h : Finds gf E g1 g' c1 v w) :
    ∃ c', Star (step gf E) c1 c' ∧ Evaluated gf g g' c w s c' := by
  obtain ⟨c', hc, hk⟩ := h
  refine ⟨c', hc.steps, hc.arrives, hc.corresponds hmem, hlast ▸ hk, hnames, hc.args.trans hargs,
    fun id hlt => ?_⟩
  exact (hc.regs id (Nat.lt_of_lt_of_le hlt hid)).trans (hregs id hlt)

/-- Code that leaves the tables alone. -/
theorem Declares.same {g g' : CodeGenerator} {s : SimState} (h : Declares g s)
    (hscopes : g'.scopeStack = g.scopeStack) (hfun : g'.functionTable = g.functionTable) : Declares g' s := by
  have hlookup (x : Name) : g'.lookup x = g.lookup x := by
    unfold CodeGenerator.lookup
    rw [hscopes]
  exact ⟨fun x v hx => by rw [hlookup, hfun]; exact h.notFunction x v hx,
    fun x a hx => h.integers x a ((hlookup x).symm.trans hx)⟩

theorem emit_tables {α : Type} (m : Emit α) (g : CodeGenerator) :
    (emit M m g).2.scopeStack = g.scopeStack ∧ (emit M m g).2.functionTable = g.functionTable := by
  induction m generalizing g with
  | pure a => exact ⟨rfl, rfl⟩
  | create opcode args next ih =>
      unfold emit
      split
      · exact ih _ g
      · exact ih _ (g.insert _)

theorem Declares.emitLast {g : CodeGenerator} {s : SimState} {m : Emit Value} (h : Declares g s) :
    Declares (g.emitLast M m) s := h.same (emit_tables m g).1 (emit_tables m g).2

/-- The code of a variable that has a slot. -/
theorem load_steps {g : CodeGenerator} {s : SimState} {c : Config} {x : Name} {a : AllocaInst}
    (hl : g.lookup x = some a) (hr : g.Ready) (hext : Extends (g.createLoad a) gf) (hat : At gf g c)
    (hmem : Corresponds gf s c) (hnames : Declares g s) :
    ∃ c', Star (step gf E) c c' ∧ Evaluated gf g (g.createLoad a) c (cell (s.nametable x)) s c' := by
  have hframe := (CodeGenerator.createLoad_grown a hr).frame
  have hslot := hmem.cells x a ((hframe.extends.trans hext).lookup x a hl)
  have hty : a.ty = (cell (s.nametable x)).ty := by
    rw [hnames.integers x a hl]
    cases s.nametable x <;> rfl
  have hfinds := load_finds (E := E) hat hr hext hslot hty
  exact hfinds.evaluated (Nat.le_refl _) hmem (hnames.same rfl rfl) rfl (fun _ _ => rfl) rfl

/-- The code of a variable. -/
theorem var_realizes {g g' : CodeGenerator} {s : SimState} {c : Config}
    (hunknown : ∀ x s c, F (.unknownVariable x) s c) (x : Name) (hv : g.visitVariable x = .ok g')
    (hr : g.Ready) (hext : Extends g' gf) (hat : At gf g c) (hmem : Corresponds gf s c)
    (hnames : Declares g s) :
    Realizes (step gf E) F O fuel c (visitVariable x s)
      (fun v s' c' => Evaluated gf g g' c (.int v) s' c') := by
  cases hx : s.nametable x with
  | none =>
      have hrun : visitVariable x s = .fault (.unknownVariable x) s := by
        rw [visitVariable, Prog.gets_bind, hx]
        rfl
      rw [hrun]
      exact ⟨c, .refl c, hunknown x s c⟩
  | some n =>
      rw [visitVariable_some hx]
      unfold CodeGenerator.visitVariable at hv
      cases hl : g.lookup x with
      | some a =>
          rw [hl] at hv
          cases hv
          obtain ⟨c', hs, he⟩ := load_steps (E := E) hl hr hext hat hmem hnames
          rw [hx] at he
          exact ⟨c', hs, he⟩
      | none =>
          -- it would be taken for a function
          have hnone := (hnames.notFunction x n hx).resolve_left (by rw [hl]; simp)
          rw [hl, hnone] at hv
          cases hv

/-- Taking a slot emits nothing at the insertion point. -/
theorem slotFor_at {g : CodeGenerator} {s : SimState} (gf : CodeGenerator) (x : Name) (hr : g.Ready)
    (hnames : Declares g s) :
    ∃ a g1, g.slotFor x .i32 = .ok (a, g1) ∧ CodeGenerator.Grown g g1 ∧ g1.lookup x = some a ∧
      (∀ c, At gf g c → At gf g1 c) ∧ g1.lastValue = g.lastValue ∧ Declares g1 s := by
  rcases CodeGenerator.slotFor_cases hr.scopes with ⟨a, hl, h⟩ | ⟨hl, h⟩
  · exact ⟨a, g, h, .refl hr, hl, fun _ => id, rfl, hnames⟩
  · have hg := CodeGenerator.Grown.addSlot .i32 hr hl
    have hself : (g.addSlot x .i32).lookup x = some (g.newSlot .i32) := Tables.lookup_put_self hr.scopes
    refine ⟨_, _, h, hg, hself, fun c hat => ?_, rfl, fun y v hy => ?_, fun y b hy => ?_⟩
    · have hbody : (g.addSlot x .i32).block.body = g.block.body :=
        CodeGenerator.createEntryAlloca_body .i32 hr g.insertBlock
      unfold At at hat ⊢
      rw [hbody]
      exact hat
    · refine (hnames.notFunction y v hy).imp_left (fun hsome => ?_)
      obtain ⟨b, hb⟩ := Option.isSome_iff_exists.mp hsome
      rw [hg.frame.lookup y b hb]
      rfl
    · by_cases hyx : y = x
      · subst hyx
        rw [hself] at hy
        cases hy
        rfl
      · exact hnames.integers y b ((Tables.lookup_put_ne hyx).symm.trans hy)

/-- The code of an assignment after its value. -/
theorem assign_steps {g g1 g' : CodeGenerator} {s : SimState} {c c1 : Config} {w : Constant} (hgf : gf.Ready)
    (x : Name) (hv : g1.assign x = .ok g') (hr : g1.Ready) (hext : Extends g' gf) (he : Evaluated gf g g1 c w s c1)
    (hw : w.Fits .i32) : ∃ c', Star (step gf E) c1 c' ∧ Evaluated gf g g' c w (s.put x w.number?) c' := by
  obtain ⟨a, g2, hslot, hg2, hl, hat, hlast, hnames⟩ := slotFor_at gf x hr he.names
  have hg' : g' = g2.createStore g1.lastValue a := by
    rw [CodeGenerator.assign, he.result.ty, hw.2, hslot] at hv
    cases hv
    rfl
  subst hg'
  have hstore := CodeGenerator.createStore_grown g1.lastValue a hg2.ready
  have hgl := (hstore.frame.extends.trans hext).lookup x a hl
  have hcell := he.memory.cells x a hgl
  obtain ⟨rest, hstep, hat'⟩ := store_steps (E := E) (hat c1 he.arrives) hg2.ready hext he.result.value
    (by rw [hcell]; rfl) (hw.2.trans (hnames.integers x a hl).symm)
  have hbelow : g1.lastValue.Below (g2.createStore g1.lastValue a).nextId :=
    he.result.below.mono (Nat.le_trans hg2.frame.ids (Nat.le_succ _))
  have hlast' : (g2.createStore g1.lastValue a).lastValue = g1.lastValue := hlast
  refine ⟨_, .one hstep, hat', he.memory.put hgf hgl hw, ?_, ⟨fun y n hy => ?_, hnames.integers⟩, he.args,
    he.regs⟩
  · rw [hlast']
    exact ⟨he.result.setSlot, he.result.ty, hbelow⟩
  · by_cases hyx : y = x
    · subst hyx
      left
      show (g2.lookup y).isSome = true
      rw [hl]
      rfl
    · have hy' : s.nametable y = some n := by simpa [SimState.put, hyx] using hy
      exact hnames.notFunction y n hy'

/-- From wherever the generator is, the code of the expression evaluates it. -/
def ComputedBy (M : Llvm) (L : Lowering) (gf : CodeGenerator) (E E' : Env) (F : Fault → SimState → Config → Prop)
    (O : SimState → Config → Prop) (fuel : Nat) (e : Expression) : Prop :=
  ∀ (g g' : CodeGenerator) (s : SimState) (c : Config), visit M L e g = .ok g' → g.Ready → Extends g' gf →
    At gf g c → Corresponds gf s c → Declares g s →
    Realizes (step gf E) F O fuel c (ExpressionEvaluator.visit E' fuel e s)
      (fun v s' c' => Evaluated gf g g' c (.int v) s' c')

section Cases

variable {e e1 e2 : Expression} (hl : Lowers M L gf E E'.ops F) (hgf : gf.Ready)

include hgf in
theorem assignment_computed (x : Name) (ih : ComputedBy M L gf E E' F O fuel e) :
    ComputedBy M L gf E E' F O fuel (.assignmentExpr x e) := by
  intro g g' s c hv hr hext hat hmem hn
  obtain ⟨g1, h1, h2⟩ := bind_ok_iff.mp hv
  have hg1 := (CodeGenerator.visit_grows e hr).of_ok h1
  have hg2 := (CodeGenerator.assign_grows x hg1.ready).of_ok h2
  rw [ExpressionEvaluator.visit]
  refine (ih g g1 s c h1 hr (hg2.frame.extends.trans hext) hat hmem hn).bind (fun n s1 c1 he => ?_)
  obtain ⟨c', hs, he'⟩ := assign_steps (E := E) hgf x h2 hg1.ready hext he ⟨rfl, rfl⟩
  exact Realizes.of_star hs (Realizes.done he')

include hl in
theorem unary_computed (op : UnaryOperators) (ih : ComputedBy M L gf E E' F O fuel e) :
    ComputedBy M L gf E E' F O fuel (.unaryOperator op e) := by
  intro g g' s c hv hr hext hat hmem hn
  obtain ⟨g1, h1, hv⟩ := bind_ok_iff.mp hv
  cases hv
  have hg1 := (CodeGenerator.visit_grows e hr).of_ok h1
  have hop := CodeGenerator.Grown.emit (M := M) (L.unary op g1.lastValue) hg1.ready
  have hext1 : Extends (emit M (L.unary op g1.lastValue) g1).2 gf := hext.of_setLast
  rw [ExpressionEvaluator.visit]
  refine (ih g g1 s c h1 hr (hop.frame.extends.trans hext1) hat hmem hn).bind (fun m s1 c1 he => ?_)
  unfold applyUnary
  cases hI : E'.ops.unary op m with
  | none => exact hl.unaryFault hg1.ready hext1 he.arrives he.memory he.result hI
  | some v =>
      have hfinds := hl.unary hg1.ready hext1 he.arrives he.result hI
      obtain ⟨c', hs, he'⟩ := hfinds.setLast.evaluated hg1.frame.ids he.memory
        he.names.emitLast he.args he.regs rfl
      exact Realizes.of_star hs (Realizes.done he')

include hl in
theorem binary_computed (op : BinaryOperators) (ih1 : ComputedBy M L gf E E' F O fuel e1)
    (ih2 : ComputedBy M L gf E E' F O fuel e2) :
    ComputedBy M L gf E E' F O fuel (.binaryOperator op e1 e2) := by
  intro g g' s c hv hr hext hat hmem hn
  obtain ⟨g1, h1, hv⟩ := bind_ok_iff.mp hv
  obtain ⟨g2, h2, hv⟩ := bind_ok_iff.mp hv
  cases hv
  have hg1 := (CodeGenerator.visit_grows e1 hr).of_ok h1
  have hg2 := (CodeGenerator.visit_grows e2 hg1.ready).of_ok h2
  have hop := CodeGenerator.Grown.emit (M := M) (L.binary op g1.lastValue g2.lastValue) hg2.ready
  have hext2 : Extends (emit M (L.binary op g1.lastValue g2.lastValue) g2).2 gf := hext.of_setLast
  have hextg2 := hop.frame.extends.trans hext2
  rw [ExpressionEvaluator.visit]
  refine (ih1 g g1 s c h1 hr (hg2.frame.extends.trans hextg2) hat hmem hn).bind (fun m s1 c1 he1 => ?_)
  refine (ih2 g1 g2 s1 c1 h2 hg1.ready hextg2 he1.arrives he1.memory he1.names).bind
    (fun n s2 c2 he2 => ?_)
  have hleft := he1.result.mono he2 hg2.frame.ids
  have hid := Nat.le_trans hg1.frame.ids hg2.frame.ids
  have hregs : ∀ id < g.nextId, c2.top.regs id = c.top.regs id := fun id hlt =>
    (he2.regs id (Nat.lt_of_lt_of_le hlt hg1.frame.ids)).trans (he1.regs id hlt)
  unfold applyBinary
  cases hI : E'.ops.binary op m n with
  | none => exact hl.binaryFault hg2.ready hext2 he2.arrives he2.memory hleft he2.result hI
  | some v =>
      have hfinds := hl.binary hg2.ready hext2 he2.arrives hleft he2.result hI
      obtain ⟨c', hs, he'⟩ := hfinds.setLast.evaluated hid he2.memory
        he2.names.emitLast (he2.args.trans he1.args) hregs rfl
      exact Realizes.of_star hs (Realizes.done he')

include hl hgf in
/-- **Expressions.** The code of a plain expression evaluates it. -/
theorem plain_computed : ∀ e : Expression, e.isPlain → ComputedBy M L gf E E' F O fuel e
  | .number n, _ => by
      intro g g' s c hv hr hext hat hmem hn
      cases hv
      exact Realizes.done ⟨hat, hmem, ⟨rfl, rfl, trivial⟩, hn.same rfl rfl, rfl, fun _ _ => rfl⟩
  | .var x, _ => fun g g' s c hv hr hext hat hmem hn => var_realizes hl.unknown x hv hr hext hat hmem hn
  | .assignmentExpr x e, hp => assignment_computed hgf x (plain_computed e hp)
  | .binaryOperator op a b, hp =>
      binary_computed hl op (plain_computed a (Bool.and_eq_true_iff.mp hp).1)
        (plain_computed b (Bool.and_eq_true_iff.mp hp).2)
  | .unaryOperator op e, hp => unary_computed hl op (plain_computed e hp)

end Cases

end ParaCL
