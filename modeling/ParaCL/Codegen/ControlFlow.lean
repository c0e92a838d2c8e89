import ParaCL.Codegen.Evaluation
import ParaCL.Simulator.Safety

/-!
# `Codegen.ControlFlow` — the graph of blocks runs as the interpreter does

The lowering of branches and loops is correct for every meaning of the operators: each operator is one
instruction here, with the meaning the interpreter gives it. A statement is simulated from the point where
the generator starts it to the point where it has been generated; the simulation follows the syntax, and a
loop is entered with the invariant that the machine stands at the block of its condition.
-/

namespace ParaCL

open Lib

open CodeGenerator (emit visit visitStmt visitStmts openBlocks createBlocks InMain OnlyMain Frame Opens Pending)

variable {M : Llvm} {gf g g' g1 g2 : CodeGenerator} {E : Env} {fuel : Nat} {c c' : Config} {s s' : SimState}

/-! ## Operators -/

/-- How the machine ends at a fault of the interpreter. -/
def Fault.ending : Fault → Option Ending
  | .binary op a b => some (.undefined (.binary op) [.int a, .int b])
  | .unary op a => some (.undefined (.unary op) [.int a])
  | .unknownVariable _ => none

/-- The machine is at the operator that is undefined. -/
def FaultAt (gf : CodeGenerator) (E : Env) (e : Fault) (s : SimState) (c : Config) : Prop :=
  ∀ r, e.ending = some r → step gf E c = .inr r ∧ Corresponds gf s c

/-- The operators as instructions have the interpreter's meaning. -/
theorem abstract_lowers : Lowers M .abstract gf E E.ops (FaultAt gf E) where
  binary {g c op l r a b v} hr hext hat hl hb hv := by
    obtain ⟨hsome, _⟩ := op_step (E := E) (.binary op) .i32 hat hr hext (hl.mapM_pair hb)
    obtain ⟨c', hc, hw⟩ := hsome (.int v) (congrArg (Option.map Constant.int) hv)
    exact ⟨c', hc, hw, rfl, Nat.lt_succ_self _⟩
  unary {g c op l a v} hr hext hat hl hv := by
    obtain ⟨hsome, _⟩ := op_step (E := E) (.unary op) .i32 hat hr hext hl.mapM_one
    obtain ⟨c', hc, hw⟩ := hsome (.int v) (congrArg (Option.map Constant.int) hv)
    exact ⟨c', hc, hw, rfl, Nat.lt_succ_self _⟩
  binaryFault {g s c op l r a b} hr hext hat hmem hl hb hv := by
    obtain ⟨_, hnone⟩ := op_step (E := E) (.binary op) .i32 hat hr hext (hl.mapM_pair hb)
    refine ⟨c, .refl c, fun r h => ?_⟩
    cases h
    exact ⟨hnone (congrArg (Option.map Constant.int) hv), hmem⟩
  unaryFault {g s c op l a} hr hext hat hmem hl hv := by
    obtain ⟨_, hnone⟩ := op_step (E := E) (.unary op) .i32 hat hr hext hl.mapM_one
    refine ⟨c, .refl c, fun r h => ?_⟩
    cases h
    exact ⟨hnone (congrArg (Option.map Constant.int) hv), hmem⟩
  unknown x s c := by
    intro r h
    cases h

/-- The condition of a branch compares the value with zero. -/
theorem condition_finds {v : Number} (hs : M.Sound) (hr : g.Ready) (hext : Extends (g.condition M).2 gf)
    (hat : At gf g c) (hk : Known g c g.lastValue (.int v)) :
    Finds gf E g (g.condition M).2 c (g.condition M).1 (.bit (v != 0)) := by
  have hzero : Known g c (.const (.int 0)) (.int 0) := ⟨rfl, rfl, trivial⟩
  refine call_finds hs hat hr hext (hk.mapM_pair hzero) ?_ rfl rfl
  intro d hd
  rcases List.mem_cons.mp hd with rfl | hd
  · rfl
  · cases List.mem_singleton.mp hd
    rfl

/-! ## Jumps -/

/-- At the beginning of a block other than the first. -/
theorem At.enter (hm : gf.OnlyMain) (hb : g.insertBlock < gf.blockCount) (hne : g.insertBlock ≠ 0)
    (he : g.block.body = []) (c : Config) : At gf g (goTo gf g.insertBlock c) := by
  show (gf.blocks g.insertBlock).instrs = _
  rw [hm.instrs_eq hb hne, he]
  rfl

theorem Corresponds.goTo {b : Nat} (h : Corresponds gf s c) : Corresponds gf s (goTo gf b c) :=
  ⟨h.cells, h.known, h.printed, h.callers⟩

theorem At.createBlocks {n : Nat} (h : At gf g c) (hr : g.Ready) : At gf (createBlocks n g) c := by
  have hb := CodeGenerator.createBlocks_blocks n g
  unfold At CodeGenerator.block at h ⊢
  rw [hb.point, hb.old _ hr.insertLt]
  exact h

/-- A conditional branch goes to one of its two blocks. -/
theorem branch_step {n a b : Nat} {cond : Value} {t : Bool}
    (hext : Extends (openBlocks n (.condBr cond a b) g) gf) (hr : g.Ready) (hat : At gf g c)
    (hv : c.value cond = some (.bit t)) : step gf E c = .inl (goTo gf (if t then a else b) c) := by
  have hr1 := (CodeGenerator.Grown.createBlocks n hr).ready
  have hext1 : Extends ((createBlocks n g).insert (.condBr cond a b)) gf := { hext with }
  obtain ⟨rest, hcode, _⟩ := (hat.createBlocks (n := n) hr).next hr1 hext1
  have hv' : (c.setCode rest).value cond = some (.bit t) := hv
  rw [step_cons hcode]
  simp only [execute, hv']
  rfl

/-- A branch goes to its block. -/
theorem jump_step {b : Nat} (hext : Extends (g.createBr b) gf) (hr : g.Ready) (hat : At gf g c) :
    step gf E c = .inl (goTo gf b c) := by
  obtain ⟨rest, hcode, _⟩ := hat.next (i := .br b) hr hext
  rw [step_cons hcode]
  rfl

/-! ## Printing -/

theorem getFunc_at {name : String} (h : At gf g c) : At gf (g.getFunc name).2 c := by
  unfold CodeGenerator.getFunc
  cases g.functions.findIdx? (fun f => f.name = name) <;> exact h

/-- `printf` is not a function of the module. -/
theorem print_step {v : Number} (hm : gf.OnlyMain) (hext : Extends g.print gf) (hr : g.Ready)
    (hat : At gf g c) (hk : Known g c g.lastValue (.int v)) :
    ∃ c', step gf E c = .inl c' ∧ At gf g.print c' ∧
      ∀ s, Corresponds gf s c → Corresponds gf (s.print v) c' := by
  obtain ⟨f, hf, hname⟩ := CodeGenerator.getFunc_spec "printf" g
  have hr1 := (CodeGenerator.Grown.getFunc "printf" hr).ready
  have hext1 : Extends ((g.getFunc "printf").2.insert (.call (g.getFunc "printf").2.nextId 2
      (.const (.func (g.getFunc "printf").1)) [.const (.str "%d\n"), g.lastValue])) gf := { hext with }
  obtain ⟨rest, hcode, hrest⟩ := (getFunc_at hat).next hr1 hext1
  have hfun : gf.functions[(g.getFunc "printf").1]? = some f := by
    obtain ⟨fs, hfs⟩ := hext1.functions
    have hlt : (g.getFunc "printf").1 < (g.getFunc "printf").2.functions.length :=
      (List.getElem?_eq_some_iff.mp hf).1
    rw [← hfs]
    exact (List.getElem?_append_left hlt).trans hf
  -- function 0 is `main`, and its name is another one
  have hne : (g.getFunc "printf").1 ≠ 0 := by
    intro h0
    obtain ⟨fs, n, hmain⟩ := hm.main
    rw [h0, hmain] at hfun
    cases hfun
    have hmain : "main" = "printf" := hname
    exact absurd hmain (by decide)
  have hv : (c.setCode rest).value g.lastValue = some (.int v) := hk.value
  refine ⟨((c.setCode rest).print v).setReg (g.getFunc "printf").2.nextId (.int (printfResult v)), ?_, hrest,
    fun s hs => ⟨hs.cells, hs.known, ?_, hs.callers⟩⟩
  · rw [step_cons hcode]
    have hcallee : (c.setCode rest).value (.const (.func (g.getFunc "printf").1)) =
        some (.func (g.getFunc "printf").1) := rfl
    simp only [execute, callFunction, hcallee, hfun, hm.no_block hne, hname, callExternal, if_true, hv,
      orInvalid]
  · show c.printed ++ [v] = s.printed ++ [v]
    rw [hs.printed]

/-! ## Statements -/

/-- From the point `g` to the point `g'` the machine does what the program does. -/
def Simulated (gf : CodeGenerator) (E : Env) (fuel : Nat) (g g' : CodeGenerator) {α : Type}
    (m : Prog Fault SimState α) : Prop :=
  ∀ s c, At gf g c → Corresponds gf s c →
    Realizes (step gf E) (FaultAt gf E) (Corresponds gf) fuel c (m s)
      (fun _ s' c' => At gf g' c' ∧ Corresponds gf s' c')

theorem Simulated.pure {α : Type} (a : α) : Simulated gf E fuel g g (pure a) :=
  fun _ _ hat hmem => Realizes.done ⟨hat, hmem⟩

theorem Simulated.bind {α β : Type} {m : Prog Fault SimState α} {f : α → Prog Fault SimState β}
    (hm : Simulated gf E fuel g g1 m) (hf : ∀ a, Simulated gf E fuel g1 g' (f a)) :
    Simulated gf E fuel g g' (m >>= f) :=
  fun s c hat hmem => (hm s c hat hmem).bind (fun a s1 c1 h1 => hf a s1 c1 h1.1 h1.2)

/-- The value of a program does not matter here. -/
theorem Simulated.of_discard {α : Type} {m : Prog Fault SimState α}
    (h : Simulated gf E fuel g g' (m >>= fun _ => (Pure.pure () : Prog Fault SimState Unit))) :
    Simulated gf E fuel g g' m := by
  intro s c hat hmem
  have hend := h s c hat hmem
  cases hrun : m s with
  | done a s1 =>
      rw [Prog.bind_done hrun] at hend
      exact hend
  | fault e s1 =>
      rw [Prog.bind_fault hrun] at hend
      exact hend
  | timeout s1 =>
      rw [Prog.bind_timeout hrun] at hend
      exact hend

/-- A plain expression. -/
theorem plain_simulated {e : Expression} (hm : gf.OnlyMain) (hp : e.isPlain) (h : g.InMain)
    (hv : visit M .abstract e g = .ok g') (hext : Extends g' gf) (hat : At gf g c) (hmem : Corresponds gf s c) :
    Realizes (step gf E) (FaultAt gf E) (Corresponds gf) fuel c (ExpressionEvaluator.visit E fuel e s)
      (fun v s' c' => Evaluated gf g g' c (.int v) s' c') := by
  have hnames : Declares g s := ⟨fun x v _ => .inr (h.noFunctions x), fun x a hx => by
    obtain ⟨l, hl, ha⟩ := Tables.mem_of_lookup hx
    exact h.types a (CodeGenerator.mem_slots hl ha)⟩
  exact plain_computed abstract_lowers hm.ready e hp g g' s c hv h.ready hext hat hmem hnames

/-- A condition and the branch on it. -/
theorem condition_simulated {e : Expression} {n a b : Nat} (hs : M.Sound) (hm : gf.OnlyMain) (hp : e.isPlain)
    (h : g.InMain) (hv : visit M .abstract e g = .ok g')
    (hext : Extends (openBlocks n (.condBr (g'.condition M).1 a b) (g'.condition M).2) gf) (hat : At gf g c)
    (hmem : Corresponds gf s c) :
    Realizes (step gf E) (FaultAt gf E) (Corresponds gf) fuel c (ExpressionEvaluator.visit E fuel e s)
      (fun v s' c' => Corresponds gf s' c' ∧
        step gf E c' = .inl (goTo gf (if v != 0 then a else b) c')) := by
  have hr := (CodeGenerator.plain_inMain (Lowering.abstract_integral M) e hp h hv).ready
  obtain ⟨hg, _⟩ := CodeGenerator.condition_grown (M := M) hr
  have hblocks := (CodeGenerator.Grown.createBlocks n hg.ready).frame.extends
  have hinsert : Extends (createBlocks n (g'.condition M).2) gf :=
    (CodeGenerator.Frame.insert _ (.condBr (g'.condition M).1 a b)).extends.trans { hext with }
  have hext1 := hblocks.trans hinsert
  refine (plain_simulated hm hp h hv (hg.frame.extends.trans hext1) hat hmem).extend (fun v s1 c1 he => ?_)
  obtain ⟨c2, hc2, hk⟩ := condition_finds (E := E) hs hr hext1 he.arrives he.result
  exact ⟨c2, hc2.steps, hc2.corresponds he.memory, branch_step hext hg.ready hc2.arrives hk.value⟩

/-! ### The blocks of a branch -/

theorem openIf_eq (g : CodeGenerator) : g.openIf M =
    openBlocks 2 (.condBr (g.condition M).1 g.blockCount (g.blockCount + 1)) (g.condition M).2 := by
  rw [← (CodeGenerator.emit_place (M := M) (createICmp .ne g.lastValue (.const (.int 0))) g).1]
  rfl

theorem openIfElse_eq (g : CodeGenerator) : g.openIfElse M =
    openBlocks 3 (.condBr (g.condition M).1 g.blockCount (g.blockCount + 1)) (g.condition M).2 := by
  rw [← (CodeGenerator.emit_place (M := M) (createICmp .ne g.lastValue (.const (.int 0))) g).1]
  rfl

theorem openBody_eq (g : CodeGenerator) : g.openBody M =
    openBlocks 2 (.condBr (g.condition M).1 g.blockCount (g.blockCount + 1)) (g.condition M).2 := by
  rw [← (CodeGenerator.emit_place (M := M) (createICmp .ne g.lastValue (.const (.int 0))) g).1]
  rfl

/-- The finished code goes on at a pending block as it will be generated. -/
theorem pending_enter {b : Nat} (hm : gf.OnlyMain) (hext : Extends g gf) (hp : Pending b g) (hne : b ≠ 0)
    (c : Config) : At gf (g.setInsertPoint b) (goTo gf b c) :=
  At.enter (g := g.setInsertPoint b) hm (Nat.lt_of_lt_of_le hp.lt hext.count) hne hp.empty c

/-- The first of the blocks that have been opened. -/
theorem opens_enter {n : Nat} (hm : gf.OnlyMain) (hn : 0 < n) (ho : Opens n g g1) (hext : Extends g1 gf)
    (hne : g.blockCount ≠ 0) (c : Config) : At gf g1 (goTo gf g.blockCount c) := by
  have hlt : g.blockCount < g1.blockCount := by
    rw [ho.count]
    omega
  have hempty : g1.block.body = [] := by
    unfold CodeGenerator.block
    rw [ho.point, ho.empty _ (Nat.le_refl _) hlt]
  have h := At.enter (g := g1) hm (ho.point ▸ Nat.lt_of_lt_of_le hlt hext.count) (ho.point ▸ hne) hempty c
  rw [ho.point] at h
  exact h

/-- The jump at the end of a branch. -/
theorem closeBranch_simulated {m : Prog Fault SimState Unit} {target next : Nat}
    (h : Simulated gf E fuel g g1 m) (h1 : g1.InMain) (hext : Extends (g1.closeBranch target next) gf) :
    ∀ s c, At gf g c → Corresponds gf s c →
      Realizes (step gf E) (FaultAt gf E) (Corresponds gf) fuel c (m s)
        (fun _ s' c' => ∃ d, c' = goTo gf target d ∧ Corresponds gf s' c') := by
  intro s c hat hmem
  have hbr : Extends (g1.createBr target) gf := by
    rw [CodeGenerator.closeBranch, h1.branch_eq] at hext
    exact { hext with }
  refine (h s c hat hmem).extend (fun a s1 c1 hend => ?_)
  exact ⟨_, .one (jump_step hbr h1.ready hend.1), c1, rfl, hend.2.goTo⟩

/-! ### The statements -/

/-- The code of the expression simulates it. -/
def SimulatesExpr (M : Llvm) (gf : CodeGenerator) (E : Env) (fuel : Nat) (e : Expression) : Prop :=
  ∀ g g', g.InMain → visit M .abstract e g = .ok g' → Extends g' gf →
    Simulated gf E fuel g g' (ExpressionEvaluator.visit E fuel e)

/-- The code of the statement simulates it. -/
def SimulatesStmt (M : Llvm) (gf : CodeGenerator) (E : Env) (fuel : Nat) (s : Statement) : Prop :=
  ∀ g g', g.InMain → visitStmt M .abstract s g = .ok g' → Extends g' gf →
    Simulated gf E fuel g g' (Simulator.visit E fuel s)

section Statements

variable {cond t e : Expression} (hs : M.Sound) (hm : gf.OnlyMain)

include hm in
theorem plain_simulates (hp : e.isPlain) : SimulatesExpr M gf E fuel e := by
  intro g g' h hv hext s c hat hmem
  exact (plain_simulated hm hp h hv hext hat hmem).weaken (fun v s1 c1 he => ⟨he.arrives, he.memory⟩)

include hm in
theorem print_simulates (hp : e.isPlain) : SimulatesStmt M gf E fuel (.printStmt e) := by
  intro g g' h hv hext s c hat hmem
  obtain ⟨g1, h1, hv⟩ := bind_ok_iff.mp hv
  cases hv
  have hr := (CodeGenerator.plain_inMain (Lowering.abstract_integral M) e hp h h1).ready
  have hext1 := (CodeGenerator.print_grown hr).frame.extends.trans hext
  rw [Simulator.visit]
  refine (plain_simulated hm hp h h1 hext1 hat hmem).bind (fun v s1 c1 he => ?_)
  obtain ⟨c2, hstep, hat2, hmem2⟩ := print_step (E := E) hm hext hr he.arrives he.result
  exact Realizes.of_star (.one hstep) (Realizes.done ⟨hat2, hmem2 s1 he.memory⟩)

include hs hm in
theorem ifThen_simulates (hc : cond.isPlain) (ht : t.isStructured) (iht : SimulatesExpr M gf E fuel t) :
    SimulatesStmt M gf E fuel (.ifStmt cond t none) := by
  intro g g' h hv hext s c hat hmem
  obtain ⟨g1, h1, hv⟩ := bind_ok_iff.mp hv
  obtain ⟨g2, h2, hv⟩ := bind_ok_iff.mp hv
  cases hv
  have hL := Lowering.abstract_integral M
  have hm1 := CodeGenerator.plain_inMain hL cond hc h h1
  have hm2 := CodeGenerator.structured_inMain hL t ht hm1.openIf h2
  have ho := CodeGenerator.openIf_opens (M := M) hm1.ready
  have hg2 := (CodeGenerator.visit_grows t ho.ready).of_ok h2
  have hp := (ho.isPending (g1.blockCount + 1) (by omega) (by omega)).visit hg2.frame
  have hpos := hm1.zero_lt
  have hbr : Extends (g2.branchUnlessTerminated (g1.blockCount + 1)) gf := { hext with }
  have hext2 :=
    (CodeGenerator.branchUnlessTerminated_grown hm2.ready (g1.blockCount + 1)).frame.extends.trans hbr
  have hext1 : Extends (g1.openIf M) gf := hg2.frame.extends.trans hext2
  have hthen : Simulated gf E fuel (g1.openIf M) g2 (ExpressionEvaluator.visit E fuel t >>= fun _ => pure ()) :=
    (iht _ _ hm1.openIf h2 hext2).bind (fun _ => .pure ())
  -- the condition is evaluated in the current block, then the branch is taken on it
  rw [Simulator.visit]
  refine (condition_simulated hs hm hc h h1 (openIf_eq (M := M) g1 ▸ hext1) hat hmem).bind
    (fun v s1 c1 hcond => ?_)
  obtain ⟨hmem1, hstep⟩ := hcond
  refine Realizes.of_star (.one hstep) ?_
  -- either through the branch or straight to the merge block, which was left empty
  cases hb : v != 0 with
  | true =>
      refine (closeBranch_simulated hthen hm2 hext s1 _ ?_ hmem1.goTo).weaken ?_
      · exact opens_enter hm (by omega) ho hext1 (by omega) c1
      · rintro a s2 _ ⟨d, rfl, hmem2⟩
        exact ⟨pending_enter hm hbr hp.branchUnlessTerminated (by omega) d, hmem2⟩
  | false =>
      exact Realizes.done ⟨pending_enter hm hbr hp.branchUnlessTerminated (by omega) c1, hmem1.goTo⟩

include hs hm in
theorem ifElse_simulates (hc : cond.isPlain) (ht : t.isStructured) (he : e.isStructured)
    (iht : SimulatesExpr M gf E fuel t) (ihe : SimulatesExpr M gf E fuel e) :
    SimulatesStmt M gf E fuel (.ifStmt cond t (some e)) := by
  intro g g' h hv hext s c hat hmem
  obtain ⟨g1, h1, hv⟩ := bind_ok_iff.mp hv
  obtain ⟨g2, h2, hv⟩ := bind_ok_iff.mp hv
  obtain ⟨g4, h4, hv⟩ := bind_ok_iff.mp hv
  cases hv
  have hL := Lowering.abstract_integral M
  have hm1 := CodeGenerator.plain_inMain hL cond hc h h1
  have hm2 := CodeGenerator.structured_inMain hL t ht hm1.openIfElse h2
  have ho := CodeGenerator.openIfElse_opens (M := M) hm1.ready
  have hg2 := (CodeGenerator.visit_grows t ho.ready).of_ok h2
  have hp := (ho.isPending (g1.blockCount + 1) (by omega) (by omega)).visit hg2.frame
  have hpm := (ho.isPending (g1.blockCount + 2) (by omega) (by omega)).visit hg2.frame
  have hm3 := hm2.closeBranch (g1.blockCount + 2) hp
  have hg4 := (CodeGenerator.visit_grows e hm3.ready).of_ok h4
  have hm4 := CodeGenerator.structured_inMain hL e he hm3 h4
  have hpm4 := (hpm.closeBranch (g1.blockCount + 2) (g1.blockCount + 1)
    (by omega)).visit hg4.frame
  have hpos := hm1.zero_lt
  -- what the finished module keeps, from the end of the statement back to its branch
  have hbr4 : Extends (g4.branchUnlessTerminated (g1.blockCount + 2)) gf := { hext with }
  have hext4 := (CodeGenerator.branchUnlessTerminated_grown hm4.ready (g1.blockCount + 2)).frame.extends.trans
    hbr4
  have hext3 := hg4.frame.extends.trans hext4
  have hbr2 : Extends (g2.branchUnlessTerminated (g1.blockCount + 2)) gf := { hext3 with }
  have hext2 := (CodeGenerator.branchUnlessTerminated_grown hm2.ready (g1.blockCount + 2)).frame.extends.trans
    hbr2
  have hext1 : Extends (g1.openIfElse M) gf := hg2.frame.extends.trans hext2
  have hthen : Simulated gf E fuel (g1.openIfElse M) g2
      (ExpressionEvaluator.visit E fuel t >>= fun _ => pure ()) :=
    (iht _ _ hm1.openIfElse h2 hext2).bind (fun _ => .pure ())
  have helse : Simulated gf E fuel (g2.closeBranch (g1.blockCount + 2) (g1.blockCount + 1)) g4
      (ExpressionEvaluator.visit E fuel e >>= fun _ => pure ()) :=
    (ihe _ _ hm3 h4 hext4).bind (fun _ => .pure ())
  have hmerge (d : Config) := pending_enter hm hbr4 hpm4.branchUnlessTerminated (by omega) d
  rw [Simulator.visit]
  refine (condition_simulated hs hm hc h h1 (openIfElse_eq (M := M) g1 ▸ hext1) hat hmem).bind
    (fun v s1 c1 hcond => ?_)
  obtain ⟨hmem1, hstep⟩ := hcond
  refine Realizes.of_star (.one hstep) ?_
  cases hb : v != 0 with
  | true =>
      refine (closeBranch_simulated hthen hm2 hext3 s1 _ ?_ hmem1.goTo).weaken ?_
      · exact opens_enter hm (by omega) ho hext1 (by omega) c1
      · rintro a s2 _ ⟨d, rfl, hmem2⟩
        exact ⟨hmerge d, hmem2⟩
  | false =>
      refine (closeBranch_simulated helse hm4 hext s1 _ ?_ hmem1.goTo).weaken ?_
      · exact pending_enter hm hbr2 hp.branchUnlessTerminated (by omega) c1
      · rintro a s2 _ ⟨d, rfl, hmem2⟩
        exact ⟨hmerge d, hmem2⟩

include hs hm in
theorem while_simulates (hc : cond.isPlain) (hb : e.isStructured) (ihb : SimulatesExpr M gf E fuel e) :
    SimulatesStmt M gf E fuel (.whileStmt cond e) := by
  intro g g' h hv hext s c hat hmem
  obtain ⟨g1, h1, hv⟩ := bind_ok_iff.mp hv
  obtain ⟨g2, h2, hv⟩ := bind_ok_iff.mp hv
  cases hv
  have hL := Lowering.abstract_integral M
  have hl := CodeGenerator.openLoop_opens h.ready
  have hm1 := CodeGenerator.plain_inMain hL cond hc h.openLoop h1
  have hg1 := (CodeGenerator.visit_grows cond hl.ready).of_ok h1
  have ho := CodeGenerator.openBody_opens (M := M) hm1.ready
  have hm2 := CodeGenerator.structured_inMain hL e hb hm1.openBody h2
  have hg2 := (CodeGenerator.visit_grows e ho.ready).of_ok h2
  have hp := (ho.isPending (g1.blockCount + 1) (by omega) (by omega)).visit hg2.frame
  have hpos := h.zero_lt
  have hpos1 := hm1.zero_lt
  have hbr2 : Extends (g2.createBr g.blockCount) gf := { hext with }
  have hext2 := (Frame.insert g2 (.br g.blockCount)).extends.trans hbr2
  have hext1 : Extends (g1.openBody M) gf := hg2.frame.extends.trans hext2
  have hextl : Extends g.openLoop gf :=
    hg1.frame.extends.trans (ho.toGrown.frame.extends.trans hext1)
  have hbrl : Extends ((createBlocks 1 g).createBr g.blockCount) gf := { hextl with }
  have hbody : Simulated gf E fuel (g1.openBody M) g2
      (ExpressionEvaluator.visit E fuel e >>= fun _ => pure ()) :=
    (ihb _ _ hm1.openBody h2 hext2).bind (fun _ => .pure ())
  -- the jump into the loop
  have hfirst := jump_step (E := E) hbrl (CodeGenerator.Grown.createBlocks 1 h.ready).ready
    (hat.createBlocks (n := 1) h.ready)
  have hhead (d : Config) := opens_enter hm (by omega) hl hextl (by omega) d
  have hpend : Pending (g1.blockCount + 1) (g2.createBrLast g.blockCount) :=
    ⟨hp.lt, hp.ne, (CodeGenerator.insert_body_ne (i := .br g.blockCount) hp.ne).trans hp.empty⟩
  have hlast : Extends (g2.createBrLast g.blockCount) gf := { hext with }
  have hexit (d : Config) := pending_enter hm hlast hpend (by omega) d
  rw [Simulator.visit]
  refine Realizes.of_star (.one hfirst) ?_
  refine Realizes.loop (I := fun s c => At gf g.openLoop c ∧ Corresponds gf s c)
    (M := fun b s c => Corresponds gf s c ∧
      step gf E c = .inl (goTo gf (if b then g1.blockCount else g1.blockCount + 1) c))
    ?_ ?_ ?_ (fun s c hI => hI.2) ⟨hhead c, hmem.goTo⟩
  · intro s1 c1 hI
    refine (condition_simulated hs hm hc h.openLoop h1 (openBody_eq (M := M) g1 ▸ hext1) hI.1 hI.2).bind ?_
    exact fun v s2 c2 h2 => Realizes.done h2
  · intro s1 c1 hM
    refine ⟨_, hM.2, (hbody s1 _ (opens_enter hm (by omega) ho hext1 (by omega) c1) hM.1.goTo).extend ?_⟩
    intro a s2 c2 hend
    exact ⟨_, .one (jump_step hbr2 hm2.ready hend.1), hhead c2, hend.2.goTo⟩
  · intro s1 c1 hM
    exact ⟨_, .one hM.2, hexit c1, hM.1.goTo⟩

theorem cons_simulates {stmt : Statement} {ss : List Statement} (ih : SimulatesStmt M gf E fuel stmt)
    (ihss : ∀ (last : Number) (g1 g' : CodeGenerator), g1.InMain →
      visitStmts M .abstract ss g1 = .ok g' → Extends g' gf →
      Simulated gf E fuel g1 g' (ExpressionEvaluator.visitStmts E fuel ss last))
    (hst : stmt.isStructured) (last : Number) (g g' : CodeGenerator) (h : g.InMain)
    (hv : visitStmts M .abstract (stmt :: ss) g = .ok g') (hext : Extends g' gf) :
    Simulated gf E fuel g g' (ExpressionEvaluator.visitStmts E fuel (stmt :: ss) last) := by
  obtain ⟨g1, h1, h2⟩ := bind_ok_iff.mp hv
  have hm1 := CodeGenerator.visitStmt_inMain (Lowering.abstract_integral M) stmt hst h h1
  have hext1 := ((CodeGenerator.visitStmts_grows ss hm1.ready).of_ok h2).frame.extends.trans hext
  have hfirst := ih g g1 h h1 hext1
  cases stmt with
  | exprStmt e =>
      rw [ExpressionEvaluator.visitStmts]
      rw [Simulator.visit] at hfirst
      exact hfirst.of_discard.bind (fun v => ihss v g1 g' hm1 h2 hext)
  | emptyStmt | ifStmt | whileStmt | printStmt | returnStmt =>
      rw [ExpressionEvaluator.visitStmts]
      · exact hfirst.bind (fun _ => ihss last g1 g' hm1 h2 hext)
      · intro e he
        cases he

mutual

/-- **Expressions that stand as statements.** -/
theorem structured_simulates (hs : M.Sound) (hm : gf.OnlyMain) : ∀ e : Expression, e.isStructured →
    SimulatesExpr M gf E fuel e
  | .blockExpr ss, h => by
      intro g g' hg hv hext
      rw [Expression.isStructured] at h
      rw [ExpressionEvaluator.visit]
      exact stmts_simulate hs hm ss h 0 g g' hg hv hext
  | .number n, h => plain_simulates (e := .number n) hm h
  | .var x, h => plain_simulates (e := .var x) hm h
  | .assignmentExpr x e, h => plain_simulates (e := .assignmentExpr x e) hm h
  | .binaryOperator op a b, h => plain_simulates (e := .binaryOperator op a b) hm h
  | .unaryOperator op e, h => plain_simulates (e := .unaryOperator op e) hm h
  | .input, h => by cases h
  | .func _ _ _, h => by cases h
  | .call _ _, h => by cases h

/-- **Statements.** -/
theorem stmt_simulates (hs : M.Sound) (hm : gf.OnlyMain) : ∀ s : Statement, s.isStructured →
    SimulatesStmt M gf E fuel s
  | .emptyStmt, _ => by
      intro g g' _ hv _
      cases hv
      rw [Simulator.visit]
      exact .pure ()
  | .exprStmt e, h => by
      intro g g' hg hv hext
      rw [Simulator.visit]
      exact (structured_simulates hs hm e h g g' hg hv hext).bind (fun _ => .pure ())
  | .ifStmt c t none, h =>
      have hct := Bool.and_eq_true_iff.mp h
      ifThen_simulates hs hm hct.1 hct.2 (structured_simulates hs hm t hct.2)
  | .ifStmt c t (some e), h =>
      have hct := Bool.and_eq_true_iff.mp h
      have hte := Bool.and_eq_true_iff.mp hct.2
      ifElse_simulates hs hm hct.1 hte.1 hte.2 (structured_simulates hs hm t hte.1)
        (structured_simulates hs hm e hte.2)
  | .whileStmt c b, h =>
      have hcb := Bool.and_eq_true_iff.mp h
      while_simulates hs hm hcb.1 hcb.2 (structured_simulates hs hm b hcb.2)
  | .printStmt e, h => print_simulates hm h
  | .returnStmt _, h => by cases h

theorem stmts_simulate (hs : M.Sound) (hm : gf.OnlyMain) : ∀ ss : List Statement, allStructured ss →
    ∀ (last : Number) (g g' : CodeGenerator), g.InMain → visitStmts M .abstract ss g = .ok g' → Extends g' gf →
      Simulated gf E fuel g g' (ExpressionEvaluator.visitStmts E fuel ss last)
  | [], _, last, g, g', _, hv, _ => by
      cases hv
      exact .pure last
  | s :: ss, h, last, g, g', hg, hv, hext =>
      have hsss := Bool.and_eq_true_iff.mp h
      cons_simulates (stmt_simulates hs hm s hsss.1) (stmts_simulate hs hm ss hsss.2) hsss.1 last g g' hg hv
        hext

end

theorem program_simulates (E : Env) (fuel : Nat) (hs : M.Sound) (hm : gf.OnlyMain) :
    ∀ ss : List Statement, allStructured ss →
    ∀ g g' : CodeGenerator, g.InMain → visitStmts M .abstract ss g = .ok g' → Extends g' gf →
      Simulated gf E fuel g g' (Simulator.visitProgram E fuel ss)
  | [], _, g, g', _, hv, _ => by
      cases hv
      exact .pure ()
  | s :: ss, h, g, g', hg, hv, hext => by
      obtain ⟨hst, hss⟩ := Bool.and_eq_true_iff.mp h
      obtain ⟨g1, h1, h2⟩ := bind_ok_iff.mp hv
      have hm1 := CodeGenerator.visitStmt_inMain (Lowering.abstract_integral M) s hst hg h1
      have hext1 := ((CodeGenerator.visitStmts_grows ss hm1.ready).of_ok h2).frame.extends.trans hext
      exact (stmt_simulates hs hm s hst g g1 hg h1 hext1).bind
        (fun _ => program_simulates E fuel hs hm ss hss g1 g' hm1 h2 hext)

end Statements

/-! ## Whole programs -/

/-- The allocations at the front of the entry block. -/
theorem allocas_run (gf : CodeGenerator) (E : Env) :
    ∀ (as : List AllocaInst) {rest : List Instruction} {c : Config},
    c.top.code = as.map .alloca ++ rest → (∀ a ∈ as, a.ty = .i32) →
    ∃ c', Star (step gf E) c c' ∧ c'.top.code = rest ∧ c'.printed = c.printed ∧ c'.callers = c.callers ∧
      ∀ id, id ∈ as.map AllocaInst.id ∨ c.top.slots id = some (.poison .i32) →
        c'.top.slots id = some (.poison .i32)
  | [], rest, c, hcode, _ => ⟨c, .refl c, hcode, rfl, rfl, fun id h => h.resolve_left (by simp)⟩
  | a :: as, rest, c, hcode, hty => by
      have hstep : step gf E c =
          .inl ((c.setCode (as.map .alloca ++ rest)).setSlot a.id (.poison a.ty)) := step_cons hcode
      obtain ⟨c', hs, hcode', hprinted, hcallers, hslots⟩ :=
        allocas_run gf E as (c := (c.setCode (as.map .alloca ++ rest)).setSlot a.id (.poison a.ty)) rfl
          (fun b hb => hty b (List.mem_cons_of_mem _ hb))
      refine ⟨c', .trans (.one hstep) hs, hcode', hprinted, hcallers, fun id h => hslots id ?_⟩
      by_cases hid : id = a.id
      · right
        subst hid
        show Function.update _ a.id _ a.id = _
        rw [Function.update_self, hty a List.mem_cons_self]
      · rcases h with h | h
        · exact .inl ((List.mem_cons.mp h).resolve_left hid)
        · right
          show Function.update _ a.id _ id = _
          rw [Function.update_of_ne hid]
          exact h

/-- The machine comes to the first statement with no variable set. -/
theorem start_reaches (hm : gf.OnlyMain) :
    ∃ c, Star (step gf E) gf.start c ∧ At gf (CodeGenerator.enterMain M) c ∧ Corresponds gf .init c := by
  have hcode : gf.start.top.code = gf.slots.map .alloca ++ (gf.blocks 0).body := by
    show (gf.blocks ((gf.entryBlock 0).getD 0)).instrs = _
    rw [hm.entry, ← hm.hoisted]
    rfl
  obtain ⟨c, hs, hc, hprinted, hcallers, hslots⟩ := allocas_run gf E gf.slots hcode hm.types
  refine ⟨c, hs, hc, fun x a hx => ?_, ?_, hprinted, hcallers⟩
  · obtain ⟨l, hl, ha⟩ := Tables.mem_of_lookup hx
    exact hslots a.id (.inl (List.mem_map_of_mem (CodeGenerator.mem_slots hl ha)))
  · intro x v hx
    cases hx

/-- The finished module, and what it was before its last `ret`. -/
theorem visitProgram_main {p : Program} (hp : p.isStructured)
    (hv : CodeGenerator.visitProgram M .abstract p = .ok gf) :
    gf.OnlyMain ∧ ∃ g, g.InMain ∧ visitStmts M .abstract p.stmts (CodeGenerator.enterMain M) = .ok g ∧
      gf = g.createRet (.const (.int 0)) := by
  obtain ⟨g, h1, h2⟩ := bind_ok_iff.mp hv
  have hm := CodeGenerator.visitStmts_inMain (Lowering.abstract_integral M) p.stmts hp
    CodeGenerator.enterMain_inMain h1
  have hgf : gf = g.createRet (.const (.int 0)) := by
    injection h2 with h2
    rw [← h2, CodeGenerator.returnUnlessTerminated, hm.unterminated]
    rfl
  exact ⟨hgf ▸ hm.toOnlyMain.insert (i := .ret (.const (.int 0))) trivial, g, hm, h1, hgf⟩

/-- **Programs.** For every loop bound the machine does what the interpreter does. -/
theorem run_realizes {p : Program} (hs : M.Sound) (hp : p.isStructured)
    (hv : CodeGenerator.visitProgram M .abstract p = .ok gf) :
    Realizes (step gf E) (FaultAt gf E) (Corresponds gf) fuel gf.start (Simulator.run E fuel p)
      (fun _ s c => Corresponds gf s c ∧ step gf E c = .inr (.returned (.int 0))) := by
  obtain ⟨hm, g, hg, h1, hgf⟩ := visitProgram_main hp hv
  have hext : Extends (g.createRet (.const (.int 0))) gf := hgf ▸ .refl gf
  have hextg := (Frame.insert g (.ret (.const (.int 0)))).extends.trans hext
  obtain ⟨c, hstart, hat, hmem⟩ := start_reaches (M := M) (E := E) hm
  refine Realizes.of_star hstart ?_
  have hrun := program_simulates E fuel hs hm p.stmts hp _ _
    CodeGenerator.enterMain_inMain h1 hextg
  refine (hrun .init c hat hmem).weaken (fun _ s1 c1 hend => ⟨hend.2, ?_⟩)
  obtain ⟨rest, hcode, _⟩ := hend.1.next (i := .ret (.const (.int 0))) hg.ready hext
  have hcallers : (c1.setCode rest).callers = [] := hend.2.callers
  rw [step_cons hcode]
  show returnValue (.int 0) (c1.setCode rest) = _
  rw [returnValue, hcallers]

/-- The module and the interpreter show the same: they finish, get stuck and run forever together, with the
    same output and the same variables. -/
structure SameBehavior (p : Program) (E : Env) (gf : CodeGenerator) : Prop where
  finishes : ∀ printed vars,
    Finishes (fun fuel => Simulator.run E fuel p) (fun _ s => s.printed = printed ∧ s.nametable = vars) ↔
      ∃ c, Ends (step gf E) gf.start c (.returned (.int 0)) ∧ c.printed = printed ∧ gf.variables c = vars
  stuck : ∀ ending printed vars,
    Faults (fun fuel => Simulator.run E fuel p)
        (fun e s => e.ending = some ending ∧ s.printed = printed ∧ s.nametable = vars) ↔
      ∃ opcode args c, ending = .undefined opcode args ∧ Ends (step gf E) gf.start c ending ∧
        c.printed = printed ∧ gf.variables c = vars
  diverges : Diverges (fun fuel => Simulator.run E fuel p) ↔ Forever (step gf E) gf.start
  prints : ∀ l, Logs (fun fuel => Simulator.run E fuel p) SimState.printed l ↔
    ∃ n c, StepsN (step gf E) n gf.start c ∧ l <+: c.printed

theorem Fault.ending_undefined {e : Fault} {r : Ending} (h : e.ending = some r) :
    ∃ opcode args, r = .undefined opcode args := by
  cases e with
  | binary op a b => cases h; exact ⟨_, _, rfl⟩
  | unary op a => cases h; exact ⟨_, _, rfl⟩
  | unknownVariable x => cases h

/-- A fault other than an unknown variable, and the machine at it. -/
def StuckAt (gf : CodeGenerator) (E : Env) (e : Fault) (s : SimState) (c : Config) : Prop :=
  ∃ r, e.ending = some r ∧ step gf E c = .inr r ∧ Corresponds gf s c

theorem realizes_stuckAt {α : Type} {r : Outcome Fault SimState α} {Q : α → SimState → Config → Prop}
    (h : Realizes (step gf E) (FaultAt gf E) (Corresponds gf) fuel c r Q)
    (hknown : ∀ x s, r ≠ .fault (.unknownVariable x) s) :
    Realizes (step gf E) (StuckAt gf E) (Corresponds gf) fuel c r Q := by
  cases r with
  | done a s => exact h
  | timeout s => exact h
  | fault e s =>
      obtain ⟨c', hc, hf⟩ := h
      refine ⟨c', hc, ?_⟩
      cases e with
      | binary op a b => exact ⟨_, rfl, hf _ rfl⟩
      | unary op a => exact ⟨_, rfl, hf _ rfl⟩
      | unknownVariable x => exact absurd rfl (hknown x s)

/-- **Runs.** From runs for every bound to whole runs, in both directions. -/
theorem same_behavior {p : Program}
    (h : ∀ fuel, Realizes (step gf E) (StuckAt gf E) (Corresponds gf) fuel gf.start (Simulator.run E fuel p)
      (fun _ s c => Corresponds gf s c ∧ step gf E c = .inr (.returned (.int 0)))) :
    SameBehavior p E gf := by
  have hQ : ∀ (a : Unit) s c, Corresponds gf s c ∧ step gf E c = .inr (.returned (.int 0)) →
      ∃ r, step gf E c = .inr r := fun _ s c hq => ⟨_, hq.2⟩
  have hF : ∀ e s c, StuckAt gf E e s c → ∃ r, step gf E c = .inr r := fun e s c hf => by
    obtain ⟨r, _, hstep, _⟩ := hf
    exact ⟨r, hstep⟩
  refine ⟨fun printed vars => ⟨?_, ?_⟩, fun ending printed vars => ⟨?_, ?_⟩, ⟨?_, ?_⟩, fun l => ?_⟩
  · rintro ⟨fuel, a, s, hrun, rfl, rfl⟩
    have hk := h fuel
    rw [show Simulator.run E fuel p = _ from hrun] at hk
    obtain ⟨c, hc, hmem, hstep⟩ := hk
    exact ⟨c, ⟨hc, hstep⟩, hmem.printed, hmem.variables⟩
  · rintro ⟨c, hends, rfl, rfl⟩
    obtain ⟨fuel, ⟨a, s, hrun, hmem, _⟩ | ⟨e, s, _, r, he, hstep, _⟩⟩ := realizes_of_ends h hQ hF hends
    · exact ⟨fuel, a, s, hrun, hmem.printed.symm, hmem.variables.symm⟩
    · -- the machine cannot both return and be stuck
      obtain ⟨opcode, args, rfl⟩ := Fault.ending_undefined he
      rw [hends.2] at hstep
      cases hstep
  · rintro ⟨fuel, e, s, hrun, he, rfl, rfl⟩
    have hk := h fuel
    rw [show Simulator.run E fuel p = _ from hrun] at hk
    obtain ⟨c, hc, r, he', hstep, hmem⟩ := hk
    rw [he] at he'
    cases he'
    obtain ⟨opcode, args, rfl⟩ := Fault.ending_undefined he
    exact ⟨opcode, args, c, rfl, ⟨hc, hstep⟩, hmem.printed, hmem.variables⟩
  · rintro ⟨opcode, args, c, rfl, hends, rfl, rfl⟩
    obtain ⟨fuel, ⟨a, s, _, _, hstep⟩ | ⟨e, s, hrun, r, he, hstep, hmem⟩⟩ := realizes_of_ends h hQ hF hends
    · rw [hends.2] at hstep
      cases hstep
    · rw [hends.2] at hstep
      cases hstep
      exact ⟨fuel, e, s, hrun, he, hmem.printed.symm, hmem.variables.symm⟩
  -- runs without end, in both directions, and then the prints of every finite part
  · exact fun hd => realizes_forever h hd
  · exact fun hf fuel => realizes_of_forever h hQ hF hf fuel
  · refine realizes_log h hQ hF step_printed (fun a s c hq => hq.1.printed) (fun e s c hf => ?_)
      (fun s c hmem => hmem.printed) l
    obtain ⟨_, _, _, hmem⟩ := hf
    exact hmem.printed

section Simulation

/-- **Control flow is lowered by a simulation.** For an accepted program without functions, calls, input and
    `return` and with blocks only as branches, loop bodies and statements, and for any meaning of the
    operators, the generated graph of blocks and the interpreter cannot be told apart. -/
theorem control_flow_simulation {p : Program} (hp : Accepted p) (hst : p.isStructured) (hs : M.Sound)
    (E : Env) : ∃ gf, CodeGenerator.visitProgram M .abstract p = .ok gf ∧ SameBehavior p E gf := by
  have hkinds := allStructured_kinds p.stmts hst
  have hfree (k : NodeKind) (hk : k ≠ .blockExpr) : k ∉ p.kinds := fun hm => hk (hkinds k hm)
  have hfresh : ParamsFresh p.events :=
    (neverEnters_stmts p.stmts (hfree .func (by decide))).paramsFresh
  obtain ⟨gf, hv⟩ := (visitProgram_ok_iff (M := M) (L := .abstract) hp).mpr hfresh
  refine ⟨gf, hv, same_behavior (fun fuel => realizes_stuckAt (run_realizes hs hst hv) (fun x s => ?_))⟩
  exact fun hrun => run_knownFault hp (hfree .call (by decide)) (hfree .returnStmt (by decide)) hrun x rfl

/-- `x = 3; y = 0; while (x) { if (x > 1) { print x; } else { y = x; } x = x - 1; } print y / x;` -/
def descending : Program where
  stmts := [
    .exprStmt (.assignmentExpr "x" (.number 3)),
    .exprStmt (.assignmentExpr "y" (.number 0)),
    .whileStmt (.var "x") (.blockExpr [
      .ifStmt (.binaryOperator .greater (.var "x") (.number 1))
        (.blockExpr [.printStmt (.var "x")])
        (some (.blockExpr [.exprStmt (.assignmentExpr "y" (.var "x"))])),
      .exprStmt (.assignmentExpr "x" (.binaryOperator .sub (.var "x") (.number 1)))]),
    .printStmt (.binaryOperator .div (.var "y") (.var "x"))]

theorem control_flow_simulation_descending :
    ∃ gf, CodeGenerator.visitProgram .standard .abstract descending = .ok gf ∧
      SameBehavior descending ⟨.cpp, fun _ => 0⟩ gf :=
  control_flow_simulation (by decide) (by decide) Llvm.standard_sound ⟨.cpp, fun _ => 0⟩

end Simulation

end ParaCL
