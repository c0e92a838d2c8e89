import ParaCL.Codegen.Activation

/-!
# `Codegen.Functions` — code with functions does what the program does

A visit of `codegen.cpp` is simulated from the point where it starts to the point where the code goes on. A
function literal costs nothing, a call is a step into the code that stands for its body, and a `return` stops
the simulation of the body at a `ret`. The simulation follows the syntax for calls nested up to a bound; the
bound is counted against the steps of the machine, and `serves_calls` takes it away by induction.
-/

namespace ParaCL

open Lib ParaCL.Language

open CodeGenerator (emit visit visitStmt visitStmts visitArgs Grown Frame Opens Pending openBlocks createBlocks)

/-- Back in the caller, with the value in the register of the call. -/
structure Back (id : Nat) (caller : Activation) (cs : List (Nat × Activation)) (s : World) (v : Datum)
    (s' : World) (c' : Config) : Prop extends Shows s' c' where
  locals : s'.locals = s.locals
  result : ∃ n, v = .int n ∧ c'.top = caller.setReg id (.int n)
  callers : c'.callers = cs

/-- Entered with integers, the code of a function does what `call` says of its body and comes back. -/
def Serves (M : Llvm) (σ : Signature) (gf : CodeGenerator) (E : Env) (call : Calling) (j : Nat) : Prop :=
  ∀ (f : Nat) (ps : List Name) (body : Expression) (b : Nat) (ns : List Number) (id : Nat) (caller : Activation)
    (cs : List (Nat × Activation)) (s : World) (c : Config),
    Generated M σ gf f ps body → ns.length = ps.length →
    gf.entryBlock f = some b → c.top = ⟨(gf.blocks b).instrs, ns.map .int, fun _ => none, fun _ => none⟩ →
    c.callers = (id, caller) :: cs → Shows s c →
    Realizes (step gf E) (StopsAt gf E cs) Shows j c (call ps body (ns.map .int) s) (Back id caller cs s)

/-- What the simulation rests on. A call is a step more than what is done in the function. -/
structure Setting (M : Llvm) (σ : Signature) (gf : CodeGenerator) (E : Env) (fuel : Nat) (call : Calling)
    (k : Nat) : Prop where
  sound : M.Sound
  numbers : M.Numbers
  finished : Finished gf
  operators : E.ops = .generated
  bound : k ≤ fuel
  serves : ∃ j, k ≤ j + 1 ∧ Serves M σ gf E call j

/-- From `c` on the machine does what the run did, up to the point `g'` with a value of the effect. -/
def Carries (M : Llvm) (σ : Signature) (gf : CodeGenerator) (E : Env) (k : Nat) (ge : CodeGenerator)
    (cs : List (Nat × Activation)) (g g' : CodeGenerator) (c : Config) (r : Outcome Stop World Datum)
    (o : Effect) : Prop :=
  Realizes (step gf E) (StopsAt gf E cs) Shows k c r
    (fun v s' c' => Advanced M σ gf ge cs g g' c s' c' ∧ Comes M σ gf o g' c' v)

section Performs

variable (M : Llvm) (σ : Signature) (gf : CodeGenerator) (E : Env) (fuel : Nat) (call : Calling) (k : Nat)

/-- The code of the expression does what the expression means. -/
def Performs (e : Expression) (o : Effect) : Prop :=
  ∀ ge cs g g' s c, Here M σ gf ge cs g s c → visit M .source e g = .ok g' → Part g' (gf.within ge.scopeStack) →
    Carries M σ gf E k ge cs g g' c (eval E (definitions σ.functions) fuel call e s) o

/-- The block that the statement stands in has come to `last` so far. -/
def PerformsStmt (st : Statement) (acc o : Effect) : Prop :=
  ∀ ge cs g g' s c last, Here M σ gf ge cs g s c → Comes M σ gf acc g c last →
    visitStmt M .source st g = .ok g' → Part g' (gf.within ge.scopeStack) →
    Carries M σ gf E k ge cs g g' c (exec E (definitions σ.functions) fuel call st last s) o

def PerformsStmts (ss : List Statement) (acc o : Effect) : Prop :=
  ∀ ge cs g g' s c last, Here M σ gf ge cs g s c → Comes M σ gf acc g c last →
    visitStmts M .source ss g = .ok g' → Part g' (gf.within ge.scopeStack) →
    Carries M σ gf E k ge cs g g' c (evalStmts E (definitions σ.functions) fuel call ss last s) o

/-- Arguments are integers, all known at the call. -/
def PerformsArgs (es : List Expression) : Prop :=
  ∀ ge cs g r s c, Here M σ gf ge cs g s c → visitArgs M .source es g = .ok r →
    Part r.2 (gf.within ge.scopeStack) →
    Realizes (step gf E) (StopsAt gf E cs) Shows k c (evalArgs E (definitions σ.functions) fuel call es s)
      (fun vs s' c' => Advanced M σ gf ge cs g r.2 c s' c' ∧ ∃ ns : List Number, vs = ns.map .int ∧
        ns.length = es.length ∧ List.Forall₂ (fun w n => Known r.2 c' w (.int n)) r.1 ns)

end Performs

variable {M : Llvm} {σ : Signature} {gf ge g g' g1 g2 : CodeGenerator} {E : Env} {fuel k : Nat} {call : Calling}
  {cs : List (Nat × Activation)} {s s' : World} {c c' c1 c2 : Config} {x : Name} {ps : List Name}
  {e e1 e2 body : Expression} {o o' acc : Effect} {v : Datum} {w : Constant}

/-! ## Values -/

/-- The last value has been set, and there is no code. -/
theorem Here.set {last : Value} (h : Here M σ gf ge cs g s c) :
    Advanced M σ gf ge cs g (g.setLast last) c s c := ⟨h.unterminated, h.arrives, h.memory, .refl _ _⟩

theorem Here.here (h : Here M σ gf ge cs g s c) : Advanced M σ gf ge cs g g c s c :=
  ⟨h.unterminated, h.arrives, h.memory, .refl _ _⟩

/-- A fault of the program: the machine may do anything from here on. -/
theorem carries_fault {e : Fault} (h : Shows s c) : Carries M σ gf E k ge cs g g' c (.fault (.fault e) s) o :=
  ⟨c, .refl c, h⟩

theorem Comes.int {n : Number} (hk : Known g c g.lastValue (.int n)) :
    Comes M σ gf (.value .number) g c (.int n) := by
  refine ⟨by simp, fun k h => ?_⟩
  cases h
  exact ⟨trivial, _, rfl, hk⟩

theorem Comes.number (h : Comes M σ gf (.value .number) g c v) :
    ∃ n, v = .int n ∧ Known g c g.lastValue (.int n) := by
  obtain ⟨hkind, w, hw, hk⟩ := h.2 _ rfl
  obtain ⟨n, rfl⟩ := Datum.is_number hkind
  cases hw
  exact ⟨n, rfl, hk⟩

theorem Comes.typed (h : Comes M σ gf o g c v) : Yields o g := by
  intro k hk
  obtain ⟨hkind, w, hw, hknown⟩ := h.2 k hk
  exact hknown.ty.trans (hw.ty hkind)

theorem Comes.nothing : Comes M σ gf .nothing g c v := ⟨by simp, fun k h => by cases h⟩

theorem number_performs (n : Number) : Performs M σ gf E fuel call k (.number n) (.value .number) := by
  intro ge cs g g' s c h hv _
  cases hv
  rw [eval]
  exact Realizes.done ⟨h.set, Comes.int ⟨rfl, rfl, trivial⟩⟩

theorem input_performs (hset : Setting M σ gf E fuel call k) :
    Performs M σ gf E fuel call k .input (.value .number) := by
  intro ge cs g g' s c h hv hp
  rw [visit] at hv
  obtain ⟨c', hc, ha, hcomes⟩ := input_after (E := E) hset.finished h hv hp
  rw [eval]
  exact Realizes.of_star hc (Realizes.done ⟨ha, hcomes⟩)

/-- A variable has no value, or the one in its slot. -/
theorem var_performs (hset : Setting M σ gf E fuel call k) (hx : σ.Variable x) :
    Performs M σ gf E fuel call k (.var x) (.value (σ.vars x)) := by
  intro ge cs g g' s c h hv hp
  obtain ⟨g0, hg0⟩ := h.sorted
  obtain ⟨a, hl, rfl⟩ := hg0.variable hx hv
  have hread : eval E (definitions σ.functions) fuel call (.var x) s =
      demand (.fault (.unknownVariable x)) (s.locals x) s := by
    have hor : (s.locals x).or (definitions σ.functions x) = s.locals x := by
      rw [definitions, hx.notFunction, Option.map_none, Option.or_none]
    rw [eval, Language.read, Prog.gets_bind, hor]
  rw [hread]
  cases hlocal : s.locals x with
  | none => exact carries_fault h.memory.toShows
  | some v =>
      obtain ⟨c', hc, ha, hcomes⟩ := load_after (E := E) hset.finished h hx hl hp hlocal
      exact Realizes.of_star hc (Realizes.done ⟨ha, hcomes⟩)

/-- The name of a function is its value. -/
theorem name_performs (hx : σ.Names x ps body) :
    Performs M σ gf E fuel call k (.var x) (.value (.function ps.length)) := by
  intro ge cs g g' s c h hv _
  obtain ⟨g0, hg0⟩ := h.sorted
  obtain ⟨j, hj, rfl⟩ := hg0.name hx hv
  have hread : eval E (definitions σ.functions) fuel call (.var x) s = .done (.code ps body) s := by
    have hlocal : s.locals x = none := by
      cases hlocal : s.locals x with
      | none => rfl
      | some v => exact absurd (h.memory.known x v hlocal).1 hx.not_variable
    have hor : (s.locals x).or (definitions σ.functions x) = some (.code ps body) := by
      rw [hlocal, definitions, hx.stands]
      rfl
    rw [eval, Language.read, Prog.gets_bind, hor]
    rfl
  rw [hread]
  refine Realizes.done ⟨h.set, by simp, fun j' hk => ?_⟩
  cases hk
  exact ⟨rfl, _, ⟨j, rfl, hg0.entries x j ps body hj hx⟩, rfl, rfl, trivial⟩

theorem assignment_performs (hset : Setting M σ gf E fuel call k) (hx : σ.Variable x)
    (he : Kinded σ e (.value (σ.vars x))) (ih : Performs M σ gf E fuel call k e (.value (σ.vars x))) :
    Performs M σ gf E fuel call k (.assignmentExpr x e) (.value (σ.vars x)) := by
  intro ge cs g g' s c h hv hp
  obtain ⟨g1, h1, h2⟩ := bind_ok_iff.mp hv
  have hg1 := (CodeGenerator.visit_grows e h.ready).of_ok h1
  have hp1 := ((CodeGenerator.assign_grows x hg1.ready).of_ok h2).part hp
  rw [eval]
  refine (ih ge cs g g1 s c h h1 hp1).bind (fun v s1 c1 hend => ?_)
  have hhere := h.next hset.sound hset.numbers he h1 hp1 hend.1
  obtain ⟨c2, hstep, ha, hcomes⟩ := assign_after (E := E) hset.finished hhere hx h2 hp hend.2
  exact Realizes.of_star (.one hstep) (Realizes.done ⟨hend.1.trans ha hg1.frame.ids, hcomes⟩)

/-! ### Operators -/

/-- What the calls of `IRBuilder` for an operator settle is what the operator means. -/
theorem settled_carries {m : Emit Value} {r : Option Number} {g1 : CodeGenerator} {f : Fault}
    (h : Here M σ gf ge cs g1 s c) (hp : Part (g1.emitLast M m) (gf.within ge.scopeStack))
    (hs : Settles M (gf.within ge.scopeStack) E m g1 c (r.map .int)) :
    Carries M σ gf E k ge cs g1 (g1.emitLast M m) c
      ((demand (.fault f) r >>= fun n => (pure (.int n) : Prog Stop World Datum)) s) (.value .number) := by
  cases r with
  | none => exact carries_fault h.memory.toShows
  | some n =>
      have hfinds : Finds (gf.within ge.scopeStack) E g1 (emit M m g1).2 c (emit M m g1).1 (.int n) :=
        hs hp.of_setLast.toExtends
      obtain ⟨c', hc, ha, hk⟩ := hfinds.after h (emit_unterminated m h.unterminated)
      exact Realizes.of_star hc (Realizes.done ⟨⟨ha.unterminated, ha.arrives, ha.memory, ha.retains⟩,
        Comes.int ⟨hk.value, hk.ty, hk.below⟩⟩)

theorem unary_performs (hset : Setting M σ gf E fuel call k) (op : UnaryOperators)
    (he : Kinded σ e (.value .number)) (ih : Performs M σ gf E fuel call k e (.value .number)) :
    Performs M σ gf E fuel call k (.unaryOperator op e) (.value .number) := by
  intro ge cs g g' s c h hv hp
  obtain ⟨g1, h1, hv⟩ := bind_ok_iff.mp hv
  cases hv
  have hg1 := (CodeGenerator.visit_grows e h.ready).of_ok h1
  have hp1 := (Grown.emitLast (M := M) (lowerUnary op g1.lastValue) hg1.ready).part hp
  rw [eval, hset.operators]
  refine (ih ge cs g g1 s c h h1 hp1).bind (fun v s1 c1 hend => ?_)
  have hhere := h.next hset.sound hset.numbers he h1 hp1 hend.1
  obtain ⟨n, rfl, hk⟩ := hend.2.number
  have hsettles : Settles M (gf.within ge.scopeStack) E (lowerUnary op g1.lastValue) g1 c1
      (evalUnary op (.int n)) := unary_settles hset.sound hg1.ready hhere.arrives.within hk ⟨rfl, rfl⟩ op
  rw [evalUnary_int] at hsettles
  have hrun := settled_carries (k := k) (f := .unary op n) hhere hp hsettles
  exact hrun.weaken (fun v s2 c2 h2 => ⟨hend.1.trans h2.1 hg1.frame.ids, h2.2⟩)

theorem binary_performs (hset : Setting M σ gf E fuel call k) (op : BinaryOperators)
    (he1 : Kinded σ e1 (.value .number)) (he2 : Kinded σ e2 (.value .number))
    (ih1 : Performs M σ gf E fuel call k e1 (.value .number))
    (ih2 : Performs M σ gf E fuel call k e2 (.value .number)) :
    Performs M σ gf E fuel call k (.binaryOperator op e1 e2) (.value .number) := by
  intro ge cs g g' s c h hv hp
  obtain ⟨g1, h1, hv⟩ := bind_ok_iff.mp hv
  obtain ⟨g2, h2, hv⟩ := bind_ok_iff.mp hv
  cases hv
  have hg1 := (CodeGenerator.visit_grows e1 h.ready).of_ok h1
  have hg2 := (CodeGenerator.visit_grows e2 hg1.ready).of_ok h2
  have hp2 := (Grown.emitLast (M := M) (lowerBinary op g1.lastValue g2.lastValue) hg2.ready).part hp
  have hp1 := hg2.part hp2
  rw [eval, hset.operators]
  refine (ih1 ge cs g g1 s c h h1 hp1).bind (fun v s1 c1 hend1 => ?_)
  have hhere1 := h.next hset.sound hset.numbers he1 h1 hp1 hend1.1
  refine (ih2 ge cs g1 g2 s1 c1 hhere1 h2 hp2).bind (fun v2 s2 c2 hend2 => ?_)
  have hhere2 := hhere1.next hset.sound hset.numbers he2 h2 hp2 hend2.1
  obtain ⟨m, rfl, hk1⟩ := hend1.2.number
  obtain ⟨n, rfl, hk2⟩ := hend2.2.number
  -- the left operand is still there
  have hleft := hk1.retained hend2.1.retains hg2.frame.ids
  have hsettles : Settles M (gf.within ge.scopeStack) E (lowerBinary op g1.lastValue g2.lastValue) g2 c2
      (evalBinary op (.int m) (.int n)) :=
    binary_settles hset.sound hg2.ready hhere2.arrives.within hleft ⟨rfl, rfl⟩ op hk2 ⟨rfl, rfl⟩
  rw [evalBinary_int] at hsettles
  have hrun := settled_carries (k := k) (f := .binary op m n) hhere2 hp hsettles
  refine hrun.weaken (fun v s3 c3 h3 => ⟨?_, h3.2⟩)
  exact (hend1.1.trans hend2.1 hg1.frame.ids).trans h3.1 (Nat.le_trans hg1.frame.ids hg2.frame.ids)

/-! ### Functions -/

/-- A function literal puts no code where it stands. -/
theorem func_performs {name : Option Name} (hps : ∀ x ∈ ps, σ.Variable x ∧ σ.vars x = .number)
    (hname : ∀ f ∈ name, σ.Names f ps body) (hbody : Kinded σ body o) (ho : o = .value .number ∨ o = .never) :
    Performs M σ gf E fuel call k (.func name ps body) (.value (.function ps.length)) := by
  intro ge cs g g' s c h hv hp
  obtain ⟨g0, hg0⟩ := h.sorted
  obtain ⟨g1, g2, hc, hg1, hg2, rfl⟩ := compiled_of_visit h.ready hg0.toTabled hps hname hbody ho hv hp
  have hopen := CodeGenerator.openFunction_opened (M := M) name ps.length g
  have hgrown := hg1.trans (hopen.ready h.ready) hg2
  have hleave := Grown.leave h.ready hopen hgrown
  have hsame : (CodeGenerator.closeFunction g g2).block.body = g.block.body := by
    have hret := hgrown.trans (hopen.ready h.ready)
      (CodeGenerator.returnUnlessTerminated_grown hgrown.ready g2.lastValue)
    have hlt := h.ready.insertLt
    have hothers := hret.frame.others g.insertBlock (by rw [hopen.count]; omega) (by rw [hopen.point]; omega)
    rw [hopen.old hlt] at hothers
    exact hothers
  rw [eval]
  refine Realizes.done ⟨⟨?_, ?_, h.memory, .refl _ _⟩, by simp, fun j hk => ?_⟩
  · exact (CodeGenerator.terminated_congr h.ready hleave.ready hsame).trans h.unterminated
  · have hat := h.arrives
    unfold At at hat ⊢
    rw [hsame]
    exact hat
  · cases hk
    exact ⟨rfl, _, ⟨g.functions.length, rfl, .intro hc hg0.entries⟩, rfl, rfl, trivial⟩

/-! ## Branches -/

theorem Retains.goTo {n b : Nat} (h : Retains n c c') : Retains n c (goTo gf b c') := ⟨h.args, h.regs⟩

/-- The kinds are kept apart up to the next visit. -/
theorem Here.sorted_next {T : Tables Name AllocaInst} (hset : Setting M σ gf E fuel call k)
    (h : Here M σ gf ge cs g s c) (hk : Kinded σ e o) (hv : visit M .source e g = .ok g')
    (hp : Part g' (gf.within T)) : ∃ g0, Sorted M σ gf g0 g' := by
  obtain ⟨g0, hg0⟩ := h.sorted
  exact ⟨g0, (visit_sorted hset.sound hset.numbers e hk g0 g g' T h.ready hg0 hv hp).1⟩

/-- At the beginning of a block that has been opened and is still empty. -/
theorem opened_enter (g2 : CodeGenerator) {n b : Nat} {T : Tables Name AllocaInst} (hf : Finished gf)
    (hr : g.Ready) (ho : Opens n g g1) (hp : Part g1 (gf.within T)) (hge : g.blockCount ≤ b)
    (hlt : b < g.blockCount + n)
    (hpoint : g2.insertBlock = b) (he : (g2.blocks b).body = []) (c : Config) : At gf g2 (goTo gf b c) :=
  enter_block (hf.opened hr ho hp hge (ho.count ▸ hlt)) hpoint he c

/-- In the first of the blocks of a branch or a loop. -/
theorem Here.branch {op : CodeGenerator → CodeGenerator} {n : Nat} (hf : Finished gf)
    (h : Here M σ gf ge cs g s c)
    (hg : Grown g g1) (hs : ∃ g0, Sorted M σ gf g0 g1) (hop : CodeGenerator.Nameless op)
    (ho : Opens n g1 (op g1)) (hn : 0 < n) (hp : Part (op g1) (gf.within ge.scopeStack))
    (hmem : Memory M σ gf ge.currentFunction ge.scopeStack cs s1 c1) :
    Here M σ gf ge cs (op g1) s1 (goTo gf g1.blockCount c1) := by
  obtain ⟨g0, hg0⟩ := hs
  have hlt : g1.blockCount < (op g1).blockCount := by
    rw [ho.count]
    omega
  have hempty : ((op g1).blocks g1.blockCount).body = [] := by rw [ho.empty _ (Nat.le_refl _) hlt]
  refine h.grown (hg.trans h.ready ho.toGrown) ⟨g0, hg0.opens hop hg.ready ho⟩
    (ho.ready.terminated_of_empty ?_) ?_ hmem.goTo
  · rw [CodeGenerator.block, ho.point]
    exact hempty
  · exact opened_enter _ hf hg.ready ho hp (Nat.le_refl _) (by omega) ho.point hempty c1

/-- In a block that was pending. -/
theorem Advanced.merge {b n : Nat} (hf : Finished gf) (hr : g1.Ready) (ho : Opens n g1 g2)
    (hp : Part g2 (gf.within ge.scopeStack)) (hge : g1.blockCount ≤ b) (hlt : b < g1.blockCount + n)
    (hr' : (g'.setInsertPoint b).Ready) (he : (g'.blocks b).body = [])
    (hmem : Memory M σ gf ge.currentFunction ge.scopeStack cs s1 c1) (hret : Retains g.nextId c c1) :
    Advanced M σ gf ge cs g (g'.setInsertPoint b) c s1 (goTo gf b c1) :=
  ⟨hr'.terminated_of_empty he, opened_enter (g'.setInsertPoint b) hf hr ho hp hge hlt rfl he c1, hmem.goTo,
    hret.goTo⟩

/-- A condition and the branch on it. -/
theorem condition_performs {β : Type} {n a b : Nat} {f : Number → Prog Stop World β}
    {Q : β → World → Config → Prop}
    (hset : Setting M σ gf E fuel call k) (hc : Kinded σ e (.value .number))
    (ih : Performs M σ gf E fuel call k e (.value .number)) (h : Here M σ gf ge cs g s c)
    (hv : visit M .source e g = .ok g1) (hn : 0 < n)
    (hp : Part (openBlocks n (.condBr (g1.condition M).1 a b) (g1.condition M).2) (gf.within ge.scopeStack))
    (hf : ∀ m s1 c1, Memory M σ gf ge.currentFunction ge.scopeStack cs s1 c1 → Retains g.nextId c c1 →
      step gf E c1 = .inl (goTo gf (if m != 0 then a else b) c1) →
      Realizes (step gf E) (StopsAt gf E cs) Shows k c1 (f m s1) Q) :
    Realizes (step gf E) (StopsAt gf E cs) Shows k c
      ((eval E (definitions σ.functions) fuel call e >>= fun v => v.number >>= f) s) Q := by
  have hg1 := (CodeGenerator.visit_grows e h.ready).of_ok hv
  obtain ⟨hg2, _⟩ := CodeGenerator.condition_grown (M := M) hg1.ready
  have hblocks : Opens n (g1.condition M).2
      (openBlocks n (.condBr (g1.condition M).1 a b) (g1.condition M).2) := .openBlocks hn hg2.ready trivial
  have hp2 := hblocks.toGrown.part hp
  have hp1 := hg2.part hp2
  refine (ih ge cs g g1 s c h hv hp1).bind (fun v s1 c1 hend => ?_)
  obtain ⟨ha, hcomes⟩ := hend
  have hhere := h.next hset.sound hset.numbers hc hv hp1 ha
  obtain ⟨m, rfl, hk⟩ := hcomes.number
  obtain ⟨c2, hc2, hbit⟩ := condition_finds (E := E) hset.sound hg1.ready hp2.toExtends hhere.arrives.within hk
  have hstep := branch_step (E := E) hp.toExtends hg2.ready hc2.arrives hbit.value
  exact Realizes.of_star hc2.steps (hf m s1 c2 (hhere.memory.computes hc2)
    (ha.retains.trans hc2.retains hg1.frame.ids) hstep)

/-- The jump at the end of a branch. -/
theorem closeBranch_performs {target next : Nat} {r : Outcome Stop World Datum} {T : Tables Name AllocaInst}
    (hr : g2.Ready) (hp : Part (g2.closeBranch target next) (gf.within T))
    (h : Carries M σ gf E k ge cs g1 g2 c r o) :
    Realizes (step gf E) (StopsAt gf E cs) Shows k c r (fun _ s' c' => o ≠ .never ∧ ∃ d, c' = goTo gf target d ∧
      Memory M σ gf ge.currentFunction ge.scopeStack cs s' d ∧ Retains g1.nextId c d) := by
  refine Realizes.extend h (fun v s1 c1 hend => ?_)
  obtain ⟨ha, hcomes⟩ := hend
  have hclose : g2.branchUnlessTerminated target = g2.createBr target := by
    rw [CodeGenerator.branchUnlessTerminated, ha.unterminated]
    rfl
  rw [CodeGenerator.closeBranch, hclose] at hp
  have hstep := jump_step (E := E) hp.of_setInsertPoint.toExtends hr ha.arrives.within
  exact ⟨_, .one hstep, hcomes.1, c1, rfl, ha.memory, ha.retains⟩

section Statements

variable (hset : Setting M σ gf E fuel call k)
include hset

theorem ifThen_performs (hc : Kinded σ e1 (.value .number))
    (ihc : Performs M σ gf E fuel call k e1 (.value .number)) (iht : Performs M σ gf E fuel call k e2 o) :
    PerformsStmt M σ gf E fuel call k (.ifStmt e1 e2 none) acc .nothing := by
  intro ge cs g g' s c last h _ hv hp
  have hready := ((CodeGenerator.visitStmt_grows _ h.ready).of_ok hv).ready
  rw [visitStmt] at hv
  obtain ⟨g1, h1, hv⟩ := bind_ok_iff.mp hv
  obtain ⟨g2, h2, hv⟩ := bind_ok_iff.mp hv
  cases hv
  have hg1 := (CodeGenerator.visit_grows e1 h.ready).of_ok h1
  have ho := CodeGenerator.openIf_opens (M := M) hg1.ready
  have hg2 := (CodeGenerator.visit_grows e2 ho.ready).of_ok h2
  have hp2 := hp.closeBranch hg2.ready
  have hpo := hg2.part hp2
  have hs1 := h.sorted_next hset hc h1 (ho.toGrown.part hpo)
  have hpend : Pending (g1.blockCount + 1) (g2.branchUnlessTerminated (g1.blockCount + 1)) :=
    ((ho.isPending (g1.blockCount + 1) (by omega) (by omega)).visit hg2.frame).branchUnlessTerminated
  have hmerge {s' : World} {d : Config} (hmem : Memory M σ gf ge.currentFunction ge.scopeStack cs s' d)
      (hret : Retains g.nextId c d) :=
    Advanced.merge hset.finished hg1.ready ho hpo (by omega) (by omega) hready hpend.empty hmem hret
  rw [exec]
  refine condition_performs hset hc ihc h h1 (by omega) (openIf_eq (M := M) g1 ▸ hpo)
    (fun m s1 c1 hmem hret hstep => Realizes.of_star (.one hstep) ?_)
  -- either through the branch or straight to the merge block
  cases hb : m != 0 with
  | true =>
      have hhere := h.branch hset.finished hg1 hs1 CodeGenerator.nameless_openIf ho (by omega) hpo hmem
      refine (closeBranch_performs hg2.ready hp (iht ge cs _ g2 s1 _ hhere h2 hp2)).bind
        (fun v s2 c2 hend => ?_)
      obtain ⟨_, d, rfl, hmem2, hret2⟩ := hend
      exact Realizes.done
        ⟨hmerge hmem2 (hret.goTo.trans hret2 (Nat.le_trans hg1.frame.ids ho.frame.ids)), .nothing⟩
  | false => exact Realizes.done ⟨hmerge hmem hret, .nothing⟩

/-- Both branches. What comes after them is reached if either comes to its end. -/
theorem ifElse_performs {e3 : Expression} {o1 o2 : Effect} (hc : Kinded σ e1 (.value .number))
    (ht : Kinded σ e2 o1) (ihc : Performs M σ gf E fuel call k e1 (.value .number))
    (iht : Performs M σ gf E fuel call k e2 o1) (ihe : Performs M σ gf E fuel call k e3 o2)
    (ho1 : o1 ≠ .never → o = .nothing) (ho2 : o2 ≠ .never → o = .nothing) :
    PerformsStmt M σ gf E fuel call k (.ifStmt e1 e2 (some e3)) acc o := by
  intro ge cs g g' s c last h _ hv hp
  have hready := ((CodeGenerator.visitStmt_grows _ h.ready).of_ok hv).ready
  rw [visitStmt] at hv
  obtain ⟨g1, h1, hv⟩ := bind_ok_iff.mp hv
  obtain ⟨g2, h2, hv⟩ := bind_ok_iff.mp hv
  obtain ⟨g4, h4, hv⟩ := bind_ok_iff.mp hv
  cases hv
  have hg1 := (CodeGenerator.visit_grows e1 h.ready).of_ok h1
  have ho := CodeGenerator.openIfElse_opens (M := M) hg1.ready
  have hg2 := (CodeGenerator.visit_grows e2 ho.ready).of_ok h2
  have hg3 := CodeGenerator.closeThen_grown hg1.ready hg2
  have hg4 := (CodeGenerator.visit_grows e3 hg3.ready).of_ok h4
  have hp4 := hp.closeBranch hg4.ready
  have hp3 := hg4.part hp4
  have hp2 := hp3.closeBranch hg2.ready
  have hpo := hg2.part hp2
  obtain ⟨g0, hs1⟩ := h.sorted_next hset hc h1 (ho.toGrown.part hpo)
  have hso := hs1.opens CodeGenerator.nameless_openIfElse hg1.ready ho
  -- the blocks of the other branch and of what comes after
  have hpe : Pending (g1.blockCount + 1) (g2.branchUnlessTerminated (g1.blockCount + 2)) :=
    ((ho.isPending (g1.blockCount + 1) (by omega) (by omega)).visit hg2.frame).branchUnlessTerminated
  have hpm : Pending (g1.blockCount + 2) (g4.branchUnlessTerminated (g1.blockCount + 2)) :=
    ((((ho.isPending (g1.blockCount + 2) (by omega) (by omega)).visit hg2.frame).closeBranch
      (g1.blockCount + 2) (g1.blockCount + 1) (by omega)).visit hg4.frame).branchUnlessTerminated
  have hmerge {s' : World} {d : Config} (hmem : Memory M σ gf ge.currentFunction ge.scopeStack cs s' d)
      (hret : Retains g.nextId c d) :=
    Advanced.merge hset.finished hg1.ready ho hpo (by omega) (by omega) hready hpm.empty hmem hret
  rw [exec]
  refine condition_performs hset hc ihc h h1 (by omega) (openIfElse_eq (M := M) g1 ▸ hpo)
    (fun m s1 c1 hmem hret hstep => Realizes.of_star (.one hstep) ?_)
  cases hb : m != 0 with
  | true =>
      have hhere := h.branch hset.finished hg1 ⟨g0, hs1⟩ CodeGenerator.nameless_openIfElse ho
        (by omega) hpo hmem
      refine (closeBranch_performs hg2.ready hp3 (iht ge cs _ g2 s1 _ hhere h2 hp2)).bind
        (fun v s2 c2 hend => ?_)
      obtain ⟨hi, d, rfl, hmem2, hret2⟩ := hend
      obtain rfl := ho1 hi
      exact Realizes.done
        ⟨hmerge hmem2 (hret.goTo.trans hret2 (Nat.le_trans hg1.frame.ids ho.frame.ids)), .nothing⟩
  | false =>
      obtain ⟨hs2, _⟩ := visit_sorted hset.sound hset.numbers e2 ht g0 _ g2 _ ho.ready hso h2 hp2
      have hs3 : Sorted M σ gf g0 (g2.closeBranch (g1.blockCount + 2) (g1.blockCount + 1)) :=
        (hs2.branchUnlessTerminated _ hg2.ready).setInsertPoint
      have hat := opened_enter (g2.closeBranch (g1.blockCount + 2) (g1.blockCount + 1)) hset.finished
        hg1.ready ho hpo (b := g1.blockCount + 1) (by omega) (by omega) rfl hpe.empty c1
      have hhere := h.grown (hg1.trans h.ready hg3) ⟨g0, hs3⟩
        (hg3.ready.terminated_of_empty hpe.empty) hat hmem.goTo
      refine (closeBranch_performs hg4.ready hp (ihe ge cs _ g4 s1 _ hhere h4 hp4)).bind
        (fun v s2 c2 hend => ?_)
      obtain ⟨hi, d, rfl, hmem2, hret2⟩ := hend
      obtain rfl := ho2 hi
      exact Realizes.done
        ⟨hmerge hmem2 (hret.goTo.trans hret2 (Nat.le_trans hg1.frame.ids hg3.frame.ids)), .nothing⟩

/-- The loop is left when the condition is 0, and its steps count. -/
theorem while_performs (hc : Kinded σ e1 (.value .number))
    (ihc : Performs M σ gf E fuel call k e1 (.value .number)) (ihb : Performs M σ gf E fuel call k e2 o) :
    PerformsStmt M σ gf E fuel call k (.whileStmt e1 e2) acc .nothing := by
  intro ge cs g g' s c last h _ hv hp
  have hready := ((CodeGenerator.visitStmt_grows _ h.ready).of_ok hv).ready
  rw [visitStmt] at hv
  obtain ⟨g1, h1, hv⟩ := bind_ok_iff.mp hv
  obtain ⟨g2, h2, hv⟩ := bind_ok_iff.mp hv
  cases hv
  have hl := CodeGenerator.openLoop_opens h.ready
  have hg1 := (CodeGenerator.visit_grows e1 hl.ready).of_ok h1
  have hgg1 := hl.toGrown.trans h.ready hg1
  have ho := CodeGenerator.openBody_opens (M := M) hg1.ready
  have hg2 := (CodeGenerator.visit_grows e2 ho.ready).of_ok h2
  have hbr : Part (g2.createBr g.blockCount) (gf.within ge.scopeStack) := hp.of_setInsertPoint.of_setLast
  have hp2 := hp.closeLoop hg2.ready
  have hpo := hg2.part hp2
  have hp1 := ho.toGrown.part hpo
  have hpl := hg1.part hp1
  have hbrl : Extends ((createBlocks 1 g).createBr g.blockCount) (gf.within ge.scopeStack) :=
    { hpl.toExtends with }
  have hp' := ((ho.isPending (g1.blockCount + 1) (by omega) (by omega)).visit hg2.frame)
  have hpend : Pending (g1.blockCount + 1) (g2.createBrLast g.blockCount) :=
    ⟨hp'.lt, hp'.ne, (CodeGenerator.insert_body_ne (i := .br g.blockCount) hp'.ne).trans hp'.empty⟩
  -- the jump into the loop
  have hfirst := jump_step (E := E) hbrl (Grown.createBlocks 1 h.ready).ready
    (h.arrives.within.createBlocks (n := 1) h.ready)
  obtain ⟨g0, hs0⟩ := h.sorted
  have hhead {s1 : World} {c1 : Config} (hmem : Memory M σ gf ge.currentFunction ge.scopeStack cs s1 c1) :=
    h.branch hset.finished (.refl h.ready) ⟨g0, hs0⟩ CodeGenerator.nameless_openLoop hl (by omega) hpl hmem
  have hs1 : ∃ g0, Sorted M σ gf g0 g1 := (hhead h.memory).sorted_next hset hc h1 hp1
  rw [exec]
  refine Realizes.of_star (.one hfirst) (Realizes.bind (Realizes.loop_of_le (I := fun s1 c1 => ∃ d,
      c1 = goTo gf g.blockCount d ∧ Memory M σ gf ge.currentFunction ge.scopeStack cs s1 d ∧
        Retains g.nextId c d)
    (M := fun b s1 c1 => Memory M σ gf ge.currentFunction ge.scopeStack cs s1 c1 ∧ Retains g.nextId c c1 ∧
      step gf E c1 = .inl (goTo gf (if b then g1.blockCount else g1.blockCount + 1) c1))
    (Q := fun _ s1 c1 => Advanced M σ gf ge cs g (g2.closeLoop g.blockCount (g1.blockCount + 1)) c s1 c1)
    ?_ ?_ ?_ ?_ hset.bound ⟨c, rfl, h.memory, .refl _ _⟩) (fun _ s1 c1 ha => Realizes.done ⟨ha, .nothing⟩))
  · rintro s1 _ ⟨d, rfl, hmem, hret⟩
    refine condition_performs hset hc ihc (hhead hmem) h1 (by omega) (openBody_eq (M := M) g1 ▸ hpo)
      (fun m s2 c2 hmem2 hret2 hstep => Realizes.done ⟨hmem2, ?_, hstep⟩)
    exact hret.goTo.trans hret2 hl.frame.ids
  · rintro s1 c1 ⟨hmem, hret, hstep⟩
    have hhere := h.branch hset.finished hgg1 hs1 CodeGenerator.nameless_openBody ho (by omega) hpo hmem
    refine ⟨_, hstep, (ihb ge cs _ g2 s1 _ hhere h2 hp2).bind (fun v s2 c2 hend => ?_)⟩
    have hjump := jump_step (E := E) hbr.toExtends hg2.ready hend.1.arrives.within
    refine Realizes.of_star (.one hjump) (Realizes.done ⟨c2, rfl, hend.1.memory, ?_⟩)
    exact hret.goTo.trans hend.1.retains (Nat.le_trans hgg1.frame.ids ho.frame.ids)
  · rintro s1 c1 ⟨hmem, hret, hstep⟩
    have hmerge := Advanced.merge hset.finished hg1.ready ho hpo (by omega) (by omega) hready hpend.empty
      hmem hret
    exact ⟨_, .one hstep, hmerge⟩
  · rintro s1 _ ⟨d, rfl, hmem, _⟩
    exact hmem.goTo.toShows

theorem print_performs (he : Kinded σ e (.value .number))
    (ih : Performs M σ gf E fuel call k e (.value .number)) :
    PerformsStmt M σ gf E fuel call k (.printStmt e) acc .nothing := by
  intro ge cs g g' s c last h _ hv hp
  obtain ⟨g1, h1, hv⟩ := bind_ok_iff.mp hv
  cases hv
  have hg1 := (CodeGenerator.visit_grows e h.ready).of_ok h1
  have hp1 := (CodeGenerator.print_grown hg1.ready).part hp
  rw [exec]
  refine (ih ge cs g g1 s c h h1 hp1).bind (fun v s1 c1 hend => ?_)
  have hhere := h.next hset.sound hset.numbers he h1 hp1 hend.1
  obtain ⟨n, rfl, hk⟩ := hend.2.number
  obtain ⟨c2, hstep, ha⟩ := print_after (E := E) hset.finished hhere hp hk
  exact Realizes.of_star (.one hstep) (Realizes.done ⟨hend.1.trans ha hg1.frame.ids, .nothing⟩)

end Statements

/-- The machine stands at the `ret` of a value. -/
theorem ret_stops {n : Number} {u : Value} {T : Tables Name AllocaInst} (hr : g.Ready) (hat : At gf g c)
    (hp : Part (g.createRet u) (gf.within T)) (hu : c.value u = some (.int n)) (hshow : Shows s c)
    (hcallers : c.callers = cs) : StopsAt gf E cs (.returned (.int n)) s c := by
  obtain ⟨rest, hcode, _⟩ := hat.within.next (i := .ret u) hr hp.toExtends
  have hu' : (c.setCode rest).value u = some (.int n) := hu
  refine ⟨n, c.setCode rest, rfl, ?_, hshow, ⟨hshow.printed, hshow.delivered⟩, hcallers⟩
  rw [step_cons hcode]
  simp only [execute, hu']

theorem returnNone_performs : PerformsStmt M σ gf E fuel call k (.returnStmt none) acc .never := by
  intro ge cs g g' s c last h _ hv hp
  cases hv
  rw [exec]
  exact ⟨c, .refl c, ret_stops h.ready h.arrives hp rfl h.memory.toShows h.memory.callers⟩

theorem returnSome_performs (ih : Performs M σ gf E fuel call k e (.value .number)) :
    PerformsStmt M σ gf E fuel call k (.returnStmt (some e)) acc .never := by
  intro ge cs g g' s c last h _ hv hp
  obtain ⟨g1, h1, hv⟩ := bind_ok_iff.mp hv
  cases hv
  have hg1 := (CodeGenerator.visit_grows e h.ready).of_ok h1
  have hret : Grown g1 (g1.createRet g1.lastValue) := .insert hg1.ready trivial
  have hp1 := hret.part hp
  rw [exec]
  refine (ih ge cs g g1 s c h h1 hp1).bind (fun v s1 c1 hend => ?_)
  obtain ⟨n, rfl, hk⟩ := hend.2.number
  exact ⟨c1, .refl c1, ret_stops hg1.ready hend.1.arrives hp hk.value hend.1.memory.toShows
    hend.1.memory.callers⟩

/-! ## Calls -/

theorem args_nil_performs : PerformsArgs M σ gf E fuel call k [] := by
  intro ge cs g r s c h hv _
  cases hv
  rw [evalArgs]
  exact Realizes.done ⟨h.here, [], rfl, rfl, .nil⟩

theorem args_cons_performs {es : List Expression} (hset : Setting M σ gf E fuel call k)
    (he : Kinded σ e (.value .number)) (ih : Performs M σ gf E fuel call k e (.value .number))
    (ihes : PerformsArgs M σ gf E fuel call k es) : PerformsArgs M σ gf E fuel call k (e :: es) := by
  intro ge cs g r s c h hv hp
  rw [visitArgs] at hv
  obtain ⟨g1, h1, hv⟩ := bind_ok_iff.mp hv
  obtain ⟨r', h2, hv⟩ := bind_ok_iff.mp hv
  cases hv
  have hg1 := (CodeGenerator.visit_grows e h.ready).of_ok h1
  have hg2 := (CodeGenerator.visitArgs_grows es hg1.ready).of_ok h2
  have hp1 := hg2.part hp
  rw [evalArgs]
  refine (ih ge cs g g1 s c h h1 hp1).bind (fun v s1 c1 hend => ?_)
  have hhere := h.next hset.sound hset.numbers he h1 hp1 hend.1
  obtain ⟨n, rfl, hk⟩ := hend.2.number
  refine Realizes.bind (ihes ge cs g1 r' s1 c1 hhere h2 hp) (fun vs s2 c2 hend2 => ?_)
  obtain ⟨ha, ns, rfl, hlen, hall⟩ := hend2
  exact Realizes.done ⟨hend.1.trans ha hg1.frame.ids, n :: ns, rfl, congrArg (· + 1) hlen,
    .cons (hk.retained ha.retains hg2.frame.ids) hall⟩

/-- Values that are known are the arguments. -/
theorem mapM_known {ws : List Value} {ns : List Number}
    (h : List.Forall₂ (fun w n => Known g c w (.int n)) ws ns) : ws.mapM c.value = some (ns.map .int) := by
  induction h with
  | nil => rfl
  | cons hk _ ih =>
      rw [List.mapM_cons, hk.value, ih]
      rfl

/-- The code of a function is found from its start on. -/
theorem Compiled.parts {name : Option Name} {gs : CodeGenerator} (h : Compiled M σ gf name ps body gs g1 g2) :
    CodeGenerator.Opened gs (gs.openFunction M name ps.length) ∧ Grown (gs.openFunction M name ps.length) g1 ∧
      Grown g1 g2 ∧ Part g2 (gf.within g2.scopeStack) := by
  have ho := CodeGenerator.openFunction_opened (M := M) name ps.length gs
  have hg1 := (CodeGenerator.bindParams_grows (ho.ready h.ready)).of_ok h.enters
  have hg2 := (CodeGenerator.visit_grows body hg1.ready).of_ok h.visits
  exact ⟨ho, hg1, hg2, (CodeGenerator.returnUnlessTerminated_grown hg2.ready g2.lastValue).part h.part⟩

/-- A function that has been opened starts with its own block. -/
theorem CodeGenerator.Opened.entryBlock (hr : g.Ready) (ho : CodeGenerator.Opened g g1) :
    g1.entryBlock g.functions.length = some g.blockCount := by
  rw [CodeGenerator.entryBlock, List.find?_range_eq_some]
  refine ⟨?_, List.mem_range.mpr (by rw [ho.count]; omega), fun b hb => ?_⟩
  · rw [ho.blocks, CodeGenerator.createBlock_new]
    simp
  · rw [ho.old hb]
    have hlt := hr.parents b hb
    simp
    omega

/-- The number of a function leads to its code. -/
theorem Generated.entry {f : Nat} (hn : M.Numbers) (h : Generated M σ gf f ps body) :
    ∃ fn b, gf.functions[f]? = some fn ∧ fn.paramCount = ps.length ∧ gf.entryBlock f = some b := by
  cases h with
  | @intro name _ _ gs g1 g2 hc _ =>
      obtain ⟨ho, hg1, hg2, hp⟩ := hc.parts
      have hpo := hg1.part (hg2.part hp)
      obtain ⟨x, hx, _⟩ := openFunction_functions hn name ps.length gs
      have hfun : gf.functions[gs.functions.length]? = some ⟨x, ps.length⟩ := by
        obtain ⟨ds, hds⟩ := hpo.functions
        show (gf.within g2.scopeStack).functions[_]? = _
        rw [← hds, hx, List.append_assoc, List.getElem?_append_right (Nat.le_refl _), Nat.sub_self]
        rfl
      exact ⟨_, gs.blockCount, hfun, rfl,
        CodeGenerator.entryBlock_of_parents (ho.entryBlock hc.ready) hpo.count hpo.parent⟩

/-- The instruction of a call, up to the point after it. -/
theorem callFunction_carries {f arity : Nat} {callee : Value} {ws : List Value} {ns : List Number}
    (hset : Setting M σ gf E fuel call k) (h : Advanced M σ gf ge cs g1 g c1 s c) (hr : g.Ready)
    (hp : Part (g.createCall arity callee ws) (gf.within ge.scopeStack)) (hgen : Generated M σ gf f ps body)
    (hcallee : Known g c callee (.func f)) (hargs : List.Forall₂ (fun w n => Known g c w (.int n)) ws ns)
    (hlen : ns.length = ps.length) :
    Carries M σ gf E k ge cs g (g.createCall arity callee ws) c (call ps body (ns.map .int) s)
      (.value .number) := by
  obtain ⟨fn, b, hfn, hcount, hentry⟩ := hgen.entry hset.numbers
  obtain ⟨rest, hcode, hrest⟩ := h.arrives.within.next (i := .call g.nextId arity callee ws) hr
    hp.of_setLast.toExtends
  let caller : Activation := { c.top with code := rest }
  let c2 : Config := { c with
    top := ⟨(gf.blocks b).instrs, ns.map .int, fun _ => none, fun _ => none⟩
    callers := (g.nextId, caller) :: c.callers }
  have hstep : step gf E c = .inl c2 := by
    have hvalue : (c.setCode rest).value callee = some (.func f) := hcallee.value
    have hvalues : ws.mapM c.value = some (ns.map .int) := mapM_known hargs
    have hvalues : ws.mapM (c.setCode rest).value = some (ns.map .int) := hvalues
    have hws : ws.length = fn.paramCount := (hargs.length_eq.trans hlen).trans hcount.symm
    rw [step_cons hcode]
    simp only [execute, callFunction, hvalue, hfn, hentry, if_pos hws, hvalues, Option.map_some, orInvalid]
    rfl
  obtain ⟨j, hj, hserves⟩ := hset.serves
  have hmem := h.memory
  have hcallers : c2.callers = (g.nextId, caller) :: cs := congrArg (List.cons (g.nextId, caller)) hmem.callers
  refine Realizes.of_step hstep hj
    ((hserves f ps body b ns g.nextId caller cs s c2 hgen hlen hentry rfl hcallers
    ⟨hmem.printed, hmem.delivered⟩).weaken (fun v s' c' hback => ?_))
  obtain ⟨n, rfl, htop⟩ := hback.result
  refine ⟨⟨CodeGenerator.insert_terminated, ?_, ⟨hback.toShows, ?_, ?_, hback.callers⟩, ?_⟩, .int ⟨?_, rfl, ?_⟩⟩
  · have hafter : (caller.setReg g.nextId (.int n)).code = _ := hrest
    show c'.top.code = _
    rw [htop]
    exact hafter
  · rw [htop, hback.locals]
    exact hmem.cells
  · rw [hback.locals]
    exact hmem.known
  · refine ⟨by rw [htop]; rfl, fun id hid => ?_⟩
    rw [htop]
    exact Function.update_of_ne (Nat.ne_of_lt hid) _ _
  · show c'.top.regs g.nextId = _
    rw [htop]
    exact Function.update_self _ _ _
  · exact Nat.lt_succ_self _

theorem call_performs {es : List Expression} (hset : Setting M σ gf E fuel call k)
    (he : Kinded σ e (.value (.function es.length)))
    (ih : Performs M σ gf E fuel call k e (.value (.function es.length)))
    (ihes : PerformsArgs M σ gf E fuel call k es) :
    Performs M σ gf E fuel call k (.call e es) (.value .number) := by
  intro ge cs g g' s c h hv hp
  rw [visit] at hv
  obtain ⟨g1, h1, hv⟩ := bind_ok_iff.mp hv
  obtain ⟨r, h2, hv⟩ := bind_ok_iff.mp hv
  cases hv
  have hg1 := (CodeGenerator.visit_grows e h.ready).of_ok h1
  have hg2 := (CodeGenerator.visitArgs_grows es hg1.ready).of_ok h2
  have hp2 := (CodeGenerator.createCall_grown _ g1.lastValue r.1 hg2.ready).part hp
  have hp1 := hg2.part hp2
  rw [eval]
  refine (ih ge cs g g1 s c h h1 hp1).bind (fun v s1 c1 hend => ?_)
  have hhere := h.next hset.sound hset.numbers he h1 hp1 hend.1
  obtain ⟨hkind, w, hw, hk⟩ := hend.2.2 _ rfl
  obtain ⟨ps, body, rfl, hps⟩ := Datum.is_function hkind
  obtain ⟨f, rfl, hgen⟩ := hw
  refine Realizes.bind (ihes ge cs g1 r s1 c1 hhere h2 hp2) (fun vs s2 c2 hend2 => ?_)
  obtain ⟨ha, ns, rfl, hlen, hall⟩ := hend2
  have hrun := callFunction_carries hset ha hg2.ready hp hgen (hk.retained ha.retains hg2.frame.ids) hall
    (hlen.trans hps.symm)
  refine hrun.weaken (fun v s3 c3 h3 => ⟨?_, h3.2⟩)
  exact (hend.1.trans ha hg1.frame.ids).trans h3.1 (Nat.le_trans hg1.frame.ids hg2.frame.ids)

/-! ## The visitors -/

section Visitors

variable (hset : Setting M σ gf E fuel call k)
include hset

mutual

/-- **Expressions.** -/
theorem visit_performs : ∀ (e : Expression) {o : Effect}, Kinded σ e o → Performs M σ gf E fuel call k e o
  | .number n, o, h => by
      cases h
      exact number_performs n
  | .var x, o, h => by
      cases h with
      | var hx => exact var_performs hset hx
      | name hf => exact name_performs hf
  | .assignmentExpr x e, o, h => by
      cases h with
      | assignment hx he => exact assignment_performs hset hx he (visit_performs e he)
  | .binaryOperator op a b, o, h => by
      cases h with
      | binary ha hb => exact binary_performs hset op ha hb (visit_performs a ha) (visit_performs b hb)
  | .unaryOperator op e, o, h => by
      cases h with
      | unary he => exact unary_performs hset op he (visit_performs e he)
  | .input, o, h => by
      cases h
      exact input_performs hset
  | .blockExpr ss, o, h => by
      cases h with
      | block hss =>
          intro ge cs g g' s c hhere hv hp
          rw [visit] at hv
          rw [eval]
          exact visitStmts_perform ss hss ge cs g g' s c _ hhere .nothing hv hp
  | .func name ps body, o, h => by
      cases h with
      | func hps hname hbody ho => exact func_performs hps hname hbody ho
  | .call t es, o, h => by
      cases h with
      | call ht hes => exact call_performs hset ht (visit_performs t ht) (visitArgs_perform es hes)

/-- **Statements.** -/
theorem visitStmt_performs : ∀ (st : Statement) {acc o : Effect}, KindedStmt σ st acc o →
    PerformsStmt M σ gf E fuel call k st acc o
  | .emptyStmt, acc, o, h => by
      cases h
      intro ge cs g g' s c last hhere hlast hv _
      cases hv
      rw [exec]
      exact Realizes.done ⟨hhere.here, hlast⟩
  | .exprStmt e, acc, o, h => by
      cases h with
      | expr he =>
          intro ge cs g g' s c last hhere _ hv hp
          rw [exec]
          exact visit_performs e he ge cs g g' s c hhere hv hp
  | .ifStmt c t none, acc, o, h => by
      cases h with
      | ifThen hc ht => exact ifThen_performs hset hc (visit_performs c hc) (visit_performs t ht)
  | .ifStmt c t (some e), acc, o, h => by
      cases h with
      | ifElse hc ht he =>
          exact ifElse_performs hset hc ht (visit_performs c hc) (visit_performs t ht) (visit_performs e he)
            (fun _ => rfl) (fun _ => rfl)
      | ifNever hc ht he =>
          exact ifElse_performs hset hc ht (visit_performs c hc) (visit_performs t ht) (visit_performs e he)
            (fun h => absurd rfl h) (fun h => absurd rfl h)
  | .whileStmt c b, acc, o, h => by
      cases h with
      | whileLoop hc hb => exact while_performs hset hc (visit_performs c hc) (visit_performs b hb)
  | .printStmt e, acc, o, h => by
      cases h with
      | print he => exact print_performs hset he (visit_performs e he)
  | .returnStmt none, acc, o, h => by
      cases h
      exact returnNone_performs
  | .returnStmt (some e), acc, o, h => by
      cases h with
      | returnSome he => exact returnSome_performs (visit_performs e he)

theorem visitStmts_perform : ∀ (ss : List Statement) {acc o : Effect}, KindedStmts σ ss acc o →
    PerformsStmts M σ gf E fuel call k ss acc o
  | [], acc, o, h => by
      cases h
      intro ge cs g g' s c last hhere hlast hv _
      cases hv
      rw [evalStmts]
      exact Realizes.done ⟨hhere.here, hlast⟩
  | st :: ss, acc, o, h => by
      cases h with
      | cons hst hss =>
          intro ge cs g g' s c last hhere hlast hv hp
          obtain ⟨g1, h1, h2⟩ := bind_ok_iff.mp hv
          have hg1 := (CodeGenerator.visitStmt_grows st hhere.ready).of_ok h1
          have hg2 := (CodeGenerator.visitStmts_grows ss hg1.ready).of_ok h2
          have hp1 := hg2.part hp
          rw [evalStmts]
          refine (visitStmt_performs st hst ge cs g g1 s c last hhere hlast h1 hp1).bind
            (fun v s1 c1 hend => ?_)
          obtain ⟨ha, hcomes⟩ := hend
          obtain ⟨g0, hg0⟩ := hhere.sorted
          obtain ⟨hs1, _⟩ :=
            visitStmt_sorted hset.sound hset.numbers st hst g0 g g1 _ hhere.ready hg0 hlast.typed h1
            hp1
          have hnext := hhere.grown hg1 ⟨g0, hs1⟩ ha.unterminated ha.arrives ha.memory
          refine (visitStmts_perform ss hss ge cs g1 g' s1 c1 v hnext hcomes h2 hp).weaken
            (fun u s2 c2 hend => ?_)
          exact ⟨ha.trans hend.1 hg1.frame.ids, hend.2⟩

theorem visitArgs_perform : ∀ es : List Expression, KindedArgs σ es → PerformsArgs M σ gf E fuel call k es
  | [], _ => args_nil_performs
  | e :: es, h => by
      cases h with
      | cons he hes => exact args_cons_performs hset he (visit_performs e he) (visitArgs_perform es hes)

end

end Visitors

/-! ## Nested calls -/

/-- A value is handed back to the caller. -/
theorem StopsAt.back {id : Nat} {caller : Activation}
    (h : StopsAt gf E ((id, caller) :: cs) (.returned v) s1 c) :
    ∃ c', Star (step gf E) c c' ∧ Back id caller cs s v (s1.withLocals s.locals) c' := by
  obtain ⟨n, c1, rfl, hstep, _, hshow, hcallers⟩ := h
  have hreturn : returnValue (.int n) c1 =
      .inl { c1 with top := caller.setReg id (.int n), callers := cs } := by
    rw [returnValue, hcallers]
  exact ⟨_, .one (hstep.trans hreturn), ⟨⟨hshow.printed, hshow.delivered⟩, rfl, ⟨n, rfl, rfl⟩, rfl⟩⟩

/-- The end of a body, or a `return` in it. -/
theorem Carries.back {m : Prog Stop World Datum} {μ : Name → Option Datum} {id : Nat} {caller : Activation}
    {T : Tables Name AllocaInst} (h : Carries M σ gf E k ge ((id, caller) :: cs) g1 g2 c (m (s.withLocals μ)) o)
    (ho : o = .value .number ∨ o = .never) (hr : g2.Ready)
    (hp : Part (g2.returnUnlessTerminated g2.lastValue) (gf.within T)) :
    Realizes (step gf E) (StopsAt gf E cs) Shows k c (invoke m μ s) (Back id caller cs s) := by
  unfold invoke
  cases hrun : m (s.withLocals μ) with
  | done v s1 =>
      rw [hrun] at h
      obtain ⟨c1, hstar, ha, hcomes⟩ := h
      obtain rfl := ho.resolve_right hcomes.1
      obtain ⟨n, rfl, hk⟩ := hcomes.number
      have hret : g2.returnUnlessTerminated g2.lastValue = g2.createRet g2.lastValue := by
        rw [CodeGenerator.returnUnlessTerminated, ha.unterminated]
        rfl
      rw [hret] at hp
      obtain ⟨c2, hstar2, hback⟩ := (ret_stops (E := E) hr ha.arrives hp hk.value ha.memory.toShows
        ha.memory.callers).back (s := s)
      exact ⟨c2, hstar.trans hstar2, hback⟩
  | fault e s1 =>
      rw [hrun] at h
      obtain ⟨c1, hstar, hstop⟩ := h
      cases e with
      | fault e => exact ⟨c1, hstar, hstop⟩
      | kind => exact hstop.elim
      | returned v =>
          obtain ⟨c2, hstar2, hback⟩ := hstop.back (s := s)
          exact ⟨c2, hstar.trans hstar2, hback⟩
  | timeout s1 =>
      rw [hrun] at h
      exact h

/-- The parameters have their arguments, and the body comes next. -/
theorem Compiled.enters_here {name : Option Name} {gs : CodeGenerator} {ns : List Number} (hs : M.Sound)
    (hn : M.Numbers) (hf : Finished gf) (h : Compiled M σ gf name ps body gs g1 g2)
    (entries : ∀ x f qs e, gs.functionTable x = some f → σ.Names x qs e → Generated M σ gf f qs e)
    (hlen : ns.length = ps.length)
    (htop : c.top = ⟨(gf.blocks gs.blockCount).instrs, ns.map .int, fun _ => none, fun _ => none⟩)
    (hshow : Shows s c) (hcs : c.callers = cs) :
    ∃ c', Star (step gf E) c c' ∧
      Here M σ gf g2 cs g1 (s.withLocals (bindArgs (fun _ => none) ps (ns.map .int))) c' := by
  obtain ⟨ho, hg1, hg2, hp⟩ := h.parts
  have hp1 := hg2.part hp
  have hpo := hg1.part hp1
  have hro := ho.ready h.ready
  have hempty : (gs.openFunction M name ps.length).block.body = [] := by
    rw [CodeGenerator.block, ho.point, ho.blocks, CodeGenerator.createBlock_new]
  have hnone (x : Name) (a : AllocaInst) (hx : (gs.openFunction M name ps.length).lookup x = some a) :
      a.func ≠ gs.functions.length := by
    unfold CodeGenerator.lookup at hx
    rw [ho.scopeStack, Tables.lookup_open] at hx
    obtain ⟨l, hl, ha⟩ := Tables.mem_of_lookup hx
    exact Nat.ne_of_lt (h.ready.slots_func (CodeGenerator.mem_slots hl ha))
  rw [← ho.point] at htop
  obtain ⟨c1, hc1, he1⟩ := entered (M := M) (σ := σ) (E := E) hf hro hpo hempty hnone htop hshow hcs
  obtain ⟨c2, hc2, he2⟩ := he1.params (E := E) h.params (by rw [Nat.zero_add, hlen]) hro h.enters hp1
  rw [List.drop_zero] at he2
  obtain ⟨hr1, hs1⟩ := h.sorted hn entries
  obtain ⟨o, hk, _⟩ := h.kinded
  obtain ⟨hs2, _⟩ := visit_sorted hs hn body hk g1 g1 g2 _ hr1 hs1 h.visits hp
  refine ⟨c2, hc1.trans hc2, he2.here hr1 hs1 hs2 hg2 hp (hg1.frame.current.trans ho.current) ?_⟩
  rw [ho.point]
  exact hg1.frame.entryBlock (ho.entryBlock h.ready)

/-- **Calls.** However deep they are nested, the code of a function does what its body means. -/
theorem serves_calls (hs : M.Sound) (hn : M.Numbers) (hf : Finished gf) (hops : E.ops = .generated) {n : Nat}
    (hle : n ≤ fuel) : Serves M σ gf E (calls E (definitions σ.functions) fuel n) n := by
  induction n with
  | zero => exact fun f ps body b ns id caller cs s c _ _ _ _ _ hshow => ⟨0, c, Nat.le_refl _, .refl c, hshow⟩
  | succ n ih =>
      intro f ps body b ns id caller cs s c hgen hlen hentry htop hcallers hshow
      have hset : Setting M σ gf E fuel (calls E (definitions σ.functions) fuel n) (n + 1) :=
        ⟨hs, hn, hf, hops, hle, n, Nat.le_refl _, ih (Nat.le_of_succ_le hle)⟩
      cases hgen with
      | @intro name _ _ gs g1 g2 hc entries =>
          obtain ⟨ho, hg1, hg2, hp⟩ := hc.parts
          have hpo := hg1.part (hg2.part hp)
          have hfirst : gf.entryBlock gs.functions.length = some gs.blockCount :=
            CodeGenerator.entryBlock_of_parents (ho.entryBlock hc.ready) hpo.count hpo.parent
          rw [hfirst] at hentry
          cases hentry
          obtain ⟨c1, hstar, hhere⟩ := hc.enters_here (E := E) hs hn hf entries hlen htop hshow hcallers
          obtain ⟨o, hk, ho'⟩ := hc.kinded
          have hrun := visit_performs hset body hk g2 _ g1 g2 _ c1 hhere hc.visits hp
          have hcall : calls E (definitions σ.functions) fuel (n + 1) ps body (ns.map .int) =
              invoke (eval E (definitions σ.functions) fuel (calls E (definitions σ.functions) fuel n) body)
                (bindArgs (fun _ => none) ps (ns.map .int)) := by
            rw [calls, if_pos (by rw [List.length_map, hlen])]
          rw [hcall]
          exact Realizes.of_star hstar (hrun.back ho' hg2.ready hc.part)

end ParaCL
