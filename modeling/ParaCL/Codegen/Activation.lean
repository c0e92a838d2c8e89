import ParaCL.Codegen.Kinded
import ParaCL.Codegen.ControlFlow
import ParaCL.Codegen.Slots

/-!
# `Codegen.Activation` — the machine inside a function

How the activation of a function stands for the variables of a call: each slot of the function holds the
constant of its variable, as far as that has a value (`Memory`). `Here` is the whole of what holds between two
visits, `Advanced` what the code of a visit leaves behind, and there is one lemma for each instruction that
takes the machine from the one to the other.
-/

namespace ParaCL

open Lib ParaCL.Language

open CodeGenerator (emit visit visitStmt visitStmts visitArgs Grown Frame Opens Pending)

/-- The constant stands for the value. -/
def StandsFor (M : Llvm) (σ : Signature) (gf : CodeGenerator) : Datum → Constant → Prop
  | .int n, w => w = .int n
  | .code ps body, w => ∃ k, w = .func k ∧ Generated M σ gf k ps body

/-- The machine has printed and read what the program has. -/
structure Shows (s : World) (c : Config) : Prop where
  printed : c.printed = s.printed
  delivered : c.delivered = s.delivered

/-- The slots of the function `f`, as they are named at its end, hold the variables of the call. -/
structure Memory (M : Llvm) (σ : Signature) (gf : CodeGenerator) (f : Nat) (T : Tables Name AllocaInst)
    (cs : List (Nat × Activation)) (s : World) (c : Config) : Prop extends Shows s c where
  cells : ∀ x a, Tables.lookup T x = some a → a.func = f →
    ∃ w, c.top.slots a.id = some w ∧ ∀ v, s.locals x = some v → StandsFor M σ gf v w
  known : ∀ x v, s.locals x = some v → σ.Variable x ∧ v.Is (σ.vars x)
  callers : c.callers = cs

/-- What has been computed before the instruction `n`, and the arguments, are still there. -/
structure Retains (n : Nat) (c c' : Config) : Prop where
  args : c'.top.args = c.top.args
  regs : ∀ id < n, c'.top.regs id = c.top.regs id

/-- What is used of the finished module as a whole. -/
structure Finished (gf : CodeGenerator) : Prop where
  placed : gf.Placed
  own : gf.Own
  library : ∀ b < gf.blockCount, ∀ fn, gf.functions[(gf.blocks b).parent]? = some fn →
    fn.name ≠ "printf" ∧ fn.name ≠ "scanf"

/-- Between two visits, in a function that is finished in the state `ge`. -/
structure Here (M : Llvm) (σ : Signature) (gf ge : CodeGenerator) (cs : List (Nat × Activation))
    (g : CodeGenerator) (s : World) (c : Config) : Prop where
  finished : ge.Ready
  ready : g.Ready
  sorted : ∃ g0, Sorted M σ gf g0 g
  current : ge.currentFunction = g.currentFunction
  unterminated : g.terminated = false
  arrives : At gf g c
  memory : Memory M σ gf ge.currentFunction ge.scopeStack cs s c

/-- After the code of a visit from `g` to `g'`. -/
structure Advanced (M : Llvm) (σ : Signature) (gf ge : CodeGenerator) (cs : List (Nat × Activation))
    (g g' : CodeGenerator) (c : Config) (s' : World) (c' : Config) : Prop where
  unterminated : g'.terminated = false
  arrives : At gf g' c'
  memory : Memory M σ gf ge.currentFunction ge.scopeStack cs s' c'
  retains : Retains g.nextId c c'

/-- The last value is of the effect, and the machine knows it. -/
def Comes (M : Llvm) (σ : Signature) (gf : CodeGenerator) (o : Effect) (g : CodeGenerator) (c : Config)
    (v : Datum) : Prop :=
  o ≠ .never ∧ ∀ k, o = .value k → v.Is k ∧ ∃ w, StandsFor M σ gf v w ∧ Known g c g.lastValue w

/-- The machine where the program stops: anywhere with the same output at a fault, and at a `ret` of the value
    at a `return`. A value of the wrong kind is never met. -/
def StopsAt (gf : CodeGenerator) (E : Env) (cs : List (Nat × Activation)) : Stop → World → Config → Prop
  | .fault _, s, c => Shows s c
  | .kind, _, _ => False
  | .returned v, s, c =>
      ∃ n c', v = .int n ∧ step gf E c = returnValue (.int n) c' ∧ Shows s c ∧ Shows s c' ∧ c'.callers = cs

variable {M : Llvm} {σ : Signature} {gf gl ge g g' g1 g2 : CodeGenerator} {E : Env}
  {cs : List (Nat × Activation)} {s s' s1 : World} {c c' c1 c2 : Config} {v : Datum} {w u : Constant} {k : Kind}
  {x : Name} {a : AllocaInst} {f : Nat} {T : Tables Name AllocaInst}

/-! ## Small facts -/

theorem At.within (h : At gf g c) : At (gf.within T) g c := h

theorem StandsFor.ty (h : StandsFor M σ gf v w) (hk : v.Is k) : w.ty = k.ty := by
  cases v with
  | int n =>
      cases k with
      | number =>
          cases h
          rfl
      | function n => exact hk.elim
  | code ps body =>
      cases k with
      | number => exact hk.elim
      | function n =>
          obtain ⟨j, rfl, _⟩ := h
          rfl

theorem Retains.refl (n : Nat) (c : Config) : Retains n c c := ⟨rfl, fun _ _ => rfl⟩

theorem Retains.trans {m n : Nat} (h1 : Retains m c c1) (h2 : Retains n c1 c2) (hmn : m ≤ n) : Retains m c c2 :=
  ⟨h2.args.trans h1.args, fun id hid => (h2.regs id (Nat.lt_of_lt_of_le hid hmn)).trans (h1.regs id hid)⟩

theorem Retains.setReg {rest : List Instruction} (n : Nat) (c : Config) :
    Retains n c ((c.setCode rest).setReg n w) :=
  ⟨rfl, fun _ hid => Function.update_of_ne (Nat.ne_of_lt hid) _ _⟩

theorem Computes.retains {n : Nat} (h : Computes gl E n g' c c') : Retains n c c' := ⟨h.args, h.regs⟩

/-- What was known is known later on. -/
theorem Known.retained {v : Value} (h : Known g c v w) (hr : Retains g.nextId c c')
    (hid : g.nextId ≤ g'.nextId) : Known g' c' v w where
  value := by
    have hv := h.value
    have hb := h.below
    cases v with
    | inst id ty => exact (hr.regs id hb).trans hv
    | arg f index =>
        have hargs : c'.top.args[index]? = c.top.args[index]? := by rw [hr.args]
        exact hargs.trans hv
    | const | slot | unset => exact hv
  ty := h.ty
  below := h.below.mono hid

theorem Shows.trans (h : Shows s c) (hp : c'.printed = c.printed) (hd : c'.delivered = c.delivered) :
    Shows s c' := ⟨hp.trans h.printed, hd.trans h.delivered⟩

/-- The memory is looked at through the slots only. -/
theorem Memory.congr (h : Memory M σ gf f T cs s c) (hs : c'.top.slots = c.top.slots)
    (hp : c'.printed = c.printed) (hd : c'.delivered = c.delivered) (hc : c'.callers = c.callers) :
    Memory M σ gf f T cs s c' where
  toShows := h.toShows.trans hp hd
  cells := by
    rw [hs]
    exact h.cells
  known := h.known
  callers := hc.trans h.callers

theorem Memory.computes {n : Nat} (h : Memory M σ gf f T cs s c) (hc : Computes gl E n g' c c') :
    Memory M σ gf f T cs s c' := h.congr hc.slots hc.printed hc.delivered hc.callers

theorem Memory.goTo {b : Nat} (h : Memory M σ gf f T cs s c) : Memory M σ gf f T cs s (goTo gf b c) :=
  h.congr rfl rfl rfl rfl

/-- A variable is stored. -/
theorem Memory.store {rest : List Instruction} (hr : ge.Ready) (h : Memory M σ gf f ge.scopeStack cs s c)
    (hx : σ.Variable x) (hl : ge.lookup x = some a) (hv : v.Is (σ.vars x)) (hw : StandsFor M σ gf v w) :
    Memory M σ gf f ge.scopeStack cs (s.store x v) ((c.setCode rest).setSlot a.id w) where
  printed := h.printed
  delivered := h.delivered
  callers := h.callers
  cells y b hy hf := by
    by_cases hyx : y = x
    · subst hyx
      have hab : some a = some b := hl.symm.trans hy
      cases hab
      refine ⟨w, Function.update_self _ _ _, fun u hu => ?_⟩
      have hu : Function.update s.locals y (some v) y = some u := hu
      rw [Function.update_self] at hu
      cases hu
      exact hw
    · have hid : b.id ≠ a.id := fun hid => hyx (lookup_injective hr hy hl hid)
      obtain ⟨u, hu, hstands⟩ := h.cells y b hy hf
      refine ⟨u, (Function.update_of_ne hid _ _).trans hu, fun t ht => hstands t ?_⟩
      have ht : Function.update s.locals x (some v) y = some t := ht
      rwa [Function.update_of_ne hyx] at ht
  known y u hu := by
    have hu : Function.update s.locals x (some v) y = some u := hu
    by_cases hyx : y = x
    · subst hyx
      rw [Function.update_self] at hu
      cases hu
      exact ⟨hx, hv⟩
    · rw [Function.update_of_ne hyx] at hu
      exact h.known y u hu

/-- The hidden variable of `?` holds no variable of the program. -/
theorem Memory.setInput (rest : List Instruction) (w : Constant) (hr : ge.Ready)
    (h : Memory M σ gf f ge.scopeStack cs s c) (hl : ge.lookup inputVar = some a) :
    Memory M σ gf f ge.scopeStack cs s.deliver (((c.setCode rest).setSlot a.id w).deliver) where
  printed := h.printed
  delivered := congrArg (· + 1) h.delivered
  callers := h.callers
  cells y b hy hf := by
    obtain ⟨u, hu, hstands⟩ := h.cells y b hy hf
    by_cases hyx : y = inputVar
    · subst hyx
      have hab : some a = some b := hl.symm.trans hy
      cases hab
      exact ⟨w, Function.update_self _ _ _, fun t ht => absurd rfl (h.known _ t ht).1.notInput⟩
    · have hid : b.id ≠ a.id := fun hid => hyx (lookup_injective hr hy hl hid)
      exact ⟨u, (Function.update_of_ne hid _ _).trans hu, hstands⟩
  known := h.known

/-! ## From one point to the next -/

theorem Advanced.trans (h1 : Advanced M σ gf ge cs g g1 c s1 c1) (h2 : Advanced M σ gf ge cs g1 g2 c1 s' c2)
    (hid : g.nextId ≤ g1.nextId) : Advanced M σ gf ge cs g g2 c s' c2 :=
  ⟨h2.unterminated, h2.arrives, h2.memory, h1.retains.trans h2.retains hid⟩

/-- The state of the generator has gone on. -/
theorem Here.grown (h : Here M σ gf ge cs g s c) (hg : Grown g g') (hsorted : ∃ g0, Sorted M σ gf g0 g')
    (hu : g'.terminated = false) (hat : At gf g' c')
    (hmem : Memory M σ gf ge.currentFunction ge.scopeStack cs s' c') :
    Here M σ gf ge cs g' s' c' :=
  ⟨h.finished, hg.ready, hsorted, h.current.trans hg.frame.current.symm, hu, hat, hmem⟩

/-- The next visit starts where the code of an expression has led. -/
theorem Here.next {e : Expression} {o : Effect} (hs : M.Sound) (hn : M.Numbers) (h : Here M σ gf ge cs g s c)
    (hk : Kinded σ e o) (hv : visit M .source e g = .ok g') (hp : Part g' (gf.within T))
    (ha : Advanced M σ gf ge cs g g' c s' c') : Here M σ gf ge cs g' s' c' := by
  obtain ⟨g0, hg0⟩ := h.sorted
  have hsorted := (visit_sorted hs hn e hk g0 g g' T h.ready hg0 hv hp).1
  exact h.grown ((CodeGenerator.visit_grows e h.ready).of_ok hv) ⟨g0, hsorted⟩ ha.unterminated ha.arrives
    ha.memory

/-- A name in scope is so until the function is left. -/
theorem Part.lookup_end (hp : Part g (gf.within T)) (hl : g.lookup x = some a) : Tables.lookup T x = some a :=
  hp.lookup x a hl

/-- What an instruction works on is a slot of the function at hand. -/
theorem Finished.own_insert {i : Instruction} (hf : Finished gf) (hr : g.Ready)
    (hp : Part (g.insert i) (gf.within T)) (ha : a ∈ i.slots) : a.func = g.currentFunction := by
  refine hf.own _ a ⟨g.insertBlock, Nat.lt_of_lt_of_le hr.insertLt hp.count, ?_, i, ?_, ha⟩
  · refine (hp.parent g.insertBlock hr.insertLt).trans ?_
    rw [CodeGenerator.insert_parent]
    exact hr.parent
  · refine List.mem_append_right _ ((hp.body g.insertBlock hr.insertLt).subset ?_)
    rw [CodeGenerator.insert_body]
    simp

theorem emit_unterminated {α : Type} (m : Emit α) (h : g.terminated = false) :
    (emit M m g).2.terminated = false := by
  induction m generalizing g with
  | pure a => exact h
  | create opcode args next ih =>
      unfold emit
      split
      · exact ih _ h
      · exact ih _ CodeGenerator.insert_terminated

/-- What `IRBuilder` calls compute. -/
theorem Finds.after {v : Value} (h : Here M σ gf ge cs g s c) (hfinds : Finds (gf.within T) E g g' c v w)
    (hu : g'.terminated = false) :
    ∃ c', Star (step gf E) c c' ∧ Advanced M σ gf ge cs g g' c s c' ∧ Known g' c' v w := by
  obtain ⟨c', hc, hk⟩ := hfinds
  exact ⟨c', hc.steps, ⟨hu, hc.arrives, h.memory.computes hc, hc.retains⟩, hk⟩

/-- A variable is loaded. -/
theorem load_after (hf : Finished gf) (h : Here M σ gf ge cs g s c) (hx : σ.Variable x)
    (hl : g.lookup x = some a) (hp : Part (g.createLoad a) (gf.within ge.scopeStack))
    (hv : s.locals x = some v) :
    ∃ c', Star (step gf E) c c' ∧ Advanced M σ gf ge cs g (g.createLoad a) c s c' ∧
      Comes M σ gf (.value (σ.vars x)) (g.createLoad a) c' v := by
  obtain ⟨g0, hg0⟩ := h.sorted
  have hkind := (h.memory.known x v hv).2
  have hfunc := hf.own_insert (i := .load g.nextId a) h.ready hp.of_setLast (List.mem_singleton.mpr rfl)
  obtain ⟨w, hslot, hstands⟩ := h.memory.cells x a (hp.lookup_end hl) (hfunc.trans h.current.symm)
  have hw := hstands v hv
  have hty : a.ty = w.ty := ((hg0.slots x a hl).2.trans hx.slotTy).trans (hw.ty hkind).symm
  have hfinds := load_finds (E := E) h.arrives.within h.ready hp.toExtends hslot hty
  obtain ⟨c', hc, ha, hk⟩ := hfinds.after h CodeGenerator.insert_terminated
  refine ⟨c', hc, ha, by simp, fun k hk' => ?_⟩
  cases hk'
  exact ⟨hkind, w, hw, hk⟩

/-- A variable is assigned to. -/
theorem assign_after (hf : Finished gf) (h : Here M σ gf ge cs g s c) (hx : σ.Variable x)
    (hv : g.assign x = .ok g') (hp : Part g' (gf.within ge.scopeStack))
    (hc : Comes M σ gf (.value (σ.vars x)) g c v) :
    ∃ c', step gf E c = .inl c' ∧ Advanced M σ gf ge cs g g' c (s.store x v) c' ∧
      Comes M σ gf (.value (σ.vars x)) g' c' v := by
  obtain ⟨g0, hg0⟩ := h.sorted
  obtain ⟨hkind, w, hw, hk⟩ := hc.2 _ rfl
  have hty : g.lastValue.ty = σ.slotTy x := (hk.ty.trans (hw.ty hkind)).trans hx.slotTy.symm
  obtain ⟨a, g1, hslot, hg1, _, hl, hta, hlast, hpoint, hbody⟩ := hg0.slotFor h.ready (.inr hx)
  rw [CodeGenerator.assign, hty, hslot] at hv
  cases hv
  have hat : At (gf.within ge.scopeStack) g1 c := by
    have hat := h.arrives
    unfold At at hat ⊢
    rw [hpoint, hbody]
    exact hat
  have hend : ge.lookup x = some a := hp.lookup_end (g := g1.createStore g.lastValue a) hl
  have hfunc := hf.own_insert (i := .store g.lastValue a) hg1.ready hp (List.mem_singleton.mpr rfl)
  have hfunc : a.func = ge.currentFunction := (hfunc.trans hg1.frame.current).trans h.current.symm
  obtain ⟨u, hu, _⟩ := h.memory.cells x a hend hfunc
  obtain ⟨rest, hstep, hrest⟩ := store_steps (E := E) hat hg1.ready hp.toExtends hk.value (by rw [hu]; rfl)
    ((hw.ty hkind).trans (hx.slotTy.symm.trans hta.symm))
  refine ⟨_, hstep, ⟨CodeGenerator.insert_terminated, hrest, h.memory.store h.finished hx hend hkind hw,
    ⟨rfl, fun _ _ => rfl⟩⟩, by simp, fun k hk' => ?_⟩
  cases hk'
  refine ⟨hkind, w, hw, ?_⟩
  show Known _ _ g1.lastValue w
  rw [hlast]
  exact ⟨hk.setSlot, hk.ty, hk.below.mono (Nat.le_trans hg1.frame.ids (Nat.le_succ _))⟩

/-! ## The C library -/

theorem getFunc_eq (name : String) (g : CodeGenerator) :
    ∃ fs, (g.getFunc name).2 = { g with functions := g.functions ++ fs } := by
  unfold CodeGenerator.getFunc
  cases g.functions.findIdx? (fun f => f.name = name) with
  | some k => exact ⟨[], by rw [List.append_nil]⟩
  | none => exact ⟨[⟨name, 1⟩], rfl⟩

/-- A function of the C library has no code in the module. -/
theorem Finished.external {fn : IrFunction} {j : Nat} (hf : Finished gf) (hfun : gf.functions[j]? = some fn)
    (hname : fn.name = "printf" ∨ fn.name = "scanf") : gf.entryBlock j = none := by
  cases he : gf.entryBlock j with
  | none => rfl
  | some e =>
      obtain ⟨hlt, hparent⟩ := CodeGenerator.entryBlock_some he
      have hno := hf.library e hlt fn (by rw [hparent]; exact hfun)
      rcases hname with hname | hname
      · exact absurd hname hno.1
      · exact absurd hname hno.2

/-- A call of the C library. -/
theorem library_step (name : String) {arity : Nat} (args : List Value) (hf : Finished gf) (hr : g.Ready)
    (hp : Part ((g.getFunc name).2.createCall arity (.const (.func (g.getFunc name).1)) args) (gf.within T))
    (hat : At gf g c) (hname : name = "printf" ∨ name = "scanf") :
    ∃ rest, step gf E c = orInvalid (callExternal E name g.nextId args (c.setCode rest)) ∧
      ∀ c', c'.top.code = rest →
        At gf ((g.getFunc name).2.createCall arity (.const (.func (g.getFunc name).1)) args) c' := by
  obtain ⟨f, hfn, hfname⟩ := CodeGenerator.getFunc_spec name g
  obtain ⟨fs, hfs⟩ := getFunc_eq name g
  have hr1 := (Grown.getFunc name hr).ready
  have hid : (g.getFunc name).2.nextId = g.nextId := by rw [hfs]
  obtain ⟨rest, hcode, hrest⟩ := (getFunc_at hat.within).next
    (i := .call (g.getFunc name).2.nextId arity (.const (.func (g.getFunc name).1)) args) hr1
    hp.of_setLast.toExtends
  have hfun : gf.functions[(g.getFunc name).1]? = some f := by
    obtain ⟨ds, hds⟩ := hp.functions
    have hlt := (List.getElem?_eq_some_iff.mp hfn).1
    show (gf.within T).functions[_]? = _
    rw [← hds]
    exact (List.getElem?_append_left hlt).trans hfn
  have hnone := hf.external hfun (by rw [hfname]; exact hname)
  refine ⟨rest, ?_, fun c' hc' => hc'.trans hrest⟩
  have hcallee : (c.setCode rest).value (.const (.func (g.getFunc name).1)) =
      some (.func (g.getFunc name).1) := rfl
  rw [step_cons hcode, hid]
  simp only [execute, callFunction, hcallee, hfun, hnone, hfname]

/-- An integer is printed. -/
theorem print_after {n : Number} (hf : Finished gf) (h : Here M σ gf ge cs g s c)
    (hp : Part g.print (gf.within ge.scopeStack)) (hk : Known g c g.lastValue (.int n)) :
    ∃ c', step gf E c = .inl c' ∧ Advanced M σ gf ge cs g g.print c (s.print n) c' := by
  obtain ⟨rest, hstep, hrest⟩ := library_step (E := E) "printf" [.const (.str "%d\n"), g.lastValue] hf
    h.ready hp h.arrives (.inl rfl)
  have hv : (c.setCode rest).value g.lastValue = some (.int n) := hk.value
  refine ⟨((c.setCode rest).print n).setReg g.nextId (.int (printfResult n)), ?_,
    CodeGenerator.insert_terminated, hrest _ rfl, ?_, ?_⟩
  · rw [hstep]
    simp only [callExternal, if_true, hv, orInvalid]
  · have hmem := h.memory
    exact ⟨⟨congrArg (· ++ [n]) hmem.printed, hmem.delivered⟩, hmem.cells, hmem.known, hmem.callers⟩
  · exact ⟨rfl, fun _ hid => Function.update_of_ne (Nat.ne_of_lt hid) _ _⟩

/-- A value is read. -/
theorem input_after (hf : Finished gf) (h : Here M σ gf ge cs g s c) (hv : g.visitInput = .ok g')
    (hp : Part g' (gf.within ge.scopeStack)) :
    ∃ c', Star (step gf E) c c' ∧ Advanced M σ gf ge cs g g' c s.deliver c' ∧
      Comes M σ gf (.value .number) g' c' (.int (E.input s.delivered)) := by
  obtain ⟨g0, hg0⟩ := h.sorted
  have hty : σ.slotTy inputVar = .i32 := if_pos rfl
  obtain ⟨a, g1, hslot, hg1, _, hl, hta, _, hpoint, hbody⟩ := hg0.slotFor h.ready (.inl rfl)
  rw [hty] at hslot hta
  rw [CodeGenerator.visitInput, hslot] at hv
  cases hv
  have hr2 := (Grown.getFunc "scanf" hg1.ready).ready
  obtain ⟨fs, hfs⟩ := getFunc_eq "scanf" g1
  have hids : (g1.getFunc "scanf").2.nextId = g1.nextId := by rw [hfs]
  let g3 := (g1.getFunc "scanf").2.createCall 2 (.const (.func (g1.getFunc "scanf").1))
    [.const (.str "%d"), .slot a]
  have hg3 : Grown (g1.getFunc "scanf").2 g3 := CodeGenerator.createCall_grown _ _ _ hr2
  have hload : Grown g3 (g3.createLoad a) := CodeGenerator.createLoad_grown a hg3.ready
  have hp3 : Part g3 (gf.within ge.scopeStack) := hload.part hp
  have hat : At gf g1 c := by
    have hat := h.arrives
    unfold At at hat ⊢
    rw [hpoint, hbody]
    exact hat
  -- the slot is the function's own, and so it is there
  have hend : ge.lookup inputVar = some a := by
    refine (hg3.part hp3).lookup_end ?_
    rw [hfs]
    exact hl
  have hfunc := hf.own_insert (a := a) hr2 hp3.of_setLast (List.mem_singleton.mpr rfl)
  have hcurrent : (g1.getFunc "scanf").2.currentFunction = ge.currentFunction := by
    rw [hfs]
    exact hg1.frame.current.trans h.current.symm
  obtain ⟨u, hu, _⟩ := h.memory.cells inputVar a hend (hfunc.trans hcurrent)
  obtain ⟨rest, hstep, hrest⟩ := library_step (E := E) "scanf" _ hf hg1.ready hp3 hat (.inr rfl)
  let c1 := (((c.setCode rest).setSlot a.id (.int (E.input c.delivered))).deliver).setReg g1.nextId (.int 1)
  have hstep1 : step gf E c = .inl c1 := by
    have hsome : ((c.setCode rest).top.slots a.id).isSome = true := by
      show (c.top.slots a.id).isSome = true
      rw [hu]
      rfl
    have hne : ¬ "scanf" = "printf" := by decide
    rw [hstep]
    simp only [callExternal, if_neg hne, if_true, hsome, orInvalid]
    rfl
  have hmem : Memory M σ gf ge.currentFunction ge.scopeStack cs s.deliver c1 := by
    have hset := h.memory.setInput rest (.int (E.input c.delivered)) h.finished hend
    exact hset.congr rfl rfl rfl rfl
  have hslot1 : c1.top.slots a.id = some (.int (E.input c.delivered)) := Function.update_self _ _ _
  obtain ⟨c2, hc2, hk2⟩ := load_finds (E := E) (hrest c1 rfl).within hg3.ready hp.toExtends hslot1 hta
  have hret : Retains g.nextId c c1 := ⟨rfl, fun id hid =>
    Function.update_of_ne (Nat.ne_of_lt (Nat.lt_of_lt_of_le hid hg1.frame.ids)) _ _⟩
  have hid3 : g.nextId ≤ g3.nextId := by
    have hle := hg3.frame.ids
    rw [hids] at hle
    exact Nat.le_trans hg1.frame.ids hle
  refine ⟨c2, (Star.one hstep1).trans hc2.steps, ⟨CodeGenerator.insert_terminated, hc2.arrives,
    hmem.computes hc2, hret.trans hc2.retains hid3⟩, by simp, fun k hk => ?_⟩
  cases hk
  refine ⟨trivial, _, rfl, ?_⟩
  rw [← h.memory.delivered]
  exact hk2

/-! ## Blocks -/

/-- A block that has been opened for a branch has no allocations in front of it: only entry blocks have, and
    that of the function at hand is an older one. -/
theorem Finished.opened {n b : Nat} (hf : Finished gf) (hr : g.Ready) (ho : Opens n g g1)
    (hp : Part g1 (gf.within T)) (hge : g.blockCount ≤ b) (hlt : b < g1.blockCount) :
    (gf.blocks b).hoisted = [] := by
  by_contra hne
  have hpg := ho.toGrown.part hp
  have hentry := hf.placed.hoisted b (Nat.lt_of_lt_of_le hlt hp.count) hne
  have hparent : (gf.blocks b).parent = g.currentFunction := by
    refine (hp.parent b hlt).trans ?_
    rw [ho.empty b hge hlt]
  obtain ⟨e, he⟩ := CodeGenerator.exists_entryBlock hr.insertLt hr.parent
  have he' : gf.entryBlock g.currentFunction = some e :=
    CodeGenerator.entryBlock_of_parents he hpg.count hpg.parent
  rw [hparent, he'] at hentry
  cases hentry
  exact absurd (CodeGenerator.entryBlock_some he).1 (Nat.not_lt.mpr hge)

/-- At the beginning of such a block. -/
theorem enter_block {b : Nat} (hh : (gf.blocks b).hoisted = []) (hpoint : g.insertBlock = b)
    (he : (g.blocks b).body = []) (c : Config) : At gf g (goTo gf b c) := by
  subst hpoint
  show (gf.blocks g.insertBlock).instrs = _
  rw [BasicBlock.instrs, hh, CodeGenerator.block, he]
  rfl

/-! ## Entering a function -/

/-- While the parameters are stored: those seen so far have their arguments, the slots with numbers in `H` are
    there, and the arguments are `ns`. -/
structure Entering (M : Llvm) (σ : Signature) (gf : CodeGenerator) (f : Nat) (cs : List (Nat × Activation))
    (H : Nat → Prop) (ns : List Number) (μ : Name → Option Datum) (s : World) (g : CodeGenerator) (c : Config) :
    Prop extends Shows s c where
  cells : ∀ x a, g.lookup x = some a → a.func = f →
    ∃ w, c.top.slots a.id = some w ∧ ∀ v, μ x = some v → StandsFor M σ gf v w
  known : ∀ x v, μ x = some v → (g.lookup x).isSome ∧ σ.Variable x ∧ v.Is (σ.vars x)
  hoisted : ∀ id, H id → (c.top.slots id).isSome
  args : c.top.args = ns.map .int
  callers : c.callers = cs
  arrives : At gf g c
  unterminated : g.terminated = false

section Entering

variable {H : Nat → Prop} {ns : List Number} {μ : Name → Option Datum} {j : Nat} {n : Number}

/-- The allocations in front of a block. -/
theorem allocas_enter (gf : CodeGenerator) (E : Env) :
    ∀ (is : List Instruction) {rest : List Instruction} {c : Config}, (∀ i ∈ is, ∃ a, i = .alloca a) →
    c.top.code = is ++ rest → ∃ c', Star (step gf E) c c' ∧ c'.top.code = rest ∧ c'.top.args = c.top.args ∧
      c'.printed = c.printed ∧ c'.delivered = c.delivered ∧ c'.callers = c.callers ∧
      ∀ id, (∃ a, .alloca a ∈ is ∧ a.id = id) ∨ (c.top.slots id).isSome → (c'.top.slots id).isSome
  | [], rest, c, _, hcode =>
      ⟨c, .refl c, hcode, rfl, rfl, rfl, rfl, fun id h => h.resolve_left (by simp)⟩
  | i :: is, rest, c, hall, hcode => by
      obtain ⟨a, rfl⟩ := hall i List.mem_cons_self
      have hstep : step gf E c = .inl ((c.setCode (is ++ rest)).setSlot a.id (.poison a.ty)) := step_cons hcode
      obtain ⟨c', hs, hcode', hargs, hprinted, hdelivered, hcallers, hslots⟩ :=
        allocas_enter gf E is (c := (c.setCode (is ++ rest)).setSlot a.id (.poison a.ty))
          (fun i hi => hall i (List.mem_cons_of_mem _ hi)) rfl
      refine ⟨c', .trans (.one hstep) hs, hcode', hargs, hprinted, hdelivered, hcallers,
        fun id h => hslots id ?_⟩
      by_cases hid : id = a.id
      · right
        show (Function.update c.top.slots a.id (some (.poison a.ty)) id).isSome = true
        rw [hid, Function.update_self]
        rfl
      · rcases h with ⟨b, hb, rfl⟩ | h
        · rcases List.mem_cons.mp hb with hb | hb
          · cases hb
            exact absurd rfl hid
          · exact .inl ⟨b, hb, rfl⟩
        · right
          show (Function.update c.top.slots a.id (some (.poison a.ty)) id).isSome = true
          rw [Function.update_of_ne hid]
          exact h

/-- From the call to the first instruction of the block itself. -/
theorem entered (hf : Finished gf) (hr : g.Ready) (hp : Part g (gf.within T)) (he : g.block.body = [])
    (hnone : ∀ x a, g.lookup x = some a → a.func ≠ f) (hc : c.top = ⟨(gf.blocks g.insertBlock).instrs,
      ns.map .int, fun _ => none, fun _ => none⟩) (hshow : Shows s c) (hcallers : c.callers = cs) :
    ∃ c', Star (step gf E) c c' ∧ Entering M σ gf f cs
      (fun id => ∃ a, .alloca a ∈ (gf.blocks g.insertBlock).hoisted ∧ a.id = id) ns (fun _ => none) s g c' := by
  have hcode : c.top.code = (gf.blocks g.insertBlock).hoisted ++ (gf.blocks g.insertBlock).body := by
    rw [hc]
    rfl
  obtain ⟨c', hs, hcode', hargs, hprinted, hdelivered, hcs, hslots⟩ := allocas_enter gf E _
    (hf.placed.onlyAllocas g.insertBlock (Nat.lt_of_lt_of_le hr.insertLt hp.count)) hcode
  refine ⟨c', hs, ⟨hshow.trans hprinted hdelivered, fun x a hx hfunc => absurd hfunc (hnone x a hx),
    fun x v hx => (by cases hx), fun id hid => hslots id (.inl hid), ?_, hcs.trans hcallers, ?_,
    hr.terminated_of_empty he⟩⟩
  · rw [hargs, hc]
  · unfold At
    rw [hcode', he]
    rfl

/-- An argument is stored for its parameter. -/
theorem Entering.param (h : Entering M σ gf f cs H ns μ s g c) (hr : g.Ready) (hl : g.lookup x = none)
    (hx : σ.Variable x) (hkind : σ.vars x = .number) (hj : ns[j]? = some n)
    (hp : Part (g.addParam f j x) (gf.within T)) :
    ∃ c', Star (step gf E) c c' ∧
      Entering M σ gf f cs H ns (Function.update μ x (some (.int n))) s (g.addParam f j x) c' := by
  have hg1 : Grown g (g.createAlloca .i32) := .insert hr rfl
  have hne {y : Name} {b : AllocaInst} (hy : g.lookup y = some b) : y ≠ x := by
    rintro rfl
    rw [hl] at hy
    cases hy
  -- the finished module has the two instructions
  have hp2 : Part (g.storeParam f j) (gf.within T) :=
    ⟨⟨hp.count, hp.parent, hp.body, hp.functions, fun y b hy =>
    hp.lookup y b ((Tables.lookup_put_ne (hne hy)).trans hy)⟩, hp.hoists⟩
  have hp1 : Part (g.createAlloca .i32) (gf.within T) :=
    (CodeGenerator.createStore_grown (.arg f j) (g.newSlot .i32) hg1.ready).part hp2
  obtain ⟨rest, hcode, hrest⟩ := h.arrives.within.next (i := .alloca (g.newSlot .i32)) hr hp1.toExtends
  let c1 := (c.setCode rest).setSlot g.nextId (.poison .i32)
  have hstep1 : step gf E c = .inl c1 := step_cons hcode
  have hat1 : At (gf.within T) (g.createAlloca .i32) c1 := hrest
  have hvalue : c1.value (.arg f j) = some (.int n) := by
    show c.top.args[j]? = _
    rw [h.args, List.getElem?_map, hj]
    rfl
  have hslot1 : (c1.top.slots (g.newSlot .i32).id).isSome = true := by
    show (Function.update c.top.slots g.nextId _ g.nextId).isSome = true
    rw [Function.update_self]
    rfl
  obtain ⟨rest2, hstep2, hat2⟩ := store_steps (E := E) hat1 hg1.ready hp2.toExtends hvalue hslot1 rfl
  let c2 := (c1.setCode rest2).setSlot g.nextId (.int n)
  have hslots (id : Nat) (hid : id ≠ g.nextId) : c2.top.slots id = c.top.slots id :=
    (Function.update_of_ne hid _ _).trans (Function.update_of_ne hid _ _)
  have hself : c2.top.slots g.nextId = some (.int n) := Function.update_self _ _ _
  refine ⟨c2, (Star.one hstep1).trans (.one hstep2), ⟨⟨h.printed, h.delivered⟩, fun y b hy hfunc => ?_,
    fun y v hy => ?_, fun id hid => ?_, h.args, h.callers, hat2, CodeGenerator.insert_terminated⟩⟩
  · have hy : Tables.lookup (Tables.put x (g.newSlot .i32) g.scopeStack) y = some b := hy
    by_cases hyx : y = x
    · subst hyx
      rw [Tables.lookup_put_self hr.scopes] at hy
      cases hy
      refine ⟨.int n, hself, fun v hv => ?_⟩
      rw [Function.update_self] at hv
      cases hv
      rfl
    · rw [Tables.lookup_put_ne hyx] at hy
      obtain ⟨l, hlmem, hb⟩ := Tables.mem_of_lookup hy
      have hlt := hr.fresh b (CodeGenerator.mem_slots hlmem hb)
      obtain ⟨w, hw, hstands⟩ := h.cells y b hy hfunc
      refine ⟨w, (hslots b.id (Nat.ne_of_lt hlt)).trans hw, fun v hv => hstands v ?_⟩
      rwa [Function.update_of_ne hyx] at hv
  · by_cases hyx : y = x
    · subst hyx
      rw [Function.update_self] at hy
      cases hy
      refine ⟨?_, hx, by rw [hkind]; trivial⟩
      show (Tables.lookup (Tables.put y _ g.scopeStack) y).isSome = true
      rw [Tables.lookup_put_self hr.scopes]
      rfl
    · rw [Function.update_of_ne hyx] at hy
      refine ⟨?_, (h.known y v hy).2⟩
      show (Tables.lookup (Tables.put x _ g.scopeStack) y).isSome = true
      rw [Tables.lookup_put_ne hyx]
      exact (h.known y v hy).1
  · by_cases heq : id = g.nextId
    · rw [heq]
      exact Option.isSome_iff_exists.mpr ⟨_, hself⟩
    · rw [hslots id heq]
      exact h.hoisted id hid

/-- The parameters, one after the other. -/
theorem Entering.params {ps : List Name} (hps : ∀ x ∈ ps, σ.Variable x ∧ σ.vars x = .number) :
    ∀ {j : Nat} {g : CodeGenerator} {c : Config} {μ : Name → Option Datum},
      j + ps.length = ns.length → g.Ready →
      Entering M σ gf f cs H ns μ s g c → CodeGenerator.bindParams f ps j g = .ok g' →
      Part g' (gf.within T) → ∃ c', Star (step gf E) c c' ∧
        Entering M σ gf f cs H ns (bindArgs μ ps ((ns.drop j).map .int)) s g' c' := by
  induction ps with
  | nil =>
      intro j g c μ _ _ h hv _
      cases hv
      refine ⟨c, .refl c, ?_⟩
      rw [bindArgs]
      · exact h
      · intro x xs v vs hnil
        cases hnil
  | cons x ps ih =>
      intro j g c μ hlen hr h hv hp
      obtain ⟨hx, hkind⟩ := hps x List.mem_cons_self
      rw [List.length_cons] at hlen
      have hj : j < ns.length := by omega
      cases hl : g.lookup x with
      | some a =>
          rw [CodeGenerator.bindParams_clash hr.scopes (by rw [hl]; rfl)] at hv
          cases hv
      | none =>
          rw [CodeGenerator.bindParams_cons hr.scopes hl] at hv
          have hr1 := (Grown.addParam (f := f) (k := j) hr hl).ready
          have hp1 := ((CodeGenerator.bindParams_grows hr1).of_ok hv).part hp
          obtain ⟨c1, hc1, h1⟩ := h.param (E := E) hr hl hx hkind (List.getElem?_eq_getElem hj) hp1
          obtain ⟨c2, hc2, h2⟩ := ih (fun y hy => hps y (List.mem_cons_of_mem _ hy)) (by omega) hr1 h1 hv hp
          refine ⟨c2, hc1.trans hc2, ?_⟩
          rw [List.drop_eq_getElem_cons hj, List.map_cons, bindArgs]
          exact h2

/-- All the slots of the function are there when its body starts. -/
theorem Entering.here {b : Nat} (h : Entering M σ gf f cs
      (fun id => ∃ a, .alloca a ∈ (gf.blocks b).hoisted ∧ a.id = id) ns μ s g1 c) (hr : g1.Ready)
    (hs1 : Sorted M σ gf g1 g1) (hs2 : Sorted M σ gf g1 g2) (hg : Grown g1 g2)
    (hp : Part g2 (gf.within g2.scopeStack))
    (hcurrent : g1.currentFunction = f) (hentry : g1.entryBlock f = some b) :
    Here M σ gf g2 cs g1 (s.withLocals μ) c := by
  have hfunc : g2.currentFunction = f := hg.frame.current.trans hcurrent
  refine ⟨hg.ready, hr, ⟨g1, hs1⟩, hg.frame.current, h.unterminated, h.arrives, ⟨h.printed, h.delivered⟩,
    fun x a hx ha => ?_, fun x v hx => (h.known x v hx).2, h.callers⟩
  rw [hfunc] at ha
  have hx : g2.lookup x = some a := hx
  cases hl : g1.lookup x with
  | some a' =>
      have hsame := hg.frame.lookup x a' hl
      rw [hx] at hsame
      cases hsame
      exact h.cells x a hl ha
  | none =>
      -- the slot has been allocated in front of the entry block
      rcases hs2.origin x a hx with hold | ⟨b', hlt, hmem⟩
      · rw [hl] at hold
        cases hold
      · have hparent := hg.ready.allocas b' hlt a (List.mem_append_left _ hmem)
        have hentry2 := hg.ready.hoisted b' hlt (List.ne_nil_of_mem hmem)
        rw [← hparent, ha, hg.frame.entryBlock hentry] at hentry2
        cases hentry2
        obtain ⟨w, hw⟩ := Option.isSome_iff_exists.mp
          (h.hoisted a.id ⟨a, (hp.hoists b hlt).subset hmem, rfl⟩)
        refine ⟨w, hw, fun v hv => ?_⟩
        have hsome := (h.known x v hv).1
        rw [hl] at hsome
        cases hsome

end Entering

end ParaCL
