import ParaCL.Codegen.Exec
import ParaCL.Codegen.Growth
import ParaCL.Simulator.Evaluator
import Mathlib.Data.List.Nodup

/-!
# `Codegen.Run` — running code while it is generated

The code between two states of the generator is what the second one has appended to the insertion block of
the first. `At gf g c` says that the machine, running the finished module `gf`, has come to the point where
the generator was in state `g`; one lemma for each instruction takes it to the point after. `Corresponds`
relates the machine's memory to the interpreter's name table, through the slots of `gf`.
-/

namespace ParaCL

open Lib

/-- What a finished module keeps of an earlier state. -/
structure Extends (g gf : CodeGenerator) : Prop where
  count : g.blockCount ≤ gf.blockCount
  parent : ∀ b < g.blockCount, (gf.blocks b).parent = (g.blocks b).parent
  body : ∀ b < g.blockCount, (g.blocks b).body <+: (gf.blocks b).body
  functions : g.functions <+: gf.functions
  lookup : ∀ x a, g.lookup x = some a → gf.lookup x = some a

/-- The machine is where the generator was. -/
def At (gf g : CodeGenerator) (c : Config) : Prop :=
  c.top.code = (gf.blocks g.insertBlock).body.drop g.block.body.length

/-- What a slot holds for a variable: an integer, or poison as long as it has no value. -/
def cell : Option Number → Constant
  | some v => .int v
  | none => .poison .i32

/-- The integer a slot holds. -/
def Constant.number? : Constant → Option Number
  | .int v => some v
  | _ => none

/-- A value of the type that a run may come by: it is defined or poison. -/
def Constant.Fits (ty : Ty) (w : Constant) : Prop := w.isScalar ∧ w.ty = ty

theorem Constant.fits_i32 {w : Constant} (h : w.Fits .i32) : (∃ n, w = .int n) ∨ w = .poison .i32 := by
  obtain ⟨hs, hty⟩ := h
  cases w with
  | int n => exact .inl ⟨n, rfl⟩
  | bit b => cases hty
  | poison ty =>
      cases hty
      exact .inr rfl
  | func f => cases hs
  | str t => cases hs

theorem cell_number? {w : Constant} (h : w.Fits .i32) : cell w.number? = w := by
  rcases Constant.fits_i32 h with ⟨n, rfl⟩ | rfl <;> rfl

/-- Give a variable the value that a slot holds, if it is defined. -/
def SimState.put (x : Name) (o : Option Number) (s : SimState) : SimState :=
  { s with nametable := Function.update s.nametable x o }

/-- The machine's memory is the interpreter's. -/
structure Corresponds (gf : CodeGenerator) (s : SimState) (c : Config) : Prop where
  cells : ∀ x a, gf.lookup x = some a → c.top.slots a.id = some (cell (s.nametable x))
  known : ∀ x v, s.nametable x = some v → (gf.lookup x).isSome
  printed : c.printed = s.printed
  callers : c.callers = []

variable {M : Llvm} {E : Env} {g g' g1 g2 gf : CodeGenerator} {c c' c1 c2 : Config} {i : Instruction}
  {v w : Value}

/-! ## Extending -/

theorem Extends.refl (g : CodeGenerator) : Extends g g :=
  ⟨Nat.le_refl _, fun _ _ => rfl, fun _ _ => List.prefix_refl _, List.prefix_refl _, fun _ _ h => h⟩

theorem Extends.trans (h1 : Extends g g1) (h2 : Extends g1 g2) : Extends g g2 where
  count := Nat.le_trans h1.count h2.count
  parent b hb := (h2.parent b (Nat.lt_of_lt_of_le hb h1.count)).trans (h1.parent b hb)
  body b hb := (h1.body b hb).trans (h2.body b (Nat.lt_of_lt_of_le hb h1.count))
  functions := List.IsPrefix.trans h1.functions h2.functions
  lookup x a h := h2.lookup x a (h1.lookup x a h)

theorem CodeGenerator.Frame.extends (h : CodeGenerator.Frame g g') : Extends g g' :=
  ⟨h.count, h.parent, fun _ hb => h.grow hb, h.functions, h.lookup⟩

theorem Extends.of_setLast (h : Extends (g.setLast v) gf) : Extends g gf := { h with }

/-- Different names have different slots. -/
theorem lookup_injective (hr : gf.Ready) {x y : Name} {a b : AllocaInst} (hx : gf.lookup x = some a)
    (hy : gf.lookup y = some b) (hid : a.id = b.id) : x = y := by
  obtain ⟨l, hl, ha⟩ := Tables.mem_of_lookup hx
  obtain ⟨m, hm, hb⟩ := Tables.mem_of_lookup hy
  have hnodup : (gf.scopeStack.flatten.map (fun p => p.2.id)).Nodup := by
    have hd := hr.distinct
    rw [CodeGenerator.slots, List.map_map] at hd
    exact hd
  have hinj := List.inj_on_of_nodup_map hnodup (List.mem_flatten.mpr ⟨l, hl, ha⟩)
    (List.mem_flatten.mpr ⟨m, hm, hb⟩) hid
  exact congrArg Prod.fst hinj

/-! ## One instruction -/

/-- An instruction that the generator appended is the next one to run. -/
theorem At.next (h : At gf g c) (hr : g.Ready) (hext : Extends (g.insert i) gf) :
    ∃ rest, c.top.code = i :: rest ∧ At gf (g.insert i) (c.setCode rest) := by
  have hpre := hext.body g.insertBlock hr.insertLt
  rw [CodeGenerator.insert_body] at hpre
  obtain ⟨rest, hrest⟩ := hpre
  refine ⟨rest, ?_, ?_⟩
  · rw [h, ← hrest, List.append_assoc, List.drop_left]
    rfl
  · show rest = ((gf.blocks g.insertBlock).body.drop _)
    have hblock : (g.insert i).block.body = g.block.body ++ [i] := CodeGenerator.insert_body
    rw [hblock, ← hrest, List.drop_left]

/-- A value that has been computed by the time the counter stood at `n`. -/
def Value.Below (n : Nat) : Value → Prop
  | .inst id _ => id < n
  | _ => True

theorem Value.Below.mono {m n : Nat} (h : v.Below m) (hmn : m ≤ n) : v.Below n := by
  cases v with
  | inst id ty => exact Nat.lt_of_lt_of_le h hmn
  | const | arg | slot | unset => trivial

/-- The machine goes from the point `g` to the point `g'` without touching memory or output, and keeps
    what had been computed before `n`. -/
structure Computes (gf : CodeGenerator) (E : Env) (n : Nat) (g' : CodeGenerator) (c c' : Config) : Prop where
  steps : Star (step gf E) c c'
  arrives : At gf g' c'
  slots : c'.top.slots = c.top.slots
  args : c'.top.args = c.top.args
  printed : c'.printed = c.printed
  delivered : c'.delivered = c.delivered
  callers : c'.callers = c.callers
  regs : ∀ id < n, c'.top.regs id = c.top.regs id

theorem Computes.refl {n : Nat} (h : At gf g c) : Computes gf E n g c c :=
  ⟨.refl c, h, rfl, rfl, rfl, rfl, rfl, fun _ _ => rfl⟩

theorem Computes.trans {m n : Nat} (h1 : Computes gf E m g1 c c1) (h2 : Computes gf E n g2 c1 c2)
    (hmn : m ≤ n) : Computes gf E m g2 c c2 where
  steps := h1.steps.trans h2.steps
  arrives := h2.arrives
  slots := h2.slots.trans h1.slots
  args := h2.args.trans h1.args
  printed := h2.printed.trans h1.printed
  delivered := h2.delivered.trans h1.delivered
  callers := h2.callers.trans h1.callers
  regs id hid := (h2.regs id (Nat.lt_of_lt_of_le hid hmn)).trans (h1.regs id hid)

theorem Computes.value {n : Nat} (h : Computes gf E n g' c c') (hv : v.Below n) :
    c'.value v = c.value v := by
  cases v with
  | inst id ty => exact h.regs id hv
  | arg f index =>
      show c'.top.args[index]? = c.top.args[index]?
      rw [h.args]
  | const | slot | unset => rfl

theorem Computes.corresponds {n : Nat} {s : SimState} (h : Computes gf E n g' c c')
    (hc : Corresponds gf s c) : Corresponds gf s c' where
  cells x a hx := by rw [h.slots]; exact hc.cells x a hx
  known := hc.known
  printed := h.printed.trans hc.printed
  callers := h.callers.trans hc.callers

/-! ## Calls of `IRBuilder` -/

open CodeGenerator (emit foldValue)

/-- An operator instruction computes its value, or the machine ends at it. -/
theorem op_step (opcode : Opcode) {args : List Value} {vs : List Constant} (ty : Ty) (hat : At gf g c)
    (hr : g.Ready) (hext : Extends (g.insert (.op g.nextId opcode args)) gf)
    (hargs : args.mapM c.value = some vs) :
    (∀ w, opcode.eval E.ops vs = some w →
      ∃ c', Computes gf E g.nextId (g.insert (.op g.nextId opcode args)) c c' ∧
        c'.value (.inst g.nextId ty) = some w) ∧
      (opcode.eval E.ops vs = none → step gf E c = .inr (.undefined opcode vs)) := by
  obtain ⟨rest, hcode, hrest⟩ := hat.next hr hext
  have hargs' : args.mapM (c.setCode rest).value = some vs := hargs
  have hstep := step_cons (g := gf) (E := E) hcode
  constructor
  · intro w hw
    have hexec : step gf E c = .inl ((c.setCode rest).setReg g.nextId w) := by
      rw [hstep]
      simp only [execute, hargs', hw]
    refine ⟨_, ⟨.one hexec, hrest, rfl, rfl, rfl, rfl, rfl, fun id hid => ?_⟩, ?_⟩
    · exact Function.update_of_ne (Nat.ne_of_lt hid) _ _
    · exact Function.update_self _ _ _
  · intro hnone
    rw [hstep]
    simp only [execute, hargs', hnone]

theorem eq_map_const {args : List Value} {cs : List Constant}
    (h : args.mapM Value.constant? = some cs) : args = cs.map Value.const := by
  induction args generalizing cs with
  | nil =>
      cases h
      rfl
  | cons a args ih =>
      rw [List.mapM_cons, Option.bind_eq_bind, Option.bind_eq_some_iff] at h
      obtain ⟨d, hd, h⟩ := h
      rw [Option.bind_eq_bind, Option.bind_eq_some_iff] at h
      obtain ⟨ds, hds, h⟩ := h
      cases h
      cases a with
      | const k =>
          cases hd
          rw [ih hds]
          rfl
      | inst | arg | slot | unset => cases hd

theorem mapM_value_const (c : Config) (cs : List Constant) :
    (cs.map Value.const).mapM c.value = some cs := by
  induction cs with
  | nil => rfl
  | cons d cs ih =>
      rw [List.map_cons, List.mapM_cons, ih]
      rfl

/-- A folded call was one of constants, and not of an abstract operator. -/
theorem foldValue_some {opcode : Opcode} {args : List Value} {k : Constant} {vs : List Constant}
    (h : foldValue M opcode args = some k) (hvs : args.mapM c.value = some vs) :
    args = vs.map Value.const ∧ M.fold opcode vs = some k ∧
      ∀ I : Interpretation, opcode.eval I vs = opcode.evalLlvm vs := by
  have hfold : (args.mapM Value.constant?).bind (M.fold opcode) = some k := by
    cases opcode with
    | binary op => cases h
    | unary op => cases h
    | _ => exact h
  obtain ⟨cs, hcs, hk⟩ := Option.bind_eq_some_iff.mp hfold
  have hargs := eq_map_const hcs
  have hcv : cs = vs := by
    rw [hargs, mapM_value_const] at hvs
    injection hvs
  subst hcv
  refine ⟨hargs, hk, fun I => ?_⟩
  cases opcode with
  | binary op => cases h
  | unary op => cases h
  | _ => rfl

/-- What a call of `IRBuilder` leaves behind: a value that the machine, having come there, knows. -/
structure Known (g : CodeGenerator) (c : Config) (v : Value) (w : Constant) : Prop where
  value : c.value v = some w
  ty : v.ty = w.ty
  below : v.Below g.nextId

theorem Known.mapM_one {w : Constant} (h : Known g c v w) : [v].mapM c.value = some [w] := by
  simp [h.value]

theorem Known.mapM_pair {v' : Value} {w w' : Constant} (h : Known g c v w) (h' : Known g c v' w') :
    [v, v'].mapM c.value = some [w, w'] := by
  simp [h.value, h'.value]

/-- From the point `g` the machine computes the result `v` of some calls, made up to `g'`, as `w`. -/
def Finds (gf : CodeGenerator) (E : Env) (g g' : CodeGenerator) (c : Config) (v : Value) (w : Constant) :
    Prop := ∃ c', Computes gf E g.nextId g' c c' ∧ Known g' c' v w

/-- **One call** that is defined on its operands. -/
theorem call_finds {opcode : Opcode} {args : List Value} {vs : List Constant} {w : Constant}
    (hs : M.Sound) (hat : At gf g c) (hr : g.Ready) (hext : Extends (emit M (.call opcode args) g).2 gf)
    (hargs : args.mapM c.value = some vs) (hscalar : ∀ d ∈ vs, d.isScalar)
    (hw : opcode.eval E.ops vs = some w) (hty : opcode.resultTy args = w.ty) :
    Finds gf E g (emit M (.call opcode args) g).2 c (emit M (.call opcode args) g).1 w := by
  unfold Emit.call emit at hext ⊢
  cases hf : foldValue M opcode args with
  | some k =>
      obtain ⟨_, hfold, heval⟩ := foldValue_some hf hargs
      have hk : k = w := by
        rcases hs opcode vs k hscalar hfold with hk | ⟨hk, _⟩
        · rw [← heval E.ops, hw] at hk
          injection hk with hk
          exact hk.symm
        · rw [← heval E.ops, hw] at hk
          cases hk
      subst hk
      exact ⟨c, .refl hat, rfl, rfl, trivial⟩
  | none =>
      simp only [hf] at hext
      obtain ⟨hsome, _⟩ := op_step (E := E) opcode (opcode.resultTy args) hat hr hext hargs
      obtain ⟨c', hc, hv⟩ := hsome w hw
      exact ⟨c', hc, hv, hty, Nat.lt_succ_self _⟩

/-! ## Memory and output -/

/-- A load finds what the slot holds. -/
theorem load_finds {a : AllocaInst} {w : Constant} (hat : At gf g c) (hr : g.Ready)
    (hext : Extends (g.createLoad a) gf) (hslot : c.top.slots a.id = some w) (hty : a.ty = w.ty) :
    Finds gf E g (g.createLoad a) c (.inst g.nextId a.ty) w := by
  obtain ⟨rest, hcode, hrest⟩ := hat.next (i := .load g.nextId a) hr hext.of_setLast
  have hslot' : (c.setCode rest).top.slots a.id = some w := hslot
  have hexec : step gf E c = .inl ((c.setCode rest).setReg g.nextId w) := by
    rw [step_cons hcode]
    simp only [execute, hslot', Option.map_some, orInvalid]
  refine ⟨_, ⟨.one hexec, hrest, rfl, rfl, rfl, rfl, rfl, fun id hid => ?_⟩, ?_, hty, Nat.lt_succ_self _⟩
  · exact Function.update_of_ne (Nat.ne_of_lt hid) _ _
  · exact Function.update_self _ _ _

/-- A store writes a slot of the value's type. -/
theorem store_steps {a : AllocaInst} {w : Constant} {v : Value} (hat : At gf g c) (hr : g.Ready)
    (hext : Extends (g.createStore v a) gf) (hv : c.value v = some w) (hslot : (c.top.slots a.id).isSome)
    (hty : w.ty = a.ty) :
    ∃ rest, step gf E c = .inl ((c.setCode rest).setSlot a.id w) ∧
      At gf (g.createStore v a) ((c.setCode rest).setSlot a.id w) := by
  obtain ⟨rest, hcode, hrest⟩ := hat.next (i := .store v a) hr hext
  obtain ⟨old, hold⟩ := Option.isSome_iff_exists.mp hslot
  have hv' : (c.setCode rest).value v = some w := hv
  have hold' : (c.setCode rest).top.slots a.id = some old := hold
  refine ⟨rest, ?_, hrest⟩
  rw [step_cons hcode]
  simp only [execute, hv', hold', hty, if_true]

/-- Writing a variable's slot is storing into the name table. -/
theorem Corresponds.put {s : SimState} {x : Name} {a : AllocaInst} {w : Constant} {rest : List Instruction}
    (hr : gf.Ready) (h : Corresponds gf s c) (hx : gf.lookup x = some a) (hw : w.Fits .i32) :
    Corresponds gf (s.put x w.number?) ((c.setCode rest).setSlot a.id w) where
  cells y b hy := by
    by_cases hxy : y = x
    · subst hxy
      rw [hx] at hy
      cases hy
      simp [Config.setSlot, Activation.setSlot, SimState.put, cell_number? hw]
    · have hid : b.id ≠ a.id := fun hid => hxy (lookup_injective hr hy hx hid)
      have hb := h.cells y b hy
      simpa [Config.setSlot, Config.setCode, Activation.setSlot, SimState.put, hid, hxy] using hb
  known y v hy := by
    by_cases hxy : y = x
    · subst hxy
      rw [hx]
      rfl
    · have hy' : s.nametable y = some v := by simpa [SimState.put, hxy] using hy
      exact h.known y v hy'
  printed := h.printed
  callers := h.callers

/-- The variables as the machine's memory has them. -/
def CodeGenerator.variables (g : CodeGenerator) (c : Config) (x : Name) : Option Number :=
  (g.lookup x).bind (fun a => (c.top.slots a.id).bind Constant.number?)

theorem Corresponds.variables {s : SimState} (h : Corresponds gf s c) : gf.variables c = s.nametable := by
  funext x
  unfold CodeGenerator.variables
  cases hl : gf.lookup x with
  | none =>
      cases hx : s.nametable x with
      | none => rfl
      | some v =>
          have hsome := h.known x v hx
          rw [hl] at hsome
          cases hsome
  | some a =>
      have hcell := h.cells x a hl
      rw [Option.bind_some, hcell]
      cases s.nametable x <;> rfl

end ParaCL
