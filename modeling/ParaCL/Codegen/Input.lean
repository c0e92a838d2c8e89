import ParaCL.Codegen.InputSlot
import ParaCL.Codegen.MainOnly
import ParaCL.Codegen.Renaming
import ParaCL.Codegen.Run
import ParaCL.Codegen.Stream

/-!
# `Codegen.Input` — what `?` delivers, interpreted and compiled

Neither `visit(Input)` looks at whether its read has succeeded. The simulator reads into a fresh local, the
compiled program into one slot that all its `?` share. So the two agree on a failed read only if it is the
first one, at a non-integer, and finds 0 in the slot; in a program that does not use the slot's name itself,
the slot holds the last integer read (`Remembers`).

`input_agrees_iff` says of every run when the two agree: if every `?` that is executed is `Supplied`.
-/

namespace ParaCL

open Lib

/-! ## The machine on a stream -/

/-- The function of the C library that a value refers to. -/
def CodeGenerator.libraryName (g : CodeGenerator) : Option Constant → Option String
  | some (.func f) => if g.entryBlock f = none then g.functions[f]?.map IrFunction.name else none
  | _ => none

/-- A call of `scanf`: its number, its target and the code after it. -/
structure ScanCall where
  id : Nat
  slot : AllocaInst
  rest : List Instruction

section Step

variable (g : CodeGenerator) (S : InputStream) (I : Interpretation)

/-- The call of `scanf` that is the next instruction. -/
def nextScan (c : Config) : Option ScanCall :=
  match c.top.code with
  | .call id _ callee [.const (.str "%d"), .slot a] :: rest =>
      if g.libraryName (c.value callee) = some "scanf" then some ⟨id, a, rest⟩ else none
  | _ => none

/-- A call that reads nothing: its target keeps what it holds. The value of the call is not used. -/
def failScan (s : ScanCall) (result : Number) (c : Config) : Config ⊕ Ending :=
  if (c.top.slots s.slot.id).isSome then .inl (((c.setCode s.rest).deliver).setReg s.id (.int result))
  else .inr .invalid

/-- A step, with the stream as standard input. -/
def stepOn (c : Config) : Config ⊕ Ending :=
  match nextScan g c with
  | some s =>
      match S.attempt c.delivered with
      | .integer z =>
          -- C leaves it undefined to read an integer that is no `int`
          if InInt z then step g ⟨I, fun n => (S.read n).getD 0⟩ c else .inr .invalid
      | .nonInteger => failScan s 0 c
      | .ended => failScan s (-1) c
  | none => step g ⟨I, fun n => (S.read n).getD 0⟩ c

/-- A run of the compiled program comes to its `n`-th `?`. -/
structure AtInput (n : Nat) (c : Config) (s : ScanCall) : Prop where
  reached : Star (stepOn g S I) g.start c
  next : nextScan g c = some s
  count : c.delivered = n

/-- It does so with `w` in the slot. -/
def SlotBefore (n : Nat) (w : Constant) : Prop :=
  ∃ c s, AtInput g S I n c s ∧ c.top.slots s.slot.id = some w

/-- The `n`-th `?` of the compiled program yields `w`, the content of the slot after the call. -/
def CompiledReads (n : Nat) (w : Constant) : Prop :=
  ∃ c s c', AtInput g S I n c s ∧ stepOn g S I c = .inl c' ∧ c'.top.slots s.slot.id = some w

end Step

/-- The simulator executes its `n`-th `?`. -/
def SimReads (p : Program) (S : InputStream) (u : Nat → Number) (n : Nat) : Prop :=
  ∃ fuel, n < (Simulator.run ⟨.cpp, S.cin u⟩ fuel p).state.delivered

/-- The `n`-th `?` yields the same in the simulator and in the compiled program. What the simulator's `?`
    yields does not depend on what a new local holds, and the compiled program's yields an integer whenever it
    is executed. -/
structure InputsAgree (p : Program) (g : CodeGenerator) (S : InputStream) (u : Nat → Number)
    (I : Interpretation) : Prop where
  same : ∀ n w, SimReads p S u n → CompiledReads g S I n w → w = .int (S.cin u n)
  simulator : ∀ n, SimReads p S u n → ∀ u', S.cin u' n = S.cin u n
  compiled : ∀ n c s, AtInput g S I n c s →
    ∃ c' v, stepOn g S I c = .inl c' ∧ c'.top.slots s.slot.id = some (.int v)

/-- What the slot holds before the `n`-th `?`: the last `int` read from the stream, unless the program uses
    the slot's name and may have put something else there. -/
def InSlot (p : Program) (g : CodeGenerator) (S : InputStream) (I : Interpretation) (n : Nat) (w : Constant) :
    Prop :=
  if inputVar ∈ p.identifiers then SlotBefore g S I n w else w = cell (S.lastRead n)

/-- A `?` that the simulator executes comes after reads that found an `int` each, and not upon the end of the
    stream. A `?` that the compiled program executes finds an `int`, or no integer at all and an integer in the
    slot, which is 0 if the simulator executes that `?` too. -/
structure Supplied (p : Program) (g : CodeGenerator) (S : InputStream) (u : Nat → Number)
    (I : Interpretation) : Prop where
  simulator : ∀ n, SimReads p S u n → S.CinYields n
  compiled : ∀ n c s, AtInput g S I n c s → S.read n = none → S.Representable n ∧
    ∀ w, InSlot p g S I n w → ∃ v, w = .int v ∧ (SimReads p S u n → v = 0)

section Scans

open InputStream (read_eq_some cin_some cin_none cinYields_iff scanf_some scanf_none representable_of_scanf)

variable {p : Program} {g : CodeGenerator} {S : InputStream} {I : Interpretation} {E : Env} {c c' : Config}
  {s : ScanCall} {w : Constant} {u : Nat → Number} {n : Nat}

theorem libraryName_some {v : Option Constant} {name : String} (h : g.libraryName v = some name) :
    ∃ f fn, v = some (.func f) ∧ g.entryBlock f = none ∧ g.functions[f]? = some fn ∧
      fn.name = name := by
  unfold CodeGenerator.libraryName at h
  split at h
  · split at h
    · rename_i f he
      obtain ⟨fn, hfn, hname⟩ := Option.map_eq_some_iff.mp h
      exact ⟨f, fn, rfl, he, hfn, hname⟩
    · cases h
  · cases h

theorem nextScan_some (h : nextScan g c = some s) :
    ∃ arity callee, c.top.code = .call s.id arity callee [.const (.str "%d"), .slot s.slot] :: s.rest ∧
      g.libraryName (c.value callee) = some "scanf" := by
  unfold nextScan at h
  split at h
  · rename_i id arity callee a rest hcode
    split at h
    · rename_i hname
      cases h
      exact ⟨arity, callee, hcode, hname⟩
    · cases h
  · cases h

theorem nextScan_of_call {id arity : Nat} {callee : Value} {a : AllocaInst} {rest : List Instruction}
    (hcode : c.top.code = .call id arity callee [.const (.str "%d"), .slot a] :: rest)
    (hname : g.libraryName (c.value callee) = some "scanf") : nextScan g c = some ⟨id, a, rest⟩ := by
  simp only [nextScan, hcode]
  exact if_pos hname

/-- A call of `scanf` that finds its target. -/
theorem step_scan (h : nextScan g c = some s) : step g E c =
    if (c.top.slots s.slot.id).isSome then
      .inl ((((c.setCode s.rest).setSlot s.slot.id (.int (E.input c.delivered))).deliver).setReg s.id
        (.int 1))
    else .inr .invalid := by
  obtain ⟨arity, callee, hcode, hname⟩ := nextScan_some h
  obtain ⟨f, fn, hv, he, hfn, hscanf⟩ := libraryName_some hname
  have hv : (c.setCode s.rest).value callee = some (.func f) := hv
  rw [step_cons hcode]
  simp only [execute, callFunction, hv, hfn, he, hscanf, callExternal]
  rw [if_neg (by decide), if_pos trivial]
  show orInvalid (if (c.top.slots s.slot.id).isSome then _ else none) = _
  split <;> rfl

theorem stepOn_other (h : nextScan g c = none) :
    stepOn g S I c = step g ⟨I, fun n => (S.read n).getD 0⟩ c := by
  rw [stepOn, h]

/-- **One `?` of the compiled program**, at a slot that is allocated. -/
theorem stepOn_scan (h : nextScan g c = some s) (hw : c.top.slots s.slot.id = some w) :
    (S.scanf c.delivered w = none ∧ stepOn g S I c = .inr .invalid) ∨
      ∃ w' c', S.scanf c.delivered w = some w' ∧ stepOn g S I c = .inl c' ∧ c'.top.code = s.rest ∧
        c'.callers = c.callers ∧ c'.delivered = c.delivered + 1 ∧ c'.top.args = c.top.args ∧
        (∃ r, c'.top.regs = Function.update c.top.regs s.id (some (.int r))) ∧
        c'.top.slots = Function.update c.top.slots s.slot.id (some w') := by
  have hslot : (c.top.slots s.slot.id).isSome := Option.isSome_of_eq_some hw
  have hfail (r : Number) : ∃ c', failScan s r c = .inl c' ∧ c'.top.code = s.rest ∧
      c'.callers = c.callers ∧ c'.delivered = c.delivered + 1 ∧ c'.top.args = c.top.args ∧
      (∃ r, c'.top.regs = Function.update c.top.regs s.id (some (.int r))) ∧
      c'.top.slots = Function.update c.top.slots s.slot.id (some w) := by
    refine ⟨_, if_pos hslot, rfl, rfl, rfl, rfl, ⟨r, rfl⟩, ?_⟩
    rw [← hw, Function.update_eq_self]
    rfl
  cases ha : S.attempt c.delivered with
  | integer z =>
      by_cases hz : InInt z
      · have hread : S.read c.delivered = some (BitVec.ofInt 32 z) := read_eq_some.mpr ⟨z, ha, hz, rfl⟩
        refine .inr ⟨_,
          (((c.setCode s.rest).setSlot s.slot.id (.int (BitVec.ofInt 32 z))).deliver).setReg s.id (.int 1),
          scanf_some hread, ?_, rfl, rfl, rfl, rfl, ⟨1, rfl⟩, rfl⟩
        rw [stepOn, h]
        dsimp only
        rw [ha]
        dsimp only
        rw [if_pos hz, step_scan h, if_pos hslot]
        dsimp only
        rw [hread]
        rfl
      · refine .inl ⟨?_, ?_⟩
        · rw [InputStream.scanf, ha]
          exact if_neg hz
        · rw [stepOn, h]
          dsimp only
          rw [ha]
          exact if_neg hz
  | nonInteger =>
      obtain ⟨c', hc', hrest⟩ := hfail 0
      refine .inr ⟨w, c', ?_, ?_, hrest⟩
      · rw [InputStream.scanf, ha]
      · rw [stepOn, h]
        dsimp only
        rw [ha]
        exact hc'
  | ended =>
      obtain ⟨c', hc', hrest⟩ := hfail (-1)
      refine .inr ⟨w, c', ?_, ?_, hrest⟩
      · rw [InputStream.scanf, ha]
      · rw [stepOn, h]
        dsimp only
        rw [ha]
        exact hc'

theorem stepOn_scan_none (h : nextScan g c = some s) (hw : c.top.slots s.slot.id = none) :
    stepOn g S I c = .inr .invalid := by
  have hslot : ¬ (c.top.slots s.slot.id).isSome := by
    rw [hw]
    exact Bool.false_ne_true
  rw [stepOn, h]
  dsimp only
  split
  · split
    · rw [step_scan h, if_neg hslot]
    · rfl
  · exact if_neg hslot
  · exact if_neg hslot

/-- What a `?` yields is what the read makes of the slot's content before. -/
theorem reads_iff : CompiledReads g S I n w ↔ ∃ old, SlotBefore g S I n old ∧ S.scanf n old = some w := by
  constructor
  · rintro ⟨c, s, c', hat, hstep, hw⟩
    obtain rfl := hat.count
    cases hold : c.top.slots s.slot.id with
    | none =>
        rw [stepOn_scan_none hat.next hold] at hstep
        cases hstep
    | some old =>
        rcases stepOn_scan (S := S) (I := I) hat.next hold with
          ⟨_, hno⟩ | ⟨w', d, hscanf, hd, _, _, _, _, _, hslots⟩
        · rw [hno] at hstep
          cases hstep
        · rw [hd] at hstep
          cases hstep
          rw [hslots, Function.update_self] at hw
          cases hw
          exact ⟨old, ⟨c, s, hat, hold⟩, hscanf⟩
  · rintro ⟨old, ⟨c, s, hat, hold⟩, hscanf⟩
    obtain rfl := hat.count
    rcases stepOn_scan (S := S) (I := I) hat.next hold with
      ⟨hno, _⟩ | ⟨w', d, hw', hd, _, _, _, _, _, hslots⟩
    · rw [hno] at hscanf
      cases hscanf
    · rw [hw'] at hscanf
      cases hscanf
      exact ⟨c, s, d, hat, hd, by rw [hslots, Function.update_self]⟩

/-- The slot is there at every `?`, and the last `int` in it if the program does not use its name. -/
structure SlotKnown (p : Program) (g : CodeGenerator) (S : InputStream) (I : Interpretation) : Prop where
  slot : ∀ {n c s}, AtInput g S I n c s → ∃ w, c.top.slots s.slot.id = some w
  last : inputVar ∉ p.identifiers → ∀ {n w}, SlotBefore g S I n w → w = cell (S.lastRead n)

theorem SlotKnown.held (hk : SlotKnown p g S I) (h : SlotBefore g S I n w) : InSlot p g S I n w := by
  unfold InSlot
  split
  · exact h
  · exact hk.last ‹_› h

theorem SlotKnown.slotBefore (hk : SlotKnown p g S I) (hat : AtInput g S I n c s) (h : InSlot p g S I n w) :
    SlotBefore g S I n w := by
  unfold InSlot at h
  split at h
  · exact h
  · obtain ⟨old, hold⟩ := hk.slot hat
    have hbefore : SlotBefore g S I n old := ⟨c, s, hat, hold⟩
    rw [h, ← hk.last ‹_› hbefore]
    exact hbefore

/-- A `?` of the compiled program that is supplied yields an integer. -/
theorem Supplied.yields (h : Supplied p g S u I) (hk : SlotKnown p g S I) (hat : AtInput g S I n c s) :
    ∃ c' v, stepOn g S I c = .inl c' ∧ c'.top.slots s.slot.id = some (.int v) := by
  obtain rfl := hat.count
  obtain ⟨old, hold⟩ := hk.slot hat
  have hscanf : ∃ v, S.scanf c.delivered old = some (.int v) := by
    cases hread : S.read c.delivered with
    | some v => exact ⟨v, scanf_some hread⟩
    | none =>
        obtain ⟨hr, hheld⟩ := h.compiled _ c s hat hread
        obtain ⟨v, rfl, _⟩ := hheld old (hk.held ⟨c, s, hat, hold⟩)
        exact ⟨v, scanf_none hread hr⟩
  obtain ⟨v, hv⟩ := hscanf
  rcases stepOn_scan (S := S) (I := I) hat.next hold with
    ⟨hno, _⟩ | ⟨w', d, hw', hd, _, _, _, _, _, hslots⟩
  · rw [hno] at hv
    cases hv
  · rw [hw'] at hv
    cases hv
    exact ⟨d, v, hd, by rw [hslots, Function.update_self]⟩

/-- Both sides make the same of a `?` that is supplied. -/
theorem Supplied.same (h : Supplied p g S u I) (hk : SlotKnown p g S I) (hsim : SimReads p S u n)
    (hw : CompiledReads g S I n w) : w = .int (S.cin u n) := by
  obtain ⟨old, ⟨c, s, hat, hold⟩, hscanf⟩ := reads_iff.mp hw
  have hy := h.simulator n hsim
  cases hread : S.read n with
  | some v =>
      rw [scanf_some hread] at hscanf
      cases hscanf
      rw [cin_some hy.good hread]
  | none =>
      obtain ⟨hr, hheld⟩ := h.compiled n c s hat hread
      obtain ⟨v, rfl, hzero⟩ := hheld old (hk.held ⟨c, s, hat, hold⟩)
      rw [scanf_none hread hr] at hscanf
      cases hscanf
      rw [cin_none hy hr hread, hzero hsim]

/-- **When two `?` agree.** -/
theorem inputsAgree_iff (hk : SlotKnown p g S I) : InputsAgree p g S u I ↔ Supplied p g S u I := by
  constructor
  · intro h
    refine ⟨fun n hsim => cinYields_iff.mpr (h.simulator n hsim), fun n c s hat hread => ?_⟩
    obtain ⟨c', v, hstep, hv⟩ := h.compiled n c s hat
    have hreads : CompiledReads g S I n (.int v) := ⟨c, s, c', hat, hstep, hv⟩
    obtain ⟨_, _, hscanf⟩ := reads_iff.mp hreads
    have hr := representable_of_scanf hscanf
    refine ⟨hr, fun w hheld => ?_⟩
    -- a failed read yields what the slot held
    have hw := hk.slotBefore hat hheld
    obtain ⟨d, t, hat', hslot⟩ := hw
    obtain ⟨d', v', hstep', hv'⟩ := h.compiled n d t hat'
    have hreads' : CompiledReads g S I n w :=
      reads_iff.mpr ⟨w, ⟨d, t, hat', hslot⟩, scanf_none hread hr⟩
    have hint : ∃ v, w = .int v := by
      rcases stepOn_scan (S := S) (I := I) hat'.next hslot with
        ⟨_, hno⟩ | ⟨w', e, hw', he, _, _, _, _, _, hslots⟩
      · rw [hno] at hstep'
        cases hstep'
      · rw [he] at hstep'
        cases hstep'
        rw [hat'.count, scanf_none hread hr] at hw'
        cases hw'
        rw [hslots, Function.update_self] at hv'
        exact ⟨v', by injection hv'⟩
    obtain ⟨v, rfl⟩ := hint
    refine ⟨v, rfl, fun hsim => ?_⟩
    have hsame := h.same n _ hsim hreads'
    rw [cin_none (cinYields_iff.mpr (h.simulator n hsim)) hr hread] at hsame
    injection hsame
  · intro h
    exact ⟨fun n w hsim hw => h.same hk hsim hw, fun n hsim => cinYields_iff.mp (h.simulator n hsim),
      fun n c s hat => h.yields hk hat⟩

end Scans

/-! ## The slot remembers the last read -/

namespace CodeGenerator

variable {own : Prop} {g : CodeGenerator} {i : Instruction} {rest : List Instruction} {b : Nat}

theorem Sole.body_of_ne (h : g.Sole own) (hb : b ≠ 0) : (g.blocks b).instrs = (g.blocks b).body := by
  rw [BasicBlock.instrs, h.late b hb, List.nil_append]

theorem Sole.no_alloca (h : g.Sole own) (a : AllocaInst) : .alloca a ∉ (g.blocks b).body :=
  fun ha => h.bodies b _ ha

/-- An instruction allocates a slot or stands in a body, as does all that follows. -/
theorem Sole.next (h : g.Sole own) (hcode : i :: rest <:+ (g.blocks b).instrs) :
    (∃ a x, i = .alloca a ∧ g.lookup x = some a) ∨ i :: rest <:+ (g.blocks b).body := by
  obtain ⟨before, hbefore⟩ := hcode
  rcases List.append_eq_append_iff.mp hbefore with ⟨front, hfront, hrest⟩ | ⟨front, _, hrest⟩
  · cases front with
    | nil => exact .inr ⟨[], hrest⟩
    | cons j front =>
        -- the instruction was inserted at the beginning of the entry block
        injection hrest with hij
        subst hij
        have hi : i ∈ (g.blocks b).hoisted := by
          rw [hfront]
          exact List.mem_append_right _ List.mem_cons_self
        have hb : b = 0 := by
          by_contra hb
          rw [h.late b hb] at hi
          cases hi
        subst hb
        obtain ⟨a, rfl⟩ := h.onlyAllocas i hi
        obtain ⟨x, hx⟩ := (h.slots a).mp hi
        exact .inl ⟨a, x, rfl, hx⟩
  · exact .inr ⟨front, hrest.symm⟩

end CodeGenerator

/-- What the slot of `?` holds after some reads: the last of them, unless the program stores there. -/
def Remembered (own : Prop) (S : InputStream) (n : Nat) (held : Option Constant) : Prop :=
  ∃ w, held = some w ∧ (¬ own → w = cell (S.lastRead n))

/-- The machine runs `main`, nothing it has computed is a function, and the slot of `?`, once it is allocated,
    remembers the last read. -/
structure Remembers (own : Prop) (g : CodeGenerator) (S : InputStream) (c : Config) : Prop where
  callers : c.callers = []
  args : c.top.args = []
  regs : ∀ id w, c.top.regs id = some w → w.isScalar
  cells : ∀ id w, c.top.slots id = some w → w.isScalar
  code : ∃ b, c.top.code <:+ (g.blocks b).instrs
  early : ∀ a, .alloca a ∈ c.top.code → c.delivered = 0
  slot : ∀ a, g.lookup inputVar = some a → .alloca a ∉ c.top.code →
    Remembered own S c.delivered (c.top.slots a.id)

section Remembering

open InputStream (scanf_some scanf_none representable_of_scanf)

variable {own : Prop} {g : CodeGenerator} {S : InputStream} {I : Interpretation} {E : Env} {c c' : Config}
  {s : ScanCall} {i : Instruction} {rest : List Instruction} {v : Value} {w : Constant}

theorem scalar_update {f : Nat → Option Constant} (h : ∀ id w, f id = some w → w.isScalar) {id : Nat}
    (hw : w.isScalar) : ∀ id' w', Function.update f id (some w) id' = some w' → w'.isScalar := by
  intro id' w' h'
  by_cases hid : id' = id
  · subst hid
    rw [Function.update_self] at h'
    cases h'
    exact hw
  · rw [Function.update_of_ne hid] at h'
    exact h id' w' h'

/-- A scalar is one when the program runs. -/
theorem Remembers.scalar (h : Remembers own g S c) (hv : v.IsScalar) (hw : c.value v = some w) :
    w.isScalar := by
  cases v with
  | const d =>
      cases hw
      exact hv _ rfl
  | inst id ty => exact h.regs id w hw
  | arg f index =>
      have hargs : c.top.args[index]? = some w := hw
      rw [h.args] at hargs
      cases hargs
  | slot | unset => cases hw

/-- It is not called. -/
theorem Remembers.no_call (h : Remembers own g S c) {callee : Value} (hv : callee.IsScalar) (f : Nat) :
    c.value callee ≠ some (.func f) := fun hw => by cases h.scalar hv hw

theorem start_remembers (hg : g.Sole own) : Remembers own g S g.start where
  callers := rfl
  args := rfl
  regs _ _ h := by cases h
  cells _ _ h := by cases h
  code := ⟨_, List.suffix_refl _⟩
  early _ _ := rfl
  slot a ha hnot := by
    refine absurd ?_ hnot
    show _ ∈ (g.blocks ((g.entryBlock 0).getD 0)).instrs
    rw [hg.entry]
    exact List.mem_append_left _ ((hg.slots a).mpr ⟨_, ha⟩)

theorem Remembers.in_body (h : Remembers own g S c) (hg : g.Sole own) {b : Nat}
    (hbody : c.top.code <:+ (g.blocks b).body) {a : AllocaInst} (ha : g.lookup inputVar = some a) :
    Remembered own S c.delivered (c.top.slots a.id) :=
  h.slot a ha (fun hmem => hg.no_alloca a (hbody.subset hmem))

/-- `scanf` reads into the slot of `?`. -/
theorem nextScan_slot (hg : g.Sole own) (h : Remembers own g S c) {b : Nat}
    (hbody : c.top.code <:+ (g.blocks b).body) (hs : nextScan g c = some s) :
    g.lookup inputVar = some s.slot := by
  obtain ⟨arity, callee, hcall, hname⟩ := nextScan_some hs
  have hmem : .call s.id arity callee [.const (.str "%d"), .slot s.slot] ∈ (g.blocks b).body :=
    hbody.subset (by rw [hcall]; exact List.mem_cons_self)
  rcases hg.bodies b _ hmem with hv | hlib
  · obtain ⟨f, _, hf, _⟩ := libraryName_some hname
    exact absurd hf (h.no_call hv f)
  · exact hlib.2 s.slot rfl

/-! ### One step -/

/-- What an instruction of a body that is no call of `scanf` leaves of what is remembered. -/
structure KeepsSlot (own : Prop) (g : CodeGenerator) (c c' : Config) : Prop where
  callers : c'.callers = c.callers
  args : c'.top.args = c.top.args
  delivered : c'.delivered = c.delivered
  code : c'.top.code = c.top.code ∨ ∃ b, b ≠ 0 ∧ c'.top.code = (g.blocks b).instrs
  regs : (∀ id w, c.top.regs id = some w → w.isScalar) → ∀ id w, c'.top.regs id = some w → w.isScalar
  cells : (∀ id w, c.top.slots id = some w → w.isScalar) →
    ∀ id w, c'.top.slots id = some w → w.isScalar
  slot : ∀ a, g.lookup inputVar = some a → c'.top.slots a.id = c.top.slots a.id ∨
    (own ∧ (c'.top.slots a.id).isSome)

/-- An instruction that sets a register. -/
theorem KeepsSlot.setReg {id : Nat} (hw : w.isScalar) : KeepsSlot own g c (c.setReg id w) where
  callers := rfl
  args := rfl
  delivered := rfl
  code := .inl rfl
  regs h := scalar_update h hw
  cells h := h
  slot _ _ := .inl rfl

theorem KeepsSlot.goTo {b : Nat} (hb : b ≠ 0) : KeepsSlot own g c (goTo g b c) where
  callers := rfl
  args := rfl
  delivered := rfl
  code := .inr ⟨b, hb, rfl⟩
  regs h := h
  cells h := h
  slot _ _ := .inl rfl

theorem callExternal_keeps {name : String} {id : Nat} {args : List Value}
    (hno : ∀ a, name = "scanf" → args ≠ [.const (.str "%d"), .slot a])
    (h : callExternal E name id args c = some c') : KeepsSlot own g c c' := by
  unfold callExternal at h
  split at h
  · split at h
    · split at h
      · next n _ =>
          cases h
          have hkeep : KeepsSlot own g c (c.setReg id (.int (printfResult n))) := .setReg rfl
          exact { hkeep with }
      · cases h
    · cases h
  · split at h
    · split at h
      · exact absurd rfl (hno _ ‹_›)
      · cases h
    · cases h

/-- One instruction of a body. -/
theorem execute_keeps (hg : g.Sole own) (hr : g.Ready) (h : Remembers own g S c)
    (hi : CodeGenerator.Harmless own g.lookup i) (hcode : c.top.code = i :: rest)
    (hno : nextScan g c = none) (hs : execute g E (c.setCode rest) i = .inl c') :
    KeepsSlot own g (c.setCode rest) c' := by
  cases i with
  | alloca a => exact absurd hi id
  | load id a =>
      obtain ⟨v, hv, rfl⟩ := Option.map_eq_some_iff.mp (orInvalid_eq hs)
      exact .setReg (h.cells a.id v hv)
  | store v a =>
      obtain ⟨hscalar, x, hx, ha⟩ := hi
      simp only [execute] at hs
      split at hs
      · rename_i w _ hw _
        split at hs
        · cases hs
          have hw : w.isScalar := h.scalar (c := c) hscalar hw
          refine ⟨rfl, rfl, rfl, .inl rfl, fun h => h, fun h => scalar_update h hw, fun b hb => ?_⟩
          -- a store to the slot itself is one the program makes by its name
          by_cases hid : b.id = a.id
          · refine .inr ⟨hx (lookup_injective hr ha hb hid.symm), ?_⟩
            show (Function.update c.top.slots a.id (some w) b.id).isSome
            rw [hid, Function.update_self]
            rfl
          · exact .inl (Function.update_of_ne hid _ _)
        · cases hs
      · cases hs
  | op id opcode args =>
      simp only [execute] at hs
      split at hs
      · split at hs
        · rename_i w hw
          cases hs
          exact .setReg (Opcode.eval_scalar hw)
        · cases hs
      · cases hs
  | call id arity callee args =>
      have hcall := orInvalid_eq hs
      rcases hi with hv | ⟨⟨f, hf, rfl⟩, _⟩
      · unfold callFunction at hcall
        split at hcall
        · exact absurd ‹_› (h.no_call (c := c) hv _)
        · cases hcall
      · have hentry := hg.no_entry hf
        unfold callFunction at hcall
        have hvalue : (c.setCode rest).value (.const (.func f)) = some (.func f) := rfl
        rw [hvalue] at hcall
        dsimp only at hcall
        rw [hentry] at hcall
        cases hfn : g.functions[f]? with
        | none =>
            rw [hfn] at hcall
            cases hcall
        | some fn =>
            rw [hfn] at hcall
            refine callExternal_keeps (fun a hscanf hargs => ?_) hcall
            subst hargs
            have hname : g.libraryName (c.value (.const (.func f))) = some "scanf" := by
              show (if g.entryBlock f = none then g.functions[f]?.map IrFunction.name else none) = _
              rw [if_pos hentry, hfn, ← hscanf]
              rfl
            rw [nextScan_of_call hcode hname] at hno
            cases hno
  | br target =>
      cases hs
      exact .goTo hi
  | condBr cond thenBlock elseBlock =>
      simp only [execute] at hs
      split at hs
      · cases hs
        refine .goTo ?_
        split
        · exact hi.1
        · exact hi.2
      · cases hs
  | ret v =>
      simp only [execute, returnValue] at hs
      rw [show (c.setCode rest).callers = [] from h.callers] at hs
      split at hs
      · cases hs
      · cases hs

/-- A slot is allocated; the one of `?` starts out without a value. -/
theorem alloca_remembers (hg : g.Sole own) (hr : g.Ready) (h : Remembers own g S c) {a : AllocaInst}
    {x : Name} (hcode : c.top.code = .alloca a :: rest) (hx : g.lookup x = some a) :
    Remembers own g S ((c.setCode rest).setSlot a.id (.poison a.ty)) := by
  have hdel : c.delivered = 0 := h.early a (by rw [hcode]; exact List.mem_cons_self)
  obtain ⟨b, hb⟩ := h.code
  rw [hcode] at hb
  refine ⟨h.callers, h.args, h.regs, scalar_update h.cells rfl, ⟨b, (List.suffix_cons _ _).trans hb⟩,
    fun _ _ => hdel, fun a' ha' hnot => ?_⟩
  have hnot : .alloca a' ∉ rest := hnot
  show Remembered own S c.delivered (Function.update c.top.slots a.id (some (.poison a.ty)) a'.id)
  by_cases hid : a'.id = a.id
  · have hxI := lookup_injective hr ha' hx hid
    subst hxI
    rw [hx] at ha'
    cases ha'
    rw [Function.update_self, hdel]
    exact ⟨_, rfl, fun hown => by rw [hg.hiddenTy hown a hx]; rfl⟩
  · have hne : Instruction.alloca a' ≠ .alloca a := by
      rintro ⟨⟩
      exact hid rfl
    rw [Function.update_of_ne hid]
    refine h.slot a' ha' (fun hmem => ?_)
    rw [hcode] at hmem
    exact (List.mem_cons.mp hmem).elim hne hnot

/-- In a body every slot is allocated. -/
theorem Remembers.of_body (hg : g.Sole own) {b : Nat} (hcode : c.top.code <:+ (g.blocks b).body)
    (hcallers : c.callers = []) (hargs : c.top.args = [])
    (hregs : ∀ id w, c.top.regs id = some w → w.isScalar)
    (hcells : ∀ id w, c.top.slots id = some w → w.isScalar)
    (hslot : ∀ a, g.lookup inputVar = some a → Remembered own S c.delivered (c.top.slots a.id)) :
    Remembers own g S c where
  callers := hcallers
  args := hargs
  regs := hregs
  cells := hcells
  code := ⟨b, hcode.trans (List.suffix_append _ _)⟩
  early a ha := absurd (hcode.subset ha) (hg.no_alloca a)
  slot a ha _ := hslot a ha

/-- A read goes into the slot of `?`. -/
theorem scan_remembers (hg : g.Sole own) (h : Remembers own g S c) {b : Nat}
    (hbody : c.top.code <:+ (g.blocks b).body) (hscan : nextScan g c = some s)
    (hs : stepOn g S I c = .inl c') : Remembers own g S c' := by
  have hslot := nextScan_slot hg h hbody hscan
  obtain ⟨arity, callee, hcall, _⟩ := nextScan_some hscan
  obtain ⟨w, hw, hlast⟩ := h.in_body hg hbody hslot
  rcases stepOn_scan (S := S) (I := I) hscan hw with
    ⟨_, hno⟩ | ⟨w', d, hscanf, hd, hcode, hcallers, hdel, hargs, ⟨r, hregs⟩, hslots⟩
  · rw [hno] at hs
    cases hs
  · rw [hd] at hs
    cases hs
    -- the slot holds the new integer, or still the one before
    have hw' : w'.isScalar ∧ (¬ own → w' = cell (S.lastRead (c.delivered + 1))) := by
      rw [InputStream.lastRead]
      cases hread : S.read c.delivered with
      | some v =>
          rw [scanf_some hread] at hscanf
          cases hscanf
          exact ⟨rfl, fun _ => rfl⟩
      | none =>
          rw [scanf_none hread (representable_of_scanf hscanf)] at hscanf
          cases hscanf
          exact ⟨h.cells _ _ hw, hlast⟩
    refine .of_body hg (b := b) ?_ (hcallers.trans h.callers) (hargs.trans h.args) ?_ ?_ (fun a ha => ?_)
    · rw [hcode]
      rw [hcall] at hbody
      exact (List.suffix_cons _ _).trans hbody
    · rw [hregs]
      exact scalar_update h.regs rfl
    · rw [hslots]
      exact scalar_update h.cells hw'.1
    · rw [hslot] at ha
      cases ha
      rw [hslots, Function.update_self, hdel]
      exact ⟨w', rfl, hw'.2⟩

/-- Any other instruction of a body. -/
theorem other_remembers (hg : g.Sole own) (h : Remembers own g S c) {b : Nat}
    (hbody : i :: rest <:+ (g.blocks b).body) (hcode : c.top.code = i :: rest)
    (hk : KeepsSlot own g (c.setCode rest) c') : Remembers own g S c' := by
  have hslot (a : AllocaInst) (ha : g.lookup inputVar = some a) :
      Remembered own S c'.delivered (c'.top.slots a.id) := by
    rw [hk.delivered]
    rcases hk.slot a ha with hsame | ⟨hown, hsome⟩
    · rw [hsame]
      exact h.in_body hg (hcode ▸ hbody) ha
    · obtain ⟨w, hw⟩ := Option.isSome_iff_exists.mp hsome
      exact ⟨w, hw, fun hno => absurd hown hno⟩
  have hcallers := hk.callers.trans h.callers
  have hargs := hk.args.trans h.args
  rcases hk.code with hcode' | ⟨target, ht, hcode'⟩
  · refine .of_body hg (b := b) ?_ hcallers hargs (hk.regs h.regs) (hk.cells h.cells) hslot
    rw [hcode']
    exact (List.suffix_cons _ _).trans hbody
  · refine .of_body hg (b := target) ?_ hcallers hargs (hk.regs h.regs) (hk.cells h.cells) hslot
    rw [hcode', hg.body_of_ne ht]

/-- **What one step preserves.** -/
theorem stepOn_remembers (hg : g.Sole own) (hr : g.Ready) (h : Remembers own g S c)
    (hs : stepOn g S I c = .inl c') : Remembers own g S c' := by
  obtain ⟨b, hcode⟩ := h.code
  cases hi : c.top.code with
  | nil =>
      have hno : nextScan g c = none := by rw [nextScan, hi]
      rw [stepOn_other hno, step_nil hi] at hs
      cases hs
  | cons i rest =>
      rcases hg.next (hi ▸ hcode) with ⟨a, x, rfl, hx⟩ | hbody
      · have hno : nextScan g c = none := by rw [nextScan, hi]
        rw [stepOn_other hno, step_cons hi] at hs
        cases hs
        exact alloca_remembers hg hr h hi hx
      · cases hscan : nextScan g c with
        | some s => exact scan_remembers hg h (hi ▸ hbody) hscan hs
        | none =>
            rw [stepOn_other hscan, step_cons hi] at hs
            have hharmless := hg.bodies b i (hbody.subset List.mem_cons_self)
            exact other_remembers hg h hbody hi (execute_keeps hg hr h hharmless hi hscan hs)

/-- **What a run preserves**: at every `?` the slot remembers the last read. -/
theorem atInput_remembered (hg : g.Sole own) (hr : g.Ready) {n : Nat} (hat : AtInput g S I n c s) :
    Remembered own S n (c.top.slots s.slot.id) := by
  obtain ⟨hreached, hscan, rfl⟩ := hat
  have hrem : Remembers own g S c :=
    hreached.invariant (fun h hs => stepOn_remembers hg hr h hs) (start_remembers hg)
  obtain ⟨arity, callee, hcall, _⟩ := nextScan_some hscan
  obtain ⟨b, hcode⟩ := hrem.code
  rcases hg.next (hcall ▸ hcode) with ⟨a, x, ha, _⟩ | hbody
  · cases ha
  · have hbody : c.top.code <:+ (g.blocks b).body := hcall ▸ hbody
    exact hrem.in_body hg hbody (nextScan_slot hg hrem hbody hscan)

theorem knows_of_sole {p : Program} (hg : g.Sole (inputVar ∈ p.identifiers)) (hr : g.Ready) :
    SlotKnown p g S I where
  slot hat := by
    obtain ⟨w, hw, _⟩ := atInput_remembered hg hr hat
    exact ⟨w, hw⟩
  last hnot n w := by
    rintro ⟨c, s, hat, hw⟩
    obtain ⟨w', hw', hlast⟩ := atInput_remembered hg hr hat
    rw [hw] at hw'
    cases hw'
    exact hlast hnot

end Remembering

section Agreement

variable {M : Llvm} {L : Lowering}

open CodeGenerator (visitProgram visitProgram_grows visitProgram_sole)

/-- `x = ?; y = ?; print y;` -/
def readTwice : Program where
  stmts := [.exprStmt (.assignmentExpr "x" .input), .exprStmt (.assignmentExpr "y" .input),
    .printStmt (.var "y")]

theorem readTwice_delivered (E : Env) (fuel : Nat) :
    (Simulator.run E fuel readTwice).state.delivered = 2 := rfl

/-- A zero, and then no integer. -/
def zeroThenWord : InputStream := .ofText ['0', ' ', 'a', 'b', 'c']

/-- Every attempt but the first stops at the word. -/
theorem zeroThenWord_attempt (n : Nat) : zeroThenWord.attempt (n + 1) = .nonInteger := by
  have htext (k : Nat) : InputStream.textAfter ['0', ' ', 'a', 'b', 'c'] (k + 2) = ['a', 'b', 'c'] := by
    induction k with
    | zero => rfl
    | succ k ih =>
        rw [InputStream.textAfter, ih]
        rfl
  cases n with
  | zero => rfl
  | succ n =>
      show (InputStream.attemptOn (InputStream.textAfter _ (n + 2))).1 = _
      rw [htext]
      rfl

theorem zeroThenWord_lastRead (n : Nat) : zeroThenWord.lastRead (n + 1) = some 0 := by
  induction n with
  | zero => rfl
  | succ n ih =>
      have hread : zeroThenWord.read (n + 1) = none := by
        rw [InputStream.read, zeroThenWord_attempt]
      rw [InputStream.lastRead, hread, ih]
      rfl

/-- Five, and then no integer. -/
def fiveThenWord : InputStream := .ofText ['5', ' ', 'a', 'b', 'c']

end Agreement

end ParaCL
