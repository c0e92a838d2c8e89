import ParaCL.Codegen.Functions
import ParaCL.Codegen.Terminators
import ParaCL.Language.Stability

/-!
# `Codegen.Correctness` — compiled programs do what programs do

The pieces of `Codegen.Functions` put together for whole programs: the finished module is as the simulation
wants it (`finished_of_sorted`), `main` is entered like any other function, and what is realized for every bound
is a statement about whole runs. A program that never comes to a fault has one behavior, and the module has
this behavior and no other.
-/

namespace ParaCL

open Lib ParaCL.Language

open CodeGenerator (visit visitStmt visitStmts Grown Frame)

/-! ## Behavior -/

/-- The program ends: with the value of a `return` outside of functions, or with 0. -/
def Program.Exits (p : Program) (E : Env) (n : Number) (l : List Number) : Prop :=
  Finishes (fun fuel => p.run E fuel) (fun _ s => n = 0 ∧ s.printed = l) ∨
    Faults (fun fuel => p.run E fuel) (fun e s => e = .returned (.int n) ∧ s.printed = l)

/-- The program comes to an operator or a name without a value. -/
def Program.GoesWrong (p : Program) (E : Env) : Prop :=
  Faults (fun fuel => p.run E fuel) (fun e _ => ∃ f, e = .fault f)

/-- The program never comes to a value of the wrong kind, and a `return` outside of functions has an integer. -/
def Program.KeepsKinds (p : Program) (E : Env) : Prop :=
  ∀ fuel e s, p.run E fuel = .fault e s → (∃ f, e = .fault f) ∨ ∃ n, e = .returned (.int n)

/-- The program behaves in one way, the module does what the program does, and if that cannot go wrong, nothing
    else. -/
structure Implements (p : Program) (E : Env) (gf : CodeGenerator) (E' : Env) : Prop where
  kinds : p.KeepsKinds E
  settles : Diverges (fun fuel => p.run E fuel) ∨ p.GoesWrong E ∨
    ∃ n l, p.Exits E n l ∧ ∀ n' l', p.Exits E n' l' → n' = n ∧ l' = l
  exits : ∀ n l, p.Exits E n l → ∃ c, Ends (step gf E') gf.start c (.returned (.int n)) ∧ c.printed = l
  diverges : Diverges (fun fuel => p.run E fuel) → Forever (step gf E') gf.start
  prints : ∀ l, Logs (fun fuel => p.run E fuel) World.printed l →
    ∃ n c, StepsN (step gf E') n gf.start c ∧ l <+: c.printed
  returns : ¬ p.GoesWrong E → ∀ c r, Ends (step gf E') gf.start c r →
    ∃ n, r = .returned (.int n) ∧ p.Exits E n c.printed
  runsOn : ¬ p.GoesWrong E → Forever (step gf E') gf.start → Diverges (fun fuel => p.run E fuel)
  shows : ¬ p.GoesWrong E → ∀ n c, StepsN (step gf E') n gf.start c →
    Logs (fun fuel => p.run E fuel) World.printed c.printed

/-- A program that keeps its kinds comes to no end but these, and to no two of them. -/
theorem Program.KeepsKinds.settles {p : Program} {E : Env} (h : p.KeepsKinds E) :
    Diverges (fun fuel => p.run E fuel) ∨ p.GoesWrong E ∨
      ∃ n l, p.Exits E n l ∧ ∀ n' l', p.Exits E n' l' → n' = n ∧ l' = l := by
  rcases run_settles p E with hd | ⟨r, hr, ⟨fuel, hrun⟩, hone⟩
  · exact .inl hd
  · refine .inr ?_
    have hover (fuel' : Nat) (r' : Outcome Stop World Datum) (h' : p.run E fuel' = r') (hr' : ¬ r'.IsTimeout) :
        r' = r := by
      rcases hone fuel' with ht | he
      · exact absurd (h' ▸ ht) hr'
      · exact h'.symm.trans he
    cases r with
    | done v s =>
        refine .inr ⟨0, s.printed, .inl ⟨fuel, v, s, hrun, rfl, rfl⟩, ?_⟩
        rintro n' l' (⟨fuel', v', s', hrun', rfl, rfl⟩ | ⟨fuel', e', s', hrun', _, _⟩)
        · cases hover _ _ hrun' id
          exact ⟨rfl, rfl⟩
        · cases hover _ _ hrun' id
    | timeout s => exact absurd trivial hr
    | fault e s =>
        rcases h fuel e s hrun with ⟨f, rfl⟩ | ⟨n, rfl⟩
        · exact .inl ⟨fuel, .fault f, s, hrun, f, rfl⟩
        · refine .inr ⟨n, s.printed, .inr ⟨fuel, _, s, hrun, rfl, rfl⟩, ?_⟩
          rintro n' l' (⟨fuel', v', s', hrun', _, _⟩ | ⟨fuel', e', s', hrun', rfl, rfl⟩)
          · cases hover _ _ hrun' id
          · cases hover _ _ hrun' id
            exact ⟨rfl, rfl⟩

variable {M : Llvm} {σ : Signature} {gf g : CodeGenerator} {E : Env} {fuel : Nat} {p : Program} {s : World}
  {c : Config} {v : Datum} {o : Effect} {cs : List (Nat × Activation)}

/-! ## The finished module -/

/-- The last `ret` of `main` leaves the scopes alone. -/
theorem within_finished (hgf : g.returnUnlessTerminated (.const (.int 0)) = gf) :
    gf.within g.scopeStack = gf := by
  rw [← CodeGenerator.returnUnlessTerminated_scopeStack (.const (.int 0)) g, hgf]
  rfl

theorem finished_of_sorted {g0 : CodeGenerator} (hr : gf.Ready) (hown : gf.UsesOwnSlots)
    (h : Sorted M σ gf g0 gf) : Finished gf := by
  refine ⟨hr.toPlaced, fun f a hu => ?_, h.library⟩
  obtain ⟨b, hb, hf, ha⟩ := hown f a hu
  rw [hr.allocas b hb a ha, hf]

/-- In `main` there is nobody to return to. -/
theorem StopsAt.main (h : StopsAt gf E [] (.returned v) s c) :
    ∃ n, v = .int n ∧ Shows s c ∧ step gf E c = .inr (.returned (.int n)) := by
  obtain ⟨n, c', rfl, hstep, hshow, _, hcallers⟩ := h
  rw [returnValue, hcallers] at hstep
  exact ⟨n, rfl, hshow, hstep⟩

theorem StopsAt.shows {e : Stop} (h : StopsAt gf E cs e s c) : Shows s c := by
  cases e with
  | fault e => exact h
  | kind => exact h.elim
  | returned v =>
      obtain ⟨_, _, _, _, hshow, _⟩ := h
      exact hshow

/-- Over a program the kinds are kept apart. -/
theorem program_sorted {vars : Name → Kind} (hs : M.Sound) (hn : M.Numbers)
    (hk : KindedStmts ⟨vars, p.function⟩ p.stmts .nothing o)
    (hv : CodeGenerator.visitProgram M .source p = .ok gf) :
    ∃ g, visitStmts M .source p.stmts (.enterMain M) = .ok g ∧ g.returnUnlessTerminated (.const (.int 0)) = gf ∧
      Grown (.enterMain M) g ∧ Part g (gf.within g.scopeStack) ∧
      Sorted M ⟨vars, p.function⟩ gf (.enterMain M) g := by
  obtain ⟨g, h1, h2⟩ := bind_ok_iff.mp hv
  injection h2 with h2
  have hready := CodeGenerator.enterMain_ready (M := M)
  have hg := (CodeGenerator.visitStmts_grows p.stmts hready).of_ok h1
  have hgf : Grown g gf := h2 ▸ CodeGenerator.returnUnlessTerminated_grown hg.ready _
  have hp : Part g (gf.within g.scopeStack) := (within_finished h2).symm ▸ hgf.frame.part
  obtain ⟨hsorted, _⟩ := visitStmts_sorted hs hn p.stmts hk _ _ g _ hready enterMain_sorted .nothing h1 hp
  exact ⟨g, h1, h2, hg, hp, hsorted⟩

/-- **Programs.** For every bound the machine does what the program does. -/
theorem program_realized {vars : Name → Kind} (hs : M.Sound) (hn : M.Numbers) (hops : E.ops = .generated)
    (hk : KindedStmts ⟨vars, p.function⟩ p.stmts .nothing o)
    (hv : CodeGenerator.visitProgram M .source p = .ok gf) (hown : gf.UsesOwnSlots) (fuel : Nat) :
    Realizes (step gf E) (StopsAt gf E []) Shows fuel gf.start (p.run E fuel)
      (fun _ s c => Shows s c ∧ step gf E c = .inr (.returned (.int 0))) := by
  obtain ⟨g, h1, h2, hg, hp, hsorted⟩ := program_sorted hs hn hk hv
  have hready := CodeGenerator.enterMain_ready (M := M)
  have hgf : Grown g gf := h2 ▸ CodeGenerator.returnUnlessTerminated_grown hg.ready _
  have hpart : Part (g.returnUnlessTerminated (.const (.int 0))) (gf.within g.scopeStack) := by
    rw [within_finished h2, h2]
    exact (Frame.refl gf).part
  have hmain := hg.part hp
  have hfinished : Finished gf := by
    have hend := hsorted.returnUnlessTerminated (v := .const (.int 0)) hg.ready
    rw [h2] at hend
    exact finished_of_sorted hgf.ready hown hend
  -- `main` is entered without arguments
  have hentry : gf.entryBlock 0 = some 0 :=
    CodeGenerator.entryBlock_of_parents (g := CodeGenerator.enterMain M) rfl hmain.count hmain.parent
  have hstart : gf.start.top = ⟨(gf.blocks (CodeGenerator.enterMain M).insertBlock).instrs,
      ([] : List Number).map .int, fun _ => none, fun _ => none⟩ := by
    rw [CodeGenerator.start, hentry]
    rfl
  obtain ⟨c, hstar, hentering⟩ := entered (M := M) (σ := ⟨vars, p.function⟩) (E := E) (f := 0) (s := .init)
    hfinished hready hmain rfl (fun x a hx => by cases hx) hstart ⟨rfl, rfl⟩ rfl
  have hhere := hentering.here (b := 0) hready enterMain_sorted hsorted hg hp rfl rfl
  have hset : Setting M ⟨vars, p.function⟩ gf E fuel (calls E (definitions p.function) fuel fuel) fuel :=
    ⟨hs, hn, hfinished, hops, Nat.le_refl _, fuel, Nat.le_succ _,
      serves_calls hs hn hfinished hops (Nat.le_refl _)⟩
  have hrun := visitStmts_perform hset p.stmts hk g [] _ g .init c (.int 0) hhere .nothing h1 hp
  refine Realizes.of_star hstar (Realizes.weaken hrun (fun v s1 c1 hend => ?_))
  obtain ⟨ha, _⟩ := hend
  have hret : g.returnUnlessTerminated (.const (.int 0)) = g.createRet (.const (.int 0)) := by
    rw [CodeGenerator.returnUnlessTerminated, ha.unterminated]
    rfl
  rw [hret] at hpart
  obtain ⟨n, hz, hshow, hstep⟩ := (ret_stops (E := E) (n := 0) hg.ready ha.arrives hpart rfl ha.memory.toShows
    ha.memory.callers).main
  cases hz
  exact ⟨hshow, hstep⟩

/-! ## Whole runs -/

section Runs

variable (h : ∀ fuel, Realizes (step gf E) (StopsAt gf E []) Shows fuel gf.start (p.run E fuel)
  (fun _ s c => Shows s c ∧ step gf E c = .inr (.returned (.int 0))))
include h

theorem exits_of_realized {n : Number} {l : List Number} (hx : p.Exits E n l) :
    ∃ c, Ends (step gf E) gf.start c (.returned (.int n)) ∧ c.printed = l := by
  rcases hx with ⟨fuel, v, s, hrun, rfl, rfl⟩ | ⟨fuel, e, s, hrun, rfl, rfl⟩
  · have hk := h fuel
    rw [show p.run E fuel = _ from hrun] at hk
    obtain ⟨c, hstar, hshow, hstep⟩ := hk
    exact ⟨c, ⟨hstar, hstep⟩, hshow.printed⟩
  · have hk := h fuel
    rw [show p.run E fuel = _ from hrun] at hk
    obtain ⟨c, hstar, hstop⟩ := hk
    obtain ⟨m, hm, hshow, hstep⟩ := hstop.main
    cases hm
    exact ⟨c, ⟨hstar, hstep⟩, hshow.printed⟩

/-- What the program prints, the machine prints, also on the way to a fault. -/
theorem prints_of_realized {l : List Number} (hl : Logs (fun fuel => p.run E fuel) World.printed l) :
    ∃ n c, StepsN (step gf E) n gf.start c ∧ l <+: c.printed := by
  obtain ⟨fuel, hl⟩ := hl
  have hk := h fuel
  cases hrun : p.run E fuel with
  | done v s =>
      simp only [hrun] at hk hl
      obtain ⟨c, ⟨n, hsteps⟩, hshow, _⟩ := hk
      exact ⟨n, c, hsteps, hshow.printed.symm ▸ hl⟩
  | fault e s =>
      simp only [hrun] at hk hl
      obtain ⟨c, ⟨n, hsteps⟩, hstop⟩ := hk
      exact ⟨n, c, hsteps, hstop.shows.printed.symm ▸ hl⟩
  | timeout s =>
      simp only [hrun] at hk hl
      obtain ⟨n, c, _, hsteps, hshow⟩ := hk
      exact ⟨n, c, hsteps, hshow.printed.symm ▸ hl⟩

/-- Without faults every stop is a `ret` of `main`. -/
theorem realized_safe (hsafe : ¬ p.GoesWrong E) (fuel : Nat) :
    Realizes (step gf E)
      (fun e s c => ∃ n, e = .returned (.int n) ∧ Shows s c ∧ step gf E c = .inr (.returned (.int n))) Shows
      fuel gf.start (p.run E fuel) (fun _ s c => Shows s c ∧ step gf E c = .inr (.returned (.int 0))) := by
  have hk := h fuel
  cases hrun : p.run E fuel with
  | done v s =>
      rw [hrun] at hk
      exact hk
  | fault e s =>
      rw [hrun] at hk
      obtain ⟨c, hstar, hstop⟩ := hk
      cases e with
      | fault f => exact absurd ⟨fuel, .fault f, s, hrun, f, rfl⟩ hsafe
      | kind => exact hstop.elim
      | returned v =>
          obtain ⟨n, rfl, hshow, hstep⟩ := hstop.main
          exact ⟨c, hstar, n, rfl, hshow, hstep⟩
  | timeout s =>
      rw [hrun] at hk
      exact hk

theorem keepsKinds_of_realized : p.KeepsKinds E := by
  intro fuel e s hrun
  have hk := h fuel
  rw [hrun] at hk
  obtain ⟨c, _, hstop⟩ := hk
  cases e with
  | fault f => exact .inl ⟨f, rfl⟩
  | kind => exact hstop.elim
  | returned v =>
      obtain ⟨n, rfl, _, _⟩ := hstop.main
      exact .inr ⟨n, rfl⟩

/-- **One behavior.** -/
theorem implements_of_realized : Implements p E gf E := by
  have hQ : ∀ (a : Datum) s c, Shows s c ∧ step gf E c = .inr (.returned (.int 0)) →
      ∃ r, step gf E c = .inr r :=
    fun _ _ _ hq => ⟨_, hq.2⟩
  have hF : ∀ (e : Stop) s c, (∃ n, e = .returned (.int n) ∧ Shows s c ∧
      step gf E c = .inr (.returned (.int n))) → ∃ r, step gf E c = .inr r := fun e s c hf => by
    obtain ⟨n, _, _, hstep⟩ := hf
    exact ⟨_, hstep⟩
  have hkinds := keepsKinds_of_realized h
  refine ⟨hkinds, hkinds.settles, fun n l => exits_of_realized h, realizes_forever h,
    fun l => prints_of_realized h, fun hsafe c r hends => ?_,
    fun hsafe => realizes_of_forever (realized_safe h hsafe) hQ hF, fun hsafe n c hsteps => ?_⟩
  · obtain ⟨fuel, ⟨v, s, hrun, hshow, hstep⟩ | ⟨e, s, hrun, n, rfl, hshow, hstep⟩⟩ :=
      realizes_of_ends (realized_safe h hsafe) hQ hF hends
    · rw [hends.2] at hstep
      injection hstep with hr
      exact ⟨0, hr, .inl ⟨fuel, v, s, hrun, rfl, hshow.printed.symm⟩⟩
    · rw [hends.2] at hstep
      injection hstep with hr
      exact ⟨n, hr, .inr ⟨fuel, _, s, hrun, rfl, hshow.printed.symm⟩⟩
  · have hlogs : Logs (fun fuel => p.run E fuel) World.printed c.printed ↔
        ∃ n d, StepsN (step gf E) n gf.start d ∧ c.printed <+: d.printed := by
      refine realizes_log (realized_safe h hsafe) hQ hF step_printed (fun a s c hq => hq.1.printed)
        (fun e s c hf => ?_) (fun s c hshow => hshow.printed) c.printed
      obtain ⟨_, _, hshow, _⟩ := hf
      exact hshow.printed
    exact hlogs.mpr ⟨n, c, hsteps, List.prefix_refl _⟩

end Runs

/-! ## Operators with fewer values -/

section Below

variable {I J : Interpretation} {input : Nat → Number}

/-- A run that has not come to an operator without a value is the same with more values. -/
theorem run_unchanged (hb : I.Below J) (hrun : ∀ f s, p.run ⟨I, input⟩ fuel ≠ .fault (.fault f) s) :
    p.run ⟨J, input⟩ fuel = p.run ⟨I, input⟩ fuel := by
  refine (run_below hb input p fuel).same.resolve_left (fun hstop => ?_)
  cases hr : p.run ⟨I, input⟩ fuel with
  | done v s => rw [hr] at hstop; exact hstop
  | timeout s =>
      rw [hr] at hstop
      obtain ⟨f, hf⟩ := hstop
      cases hf
  | fault e s =>
      rw [hr] at hstop
      obtain ⟨f, hf⟩ := hstop
      cases hf
      exact hrun f s hr

theorem Program.Exits.below (hb : I.Below J) {n : Number} {l : List Number} (h : p.Exits ⟨I, input⟩ n l) :
    p.Exits ⟨J, input⟩ n l := by
  rcases h with ⟨fuel, v, s, hrun, hend⟩ | ⟨fuel, e, s, hrun, rfl, rfl⟩
  · have hrun' : p.run ⟨I, input⟩ fuel = .done v s := hrun
    refine .inl ⟨fuel, v, s, (run_unchanged hb (fun f s' hf => ?_)).trans hrun', hend⟩
    cases hrun'.symm.trans hf
  · have hrun' : p.run ⟨I, input⟩ fuel = .fault (.returned (.int n)) s := hrun
    refine .inr ⟨fuel, _, s, (run_unchanged hb (fun f s' hf => ?_)).trans hrun', rfl, rfl⟩
    cases hrun'.symm.trans hf

theorem Program.KeepsKinds.below (hb : I.Below J) (h : p.KeepsKinds ⟨J, input⟩) : p.KeepsKinds ⟨I, input⟩ := by
  intro fuel e s hrun
  cases e with
  | fault f => exact .inl ⟨f, rfl⟩
  | kind | returned =>
      refine h fuel _ s ((run_unchanged hb (fun f s' hf => ?_)).trans hrun)
      cases hrun.symm.trans hf

/-- **What is implemented for a meaning of the operators is implemented for every meaning below it.** -/
theorem Implements.below {E' : Env} (h : Implements p ⟨J, input⟩ gf E') (hb : I.Below J) :
    Implements p ⟨I, input⟩ gf E' := by
  -- unless the program goes wrong nothing has changed
  have hsame (hsafe : ¬ p.GoesWrong ⟨I, input⟩) (fuel : Nat) : p.run ⟨J, input⟩ fuel = p.run ⟨I, input⟩ fuel :=
    run_unchanged hb (fun f s hf => hsafe ⟨fuel, _, s, hf, f, rfl⟩)
  have hwrong (hsafe : ¬ p.GoesWrong ⟨I, input⟩) : ¬ p.GoesWrong ⟨J, input⟩ := by
    rintro ⟨fuel, e, s, hrun, hf⟩
    exact hsafe ⟨fuel, e, s, (hsame hsafe fuel).symm.trans hrun, hf⟩
  have hkinds := h.kinds.below hb
  refine ⟨hkinds, hkinds.settles, fun n l hx => h.exits n l (hx.below hb),
    fun hd => h.diverges (fun fuel => ?_), ?_, fun hsafe c r hends => ?_, fun hsafe hf fuel => ?_,
    fun hsafe n c hsteps => ?_⟩
  · have ht : (p.run ⟨I, input⟩ fuel).IsTimeout := hd fuel
    show (p.run ⟨J, input⟩ fuel).IsTimeout
    rwa [run_unchanged hb (fun f s hf => by rw [hf] at ht; exact ht)]
  · rintro l ⟨fuel, hl⟩
    exact h.prints l ⟨fuel, hl.trans (run_below hb input p fuel).logs⟩
  · obtain ⟨n, rfl, hx⟩ := h.returns (hwrong hsafe) c r hends
    refine ⟨n, rfl, ?_⟩
    rcases hx with ⟨fuel, v, s, hrun, hend⟩ | ⟨fuel, e, s, hrun, hend⟩
    · exact .inl ⟨fuel, v, s, (hsame hsafe fuel).symm.trans hrun, hend⟩
    · exact .inr ⟨fuel, e, s, (hsame hsafe fuel).symm.trans hrun, hend⟩
  · have ht : (p.run ⟨J, input⟩ fuel).IsTimeout := h.runsOn (hwrong hsafe) hf fuel
    rw [hsame hsafe fuel] at ht
    exact ht
  · obtain ⟨fuel, hl⟩ := h.shows (hwrong hsafe) n c hsteps
    have hl' : c.printed <+: (p.run ⟨J, input⟩ fuel).state.printed := hl
    rw [hsame hsafe fuel] at hl'
    exact ⟨fuel, hl'⟩

end Below

/-- What the two modes agree on: the operators of C++, without the `>=` that the generator makes a sum of. -/
def commonBinary (op : BinaryOperators) (a b : Number) : Option Number :=
  if op = .greaterEq then none else cppBinary op a b

def Interpretation.common : Interpretation := ⟨commonBinary, cppUnary⟩

theorem Interpretation.common_below : Interpretation.common.Below .generated := by
  refine ⟨fun op a b n h => ?_, fun op a n h => generatedUnary_of_cpp h⟩
  have hcommon : commonBinary op a b = some n := h
  unfold commonBinary at hcommon
  split at hcommon
  · cases hcommon
  · next hop => exact generatedBinary_of_cpp hop hcommon

/-- **The module of a program** does what the program does, with the operators as the module has them. -/
theorem module_implements (hp : Accepted p) (hk : p.WellKinded) (hfresh : ParamsFresh p.events)
    (hown : OwnEvents p.events) (hs : M.Sound) (hn : M.Numbers) :
    ∃ gf, CodeGenerator.visitProgram M .source p = .ok gf ∧
      ∀ input, Implements p ⟨.generated, input⟩ gf ⟨.generated, input⟩ := by
  obtain ⟨gf, hv⟩ := (visitProgram_ok_iff (M := M) (L := .source) hp).mpr hfresh
  obtain ⟨vars, o, hk⟩ := hk
  have huses : gf.UsesOwnSlots := by
    have hrun := (CodeGenerator.visitProgram_ownRun (M := M) p).mpr ((ownEvents_iff hp).mpr hown)
    rwa [hv] at hrun
  exact ⟨gf, hv, fun input => implements_of_realized (program_realized hs hn rfl hk hv huses)⟩

section Correctness

/-- **Programs with functions are compiled correctly.** An accepted program that is well kinded, whose parameters
    are new, whose functions use no slot of another one and in which no instruction follows a terminator is
    compiled, and every block of the module ends with its only terminator. Whatever part of the meaning that the
    module gives the operators a program relies on, the module does what the program does: the same prints, the
    same exit value, and it runs on exactly if the program does. -/
theorem programs_compiled {p : Program} {I : Interpretation} (hp : Accepted p) (hk : p.WellKinded)
    (hfresh : ParamsFresh p.events) (hown : OwnEvents p.events) (hstraight : p.StraightLine M .source)
    (hs : M.Sound) (hn : M.Numbers) (hb : I.Below .generated) (input : Nat → Number) :
    ∃ gf, CodeGenerator.visitProgram M .source p = .ok gf ∧
      (∀ b < gf.blockCount, (gf.blocks b).WellTerminated) ∧
      Implements p ⟨I, input⟩ gf ⟨.generated, input⟩ := by
  obtain ⟨gf, hv, himpl⟩ := module_implements hp hk hfresh hown hs hn
  have hblocks := (CodeGenerator.visitProgram_wellTerminated p hv).mpr hstraight
  exact ⟨gf, hv, hblocks, (himpl input).below hb⟩

def factorialBody : Expression :=
  .blockExpr [
    .ifStmt (.binaryOperator .lessEq (.var "n") (.number 1)) (.blockExpr [.returnStmt (some (.number 1))]) none,
    .exprStmt (.assignmentExpr "res" (.binaryOperator .mul (.var "n")
      (.call (.var "factorial") [.binaryOperator .sub (.var "n") (.number 1)]))),
    .exprStmt (.var "res")]

/-- The program of the test `func_recursive_factorial`. -/
def recursiveFactorial : Program where
  stmts := [
    .exprStmt (.assignmentExpr "fact" (.func (some "factorial") ["n"] factorialBody)),
    .exprStmt (.assignmentExpr "result" (.call (.var "fact") [.number 5])),
    .printStmt (.var "result")]

example : (recursiveFactorial.run ⟨.common, fun _ => 0⟩ 8).state.printed = [120] := by decide

/-- `fact` holds a function with one parameter, all the others are integers. -/
theorem recursiveFactorial_wellKinded : recursiveFactorial.WellKinded := by
  let σ : Signature := ⟨fun x => if x = "fact" then .function 1 else .number, recursiveFactorial.function⟩
  have hn : σ.Variable "n" := ⟨by decide, by decide, not_anonymous (by decide)⟩
  have hres : σ.Variable "res" := ⟨by decide, by decide, not_anonymous (by decide)⟩
  have hresult : σ.Variable "result" := ⟨by decide, by decide, not_anonymous (by decide)⟩
  have hfact : σ.Variable "fact" := ⟨by decide, by decide, not_anonymous (by decide)⟩
  have hfactorial : σ.Names "factorial" ["n"] factorialBody :=
    ⟨rfl, by decide, not_anonymous (by decide), by decide, by decide⟩
  have kn : Kinded σ (.var "n") (.value .number) := .variable hn rfl
  -- the body comes to the product, the `return` in it never to an end
  have kreturn : Kinded σ (.blockExpr [.returnStmt (some (.number 1))]) .never :=
    .block (.cons (.returnSome .number) .nil)
  have kcall : Kinded σ (.call (.var "factorial") [.binaryOperator .sub (.var "n") (.number 1)])
      (.value .number) :=
    .call (.name hfactorial) (.cons (.binary kn .number) .nil)
  have kbody : Kinded σ factorialBody (.value .number) :=
    .block (.cons (.ifThen (.binary kn .number) kreturn) (.cons (.expr (.assign hres rfl (.binary kn kcall)))
      (.cons (.expr (.variable hres rfl)) .nil)))
  refine ⟨σ.vars, _, .cons (.expr (.assign hfact rfl (.func ?_ ?_ kbody (.inl rfl))))
    (.cons (.expr (.assign hresult rfl (.call (.variable hfact rfl) (.cons .number .nil))))
      (.cons (.print (.variable hresult rfl)) .nil))⟩
  · intro x hx
    cases List.mem_singleton.mp hx
    exact ⟨hn, rfl⟩
  · intro f hf
    cases hf
    exact hfactorial

/-- The `return` is the last instruction of its block. -/
theorem recursiveFactorial_straightLine : recursiveFactorial.StraightLine .standard .source := by decide +kernel

/-- A function that calls itself under its own name and is called under the name of a variable. -/
theorem programs_compiled_recursiveFactorial :
    ∃ gf, CodeGenerator.visitProgram .standard .source recursiveFactorial = .ok gf ∧
      (∀ b < gf.blockCount, (gf.blocks b).WellTerminated) ∧
      Implements recursiveFactorial ⟨.common, fun _ => 0⟩ gf ⟨.generated, fun _ => 0⟩ := by
  have hp : Accepted recursiveFactorial := by decide
  refine programs_compiled hp recursiveFactorial_wellKinded ?_ ?_ recursiveFactorial_straightLine
    Llvm.standard_sound Llvm.standard_numbers Interpretation.common_below _
  · exact (run_ok_iff (program_resolved hp)).mp ⟨_, rfl⟩
  · exact (ownEvents_iff hp).mp (by decide)

end Correctness

end ParaCL
