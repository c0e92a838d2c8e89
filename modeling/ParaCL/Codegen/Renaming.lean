import ParaCL.Codegen.Capture
import ParaCL.Codegen.Exec
import ParaCL.Parser.Renaming

/-!
# `Codegen.Renaming` — compilation under other names

As long as every use finds the same under both names, the generator goes through a program and through the
renamed one in lockstep (`visit_renamed`), and the two modules, which then differ only in the names of their
functions, run alike. The names of the generator break this where a use resolves differently.
-/

namespace ParaCL

open Lib CodeGenerator

/-! ## Functions of the module -/

section Functions

variable {τ : Name → Name} {B C : Bindings} {g g' : CodeGenerator} {M : Llvm} {s x : Name} {H : Held}
  {fs fs' : List IrFunction}

theorem numbered_ne (name : String) (n : Nat) : name ++ "." ++ toString n ≠ "printf" ∧
    name ++ "." ++ toString n ≠ "scanf" := by
  have hdot : '.' ∈ (name ++ "." ++ toString n).toList := by simp
  constructor
  · intro h
    rw [h] at hdot
    revert hdot
    decide
  · intro h
    rw [h] at hdot
    revert hdot
    decide

theorem anonymous_ne (n : Nat) : "func_" ++ toString n ≠ "printf" ∧ "func_" ++ toString n ≠ "scanf" := by
  have hhead : (("func_" ++ toString n).toList).head? = some 'f' := by simp
  constructor
  · intro h
    rw [h] at hhead
    revert hhead
    decide
  · intro h
    rw [h] at hhead
    revert hhead
    decide

/-- Each module gets one more function. -/
theorem Held.Agrees.snoc {f f' : IrFunction} {p q : Bool} (h : H.Agrees s fs fs')
    (hlen : fs'.length = fs.length) (hf : H = .missing → (f.name = s ↔ p = true)) (hf' : H = .missing → (f'.name = s ↔ q = true)) :
    (H.next p q).Agrees s (fs ++ [f]) (fs' ++ [f']) := by
  cases H with
  | taken => trivial
  | shared =>
      obtain ⟨k, hk, hk'⟩ := h
      exact ⟨k, by rw [List.findIdx?_append, hk]; rfl, by rw [List.findIdx?_append, hk']; rfl⟩
  | missing =>
      obtain ⟨hno, hno'⟩ := h
      have hf := hf rfl
      have hf' := hf' rfl
      cases p with
      | true =>
          cases q with
          | false => trivial
          | true =>
              have hfs : fs.findIdx? (fun f => f.name = s) = none := by simpa using hno
              have hfs' : fs'.findIdx? (fun f => f.name = s) = none := by simpa using hno'
              refine ⟨fs.length, ?_, ?_⟩
              · simp [List.findIdx?_append, hfs, hf.mpr rfl]
              · simp [List.findIdx?_append, hfs', hf'.mpr rfl, hlen]
      | false =>
          cases q with
          | true => trivial
          | false =>
              refine ⟨fun d hd => ?_, fun d hd => ?_⟩
              · rcases List.mem_append.mp hd with hd | hd
                · exact hno d hd
                · rw [List.mem_singleton.mp hd]
                  exact fun he => Bool.false_ne_true (hf.mp he)
              · rcases List.mem_append.mp hd with hd | hd
                · exact hno' d hd
                · rw [List.mem_singleton.mp hd]
                  exact fun he => Bool.false_ne_true (hf'.mp he)

/-- A library function is found at the same place, or declared at the same place. -/
theorem getFunc_agrees (hH : H.Agrees s g.functions g'.functions) (hne : H ≠ .taken)
    (hlen : g'.functions.length = g.functions.length) :
    (H = .shared ∧ ∃ k, g.getFunc s = (k, g) ∧ g'.getFunc s = (k, g')) ∨
      (H = .missing ∧ g.getFunc s = (g.functions.length, { g with functions := g.functions ++ [⟨s, 1⟩] }) ∧
        g'.getFunc s = (g.functions.length, { g' with functions := g'.functions ++ [⟨s, 1⟩] })) := by
  cases H with
  | taken => exact absurd rfl hne
  | shared =>
      obtain ⟨k, hk, hk'⟩ := hH
      refine .inl ⟨rfl, k, ?_, ?_⟩
      · rw [getFunc, hk]
      · rw [getFunc, hk']
  | missing =>
      obtain ⟨hno, hno'⟩ := hH
      have hfs : g.functions.findIdx? (fun f => f.name = s) = none := by simpa using hno
      have hfs' : g'.functions.findIdx? (fun f => f.name = s) = none := by simpa using hno'
      refine .inr ⟨rfl, ?_, ?_⟩
      · rw [getFunc, hfs]
      · rw [getFunc, hfs', hlen]

theorem counts_snoc {f f' : IrFunction} (hc : fs'.map IrFunction.paramCount = fs.map IrFunction.paramCount)
    (hf : f'.paramCount = f.paramCount) :
    (fs' ++ [f']).map IrFunction.paramCount = (fs ++ [f]).map IrFunction.paramCount := by
  rw [List.map_append, List.map_append, hc, List.map_singleton, List.map_singleton, hf]

theorem Renamed.getFunc (h : Renamed τ B g g') (s : String) (hH : H.Agrees s g.functions g'.functions)
    (hne : H ≠ .taken) (hshared : H = .shared → B.extend s s = B) :
    ∃ k g1 g1', g.getFunc s = (k, g1) ∧ g'.getFunc s = (k, g1') ∧ Renamed τ (B.extend s s) g1 g1' := by
  have hlen := h.length
  rcases getFunc_agrees hH hne hlen with ⟨hs, k, hk, hk'⟩ | ⟨_, hk, hk'⟩
  · exact ⟨k, g, g', hk, hk', (hshared hs).symm ▸ h⟩
  · refine ⟨_, _, _, hk, hk', ?_⟩
    obtain ⟨N, rfl⟩ := h.same
    refine ⟨⟨⟨N.functions ++ [⟨s, 1⟩], N.scopeStack, N.functionTable⟩, rfl⟩, h.scopes, h.pairs,
      counts_snoc h.counts rfl, fun i hnone => ?_, h.table, h.counter, h.printf.snoc hlen ?_ ?_,
      h.scanf.snoc hlen ?_ ?_⟩
    · have hold : (g.withTables N).functions[i]? = g.functions[i]? := h.declarations i hnone
      show ((g.withTables N).functions ++ [⟨s, 1⟩])[i]? = (g.functions ++ [⟨s, 1⟩])[i]?
      rw [List.getElem?_append, List.getElem?_append, hlen, hold]
    all_goals exact fun _ => decide_eq_true_iff.symm

theorem extend_printf (h : B.printf = .shared) : B.extend "printf" "printf" = B := by
  obtain ⟨scopes, anonymous, overwritten, printf, scanf⟩ := B
  obtain rfl : printf = .shared := h
  exact congrArg (Bindings.mk scopes anonymous overwritten .shared) scanf.next_false

theorem extend_scanf (h : B.scanf = .shared) : B.extend "scanf" "scanf" = B := by
  obtain ⟨scopes, anonymous, overwritten, printf, scanf⟩ := B
  obtain rfl : scanf = .shared := h
  exact congrArg (fun p => Bindings.mk scopes anonymous overwritten p .shared) printf.next_false

theorem extend_other (h : x ≠ "printf" ∧ x ≠ "scanf") : B.extend x x = B := by
  simp [Bindings.extend, h.1, h.2]

theorem print_renamed (h : Renamed τ B g g') (hp : B.printf ≠ .taken) :
    Renamed τ (B.extend "printf" "printf") g.print g'.print := by
  obtain ⟨k, g1, g1', hk, hk', hg⟩ := h.getFunc "printf" h.printf hp extend_printf
  unfold CodeGenerator.print
  rw [hk, hk', h.lastValue]
  exact hg.nameless (nameless_createCall _ _ _)

theorem visitInput_renamed (h : Renamed τ B g g') (hi : B.Resolves .input) :
    Coupled g.visitInput g'.visitInput (Renamed τ (B.step .input)) := by
  obtain ⟨hu, hs⟩ := hi
  have hslot := h.slotFor (k := none) (same_input hu) (fun u hu => by cases hu) .i32
  unfold visitInput
  refine hslot.bind (fun r r' hr => ?_)
  obtain ⟨a, g1⟩ := r
  obtain ⟨a', g1'⟩ := r'
  obtain ⟨ha, hg⟩ := hr
  have ha : a' = a := ha
  subst ha
  have hscanf : (B.bind none).scanf = B.scanf := by
    unfold Bindings.bind
    split
    · rfl
    · split <;> rfl
  obtain ⟨k, g2, g2', hk, hk', hg2⟩ := hg.getFunc "scanf" hg.scanf (hscanf ▸ hs) extend_scanf
  dsimp only at hk hk' ⊢
  rw [hk, hk']
  exact Coupled.ok ((hg2.nameless (nameless_createCall _ _ _)).nameless (nameless_createLoad _))

/-! ### Calls -/

theorem call_renamed (h : Renamed τ B g g') (callee : Value) (args : List Value) :
    Renamed τ B (g.call callee args) (g'.call callee args) := by
  unfold CodeGenerator.call
  cases callee with
  | const c =>
      cases c with
      | func f =>
          dsimp only
          rw [h.paramCount]
          exact h.nameless (nameless_createCall _ _ _)
      | int | bit | poison | str => exact h.nameless (nameless_createCall _ _ _)
  | inst | arg | slot | unset => exact h.nameless (nameless_createCall _ _ _)

/-! ### Function literals -/

/-- The name under which the module has a function is a library name only if the function's own name is, and
    no function has it yet. -/
theorem createdName_iff (hM : M.Numbers) (hs : s = "printf" ∨ s = "scanf") (h : ∀ f ∈ fs, f.name ≠ s) :
    (if x ∈ fs.map IrFunction.name then M.uniqueName (fs.map IrFunction.name) x else x) = s ↔ x = s := by
  by_cases hx : x ∈ fs.map IrFunction.name
  · rw [if_pos hx]
    obtain ⟨f, hf, rfl⟩ := List.mem_map.mp hx
    obtain ⟨n, hn⟩ := hM (fs.map IrFunction.name) f.name
    have hne := numbered_ne f.name n
    rw [hn]
    refine ⟨fun he => ?_, fun he => absurd he (h f hf)⟩
    rcases hs with rfl | rfl
    · exact absurd he hne.1
    · exact absurd he hne.2
  · rw [if_neg hx]

/-- A function that has no block has been declared before, and was not entered just now. -/
theorem openFunction_entryBlock {n f : Nat} (h : (g.openFunction M (some x) n).entryBlock f = none) :
    f ≠ g.functions.length ∧ g.entryBlock f = none := by
  rw [entryBlock_eq_none] at h
  have hblocks : (g.openFunction M (some x) n).blocks =
      Function.update g.blocks g.blockCount ⟨g.functions.length, [], []⟩ := rfl
  have hcount : (g.openFunction M (some x) n).blockCount = g.blockCount + 1 := rfl
  rw [hblocks, hcount] at h
  constructor
  · have hnew := h g.blockCount (Nat.lt_succ_self _)
    rw [Function.update_self] at hnew
    exact hnew.symm
  · refine entryBlock_eq_none.mpr (fun b hb => ?_)
    have hold := h b (Nat.lt_succ_of_lt hb)
    rwa [Function.update_of_ne (Nat.ne_of_lt hb)] at hold

/-- The two programs enter functions that are called `x` and `x'`. -/
theorem Renamed.openNamed {x' : Name} {r : Name × Name → Bool} (hM : M.Numbers)
    (h : Renamed τ B g g') (n : Nat) (htable : ∀ y, r (y, τ y) = false →
      Function.update g'.functionTable x' (some g.functions.length) (τ y) =
        Function.update g.functionTable x (some g.functions.length) y) :
    Renamed τ { B.extend x x' with scopes := [] :: B.scopes, overwritten := r }
      (g.openFunction M (some x) n) (g'.openFunction M (some x') n) := by
  have hlen := h.length
  obtain ⟨N, rfl⟩ := h.same
  obtain ⟨T, hT, hs, hs'⟩ := h.scopes
  have hsame : (g.withTables N).openFunction M (some x') n = (g.openFunction M (some x) n).withTables
      ⟨((g.withTables N).openFunction M (some x') n).functions, [] :: N.scopeStack,
        Function.update N.functionTable x' (some g.functions.length)⟩ := by
    have hlen : N.functions.length = g.functions.length := hlen
    dsimp only [openFunction, functionName, createFunction, withTables, createBlock, setInsertPoint,
      pushScope]
    rw [hlen]
  refine ⟨⟨_, hsame⟩, ⟨[] :: T, ?_, ?_, ?_⟩, fun u hu => ?_, counts_snoc h.counts rfl, fun f hnone => ?_,
    fun y hy => ?_, h.counter, h.printf.snoc hlen ?_ ?_, h.scanf.snoc hlen ?_ ?_⟩
  · exact congrArg (List.cons []) hT
  · exact congrArg (List.cons []) hs
  · exact congrArg (List.cons []) hs'
  · exact h.pairs u (Layers.visible_open.mp hu)
  · obtain ⟨hf, hold⟩ := openFunction_entryBlock hnone
    have hold : (g.withTables N).functions[f]? = g.functions[f]? := h.declarations f hold
    show ((g.withTables N).functions ++ [_])[f]? = (g.functions ++ [_])[f]?
    rw [List.getElem?_append, List.getElem?_append, hlen, hold]
    split
    · rfl
    · rw [List.getElem?_eq_none, List.getElem?_eq_none]
      · simp only [List.length_singleton]; omega
      · simp only [List.length_singleton]; omega
  · rw [hsame]
    exact htable y hy
  · exact fun hm => (createdName_iff hM (.inl rfl) (hm ▸ h.printf).1).trans decide_eq_true_iff.symm
  · exact fun hm => (createdName_iff hM (.inl rfl) (hm ▸ h.printf).2).trans decide_eq_true_iff.symm
  · exact fun hm => (createdName_iff hM (.inr rfl) (hm ▸ h.scanf).1).trans decide_eq_true_iff.symm
  · exact fun hm => (createdName_iff hM (.inr rfl) (hm ▸ h.scanf).2).trans decide_eq_true_iff.symm

/-- The two programs enter functions without a name. -/
theorem Renamed.anonymous (h : Renamed τ B g g') :
    Renamed τ { B with anonymous := B.anonymous + 1 } { g with funcCounter := g.funcCounter + 1 }
      { g' with funcCounter := g'.funcCounter + 1 } := by
  obtain ⟨N, rfl⟩ := h.same
  exact ⟨⟨N, rfl⟩, h.scopes, h.pairs, h.counts, h.declarations, h.table, congrArg (· + 1) h.counter,
    h.printf, h.scanf⟩

theorem Renamed.openFunction (hτ : Function.Injective τ) (hM : M.Numbers) (h : Renamed τ B g g')
    (funcName : Option Name) (n : Nat) :
    Renamed τ (B.enter (funcName.map (fun x => (x, τ x)))) (g.openFunction M funcName n)
      (g'.openFunction M (funcName.map τ) n) := by
  cases funcName with
  | some x =>
      refine h.openNamed hM n (fun y hy => ?_)
      by_cases hyx : y = x
      · subst hyx
        rw [Function.update_self, Function.update_self]
      · have hpair : (y, τ y) ≠ (x, τ x) := fun he => hyx (congrArg Prod.fst he)
        rw [Function.update_of_ne hpair] at hy
        rw [Function.update_of_ne hyx, Function.update_of_ne (hτ.ne hyx)]
        exact h.table y hy
  | none =>
      have hcounter : g'.funcCounter = g.funcCounter := by
        obtain ⟨N, rfl⟩ := h.same; rfl
      have hopen (g : CodeGenerator) : g.openFunction M none n =
          ({ g with funcCounter := g.funcCounter + 1 } : CodeGenerator).openFunction M
            (some ("func_" ++ toString g.funcCounter)) n := rfl
      have henter : B.enter none =
          { Bindings.extend ("func_" ++ toString B.anonymous) ("func_" ++ toString B.anonymous)
              { B with anonymous := B.anonymous + 1 } with
            scopes := [] :: B.scopes
            overwritten := (B.enter none).overwritten } := by
        rw [extend_other (anonymous_ne B.anonymous)]
        rfl
      show Renamed τ (B.enter none) (g.openFunction M none n) (g'.openFunction M none n)
      rw [hopen g, hopen g', hcounter, ← h.counter, henter]
      have hanonymous := h.anonymous
      rw [hcounter, ← h.counter] at hanonymous
      refine hanonymous.openNamed hM n (fun y hy => ?_)
      have hy : (if y = "func_" ++ toString B.anonymous ∨ τ y = "func_" ++ toString B.anonymous then
          decide (y ≠ τ y) else B.overwritten (y, τ y)) = false := hy
      -- a name that is not the function's own still stands for what it stood for
      by_cases hname : y = "func_" ++ toString B.anonymous ∨ τ y = "func_" ++ toString B.anonymous
      · rw [if_pos hname] at hy
        have hyy : y = τ y := by simpa using hy
        have hy' : y = "func_" ++ toString B.anonymous := hname.elim id (fun he => hyy.trans he)
        rw [← hyy, ← hy', Function.update_self, Function.update_self]
      · rw [if_neg hname] at hy
        obtain ⟨hy1, hy2⟩ := not_or.mp hname
        rw [Function.update_of_ne hy1, Function.update_of_ne hy2]
        exact h.table y hy

theorem popScope_renamed (h : Renamed τ B g g') :
    Coupled g.popScope g'.popScope (Renamed τ (B.step .leave)) := by
  obtain ⟨N, rfl⟩ := h.same
  obtain ⟨T, hT, hs, hs'⟩ := h.scopes
  unfold popScope
  rw [hs, hs']
  cases T with
  | nil => exact Coupled.error
  | cons l ls =>
      refine Coupled.ok ⟨⟨⟨N.functions, Tables.mapKeys Entry.newName ls, N.functionTable⟩, rfl⟩,
        ⟨ls, congrArg List.tail hT, rfl, rfl⟩, fun u hu => h.pairs u ?_, h.counts, h.declarations, h.table,
        h.counter, h.printf, h.scanf⟩
      exact Layers.visible_of_tail hu

/-- Back to where the function literal stands. -/
theorem nameless_return (f b : Nat) (v : Value) :
    Nameless (fun g => (({ g with currentFunction := f } : CodeGenerator).setInsertPoint b).setLast v) :=
  ⟨fun _ _ => rfl, fun _ => rfl, fun _ _ h => h⟩

theorem leaveFunction_renamed {saved saved' : CodeGenerator} (hsaved : Renamed τ C saved saved')
    (h : Renamed τ B g g') :
    Coupled (leaveFunction saved g) (leaveFunction saved' g') (Renamed τ (B.step .leave)) := by
  have hpop := popScope_renamed (h.nameless (nameless_returnUnlessTerminated g.lastValue))
  have hlen := hsaved.length
  obtain ⟨N, rfl⟩ := hsaved.same
  unfold leaveFunction
  rw [h.lastValue, hlen]
  have hreturn := nameless_return saved.currentFunction saved.insertBlock
    (.const (.func saved.functions.length))
  refine hpop.bind (fun g1 g1' hg => ?_)
  have hback := hg.nameless hreturn
  exact Coupled.ok hback

end Functions

/-! ## The visitors -/

section Visitors

variable {τ : Name → Name} {B C : Bindings} {g g' : CodeGenerator} {M : Llvm} {L : Lowering}
  {us vs : List (Use Name)}

/-- The uses under both names. -/
def bothNames (τ : Name → Name) (us : List (Use Name)) : List (Use (Name × Name)) :=
  us.map (Use.map (fun x => (x, τ x)))

/-- The uses resolve, one after the other, from `B` to `C`. -/
structure Resolve (τ : Name → Name) (us : List (Use Name)) (B C : Bindings) : Prop where
  resolved : Bindings.Resolved (bothNames τ us) B
  lands : Bindings.after (bothNames τ us) B = C

theorem Resolve.split (h : Resolve τ (us ++ vs) B C) : ∃ D, Resolve τ us B D ∧ Resolve τ vs D C := by
  obtain ⟨hres, hafter⟩ := h
  rw [bothNames, List.map_append] at hres hafter
  obtain ⟨h1, h2⟩ := Bindings.resolved_append.mp hres
  exact ⟨_, ⟨h1, rfl⟩, h2, by rw [← hafter, Bindings.after_append]; rfl⟩

/-- The two computations take states that differ in names only through the uses. -/
def Follow (τ : Name → Name) (us : List (Use Name))
    (r r' : CodeGenerator → Except Thrown CodeGenerator) : Prop :=
  ∀ B C g g', Resolve τ us B C → Renamed τ B g g' → Coupled (r g) (r' g') (Renamed τ C)

theorem bindParams_follow (hτ : Function.Injective τ) (f : Nat) (xs : List Name) (k : Nat) :
    Follow τ (xs.map .bind) (bindParams f xs k) (bindParams f (xs.map τ) k) := by
  induction xs generalizing k with
  | nil =>
      rintro B C g g' ⟨_, rfl⟩ h
      exact Coupled.ok h
  | cons x xs ih =>
      intro B C g g' hres h
      obtain ⟨hx, hrest⟩ := hres.resolved
      have hstore := h.nameless (nameless_storeParam f k)
      have hdecl := hstore.declare (h.same_of_apart hτ hx) (fun u hu => by cases hu; rfl) (g.newSlot .i32)
      have hslot : g'.newSlot .i32 = g.newSlot .i32 := by
        obtain ⟨N, rfl⟩ := h.same; rfl
      rw [List.map_cons, bindParams, bindParams, hslot]
      exact hdecl.bind (fun g1 g1' h1 => ih (k + 1) _ C g1 g1' ⟨hrest, hres.lands⟩ h1)

theorem enterFunction_follow (hτ : Function.Injective τ) (hM : M.Numbers) (f : Option Name)
    (ps : List Name) : Follow τ (.enter f :: ps.map .bind) (enterFunction M f ps) (enterFunction M (f.map τ) (ps.map τ)) := by
  intro B C g g' hres h
  have hopen := h.openFunction hτ hM f ps.length
  unfold enterFunction
  rw [List.length_map, h.length]
  exact bindParams_follow hτ _ ps 0 _ C _ _ ⟨hres.resolved.2, hres.lands⟩ hopen

mutual

/-- **The generator under other names.** -/
theorem visit_renamed (hτ : Function.Injective τ) (hM : M.Numbers) :
    ∀ e : Expression, Follow τ e.uses (visit M L e) (visit M L (e.rename τ))
  | .number n => by
      rintro B C g g' ⟨_, rfl⟩ h
      exact Coupled.ok (h.nameless (nameless_setLast (fun _ => .const (.int n)) (fun _ _ => rfl)))
  | .var x => by
      rintro B C g g' ⟨hres, rfl⟩ h
      exact visitVariable_renamed hτ h hres.1
  | .assignmentExpr x e => by
      intro B C g g' hres h
      obtain ⟨D, he, hx⟩ := hres.split
      obtain ⟨⟨hx, _⟩, rfl⟩ := hx
      exact (visit_renamed hτ hM e B D g g' he h).bind (fun _ _ h1 => assign_renamed hτ h1 hx)
  | .binaryOperator op a b => by
      intro B C g g' hres h
      obtain ⟨D, ha, hb⟩ := hres.split
      refine (visit_renamed hτ hM a B D g g' ha h).bind (fun g1 g1' h1 => ?_)
      refine (visit_renamed hτ hM b D C g1 g1' hb h1).bind (fun g2 g2' h2 => ?_)
      rw [h1.lastValue, h2.lastValue]
      exact Coupled.ok (h2.nameless (nameless_emitLast _))
  | .unaryOperator op e => by
      intro B C g g' hres h
      refine (visit_renamed hτ hM e B C g g' hres h).bind (fun g1 g1' h1 => ?_)
      rw [h1.lastValue]
      exact Coupled.ok (h1.nameless (nameless_emitLast _))
  | .input => by
      rintro B C g g' ⟨hres, rfl⟩ h
      exact visitInput_renamed h hres.1
  | .blockExpr ss => visitStmts_renamed hτ hM ss
  | .func f ps body => by
      intro B C g g' hres h
      have hres : Resolve τ ((.enter f :: ps.map .bind) ++ (body.uses ++ [.leave])) B C := hres
      obtain ⟨D, henter, hres⟩ := hres.split
      obtain ⟨E, hbody, hleave⟩ := hres.split
      obtain ⟨_, rfl⟩ := hleave
      refine (enterFunction_follow hτ hM f ps B D g g' henter h).bind (fun g1 g1' h1 => ?_)
      exact (visit_renamed hτ hM body D E g1 g1' hbody h1).bind (fun _ _ h2 => leaveFunction_renamed h h2)
  | .call t es => by
      intro B C g g' hres h
      obtain ⟨D, ht, hes⟩ := hres.split
      refine (visit_renamed hτ hM t B D g g' ht h).bind (fun g1 g1' h1 => ?_)
      refine (visitArgs_renamed hτ hM es D C g1 g1' hes h1).bind (fun r r' hr => ?_)
      obtain ⟨values, g2⟩ := r
      obtain ⟨values', g2'⟩ := r'
      obtain ⟨hv, h2⟩ := hr
      have hv : values' = values := hv
      subst hv
      dsimp only
      rw [h1.lastValue]
      exact Coupled.ok (call_renamed h2 _ _)

theorem visitStmt_renamed (hτ : Function.Injective τ) (hM : M.Numbers) :
    ∀ s : Statement, Follow τ s.uses (visitStmt M L s) (visitStmt M L (s.rename τ))
  | .emptyStmt => by
      rintro B C g g' ⟨_, rfl⟩ h
      exact Coupled.ok h
  | .exprStmt e => visit_renamed hτ hM e
  | .ifStmt c t none => by
      intro B C g g' hres h
      obtain ⟨D, hc, ht⟩ := hres.split
      refine (visit_renamed hτ hM c B D g g' hc h).bind (fun g1 g1' h1 => ?_)
      refine (visit_renamed hτ hM t D C _ _ ht (h1.nameless nameless_openIf)).bind (fun g2 g2' h2 => ?_)
      rw [h1.blockCount]
      exact Coupled.ok (h2.nameless (nameless_closeBranch _ _))
  | .ifStmt c t (some e) => by
      intro B C g g' hres h
      obtain ⟨D, hc, hres⟩ := hres.split
      obtain ⟨E, ht, he⟩ := hres.split
      refine (visit_renamed hτ hM c B D g g' hc h).bind (fun g1 g1' h1 => ?_)
      refine (visit_renamed hτ hM t D E _ _ ht (h1.nameless nameless_openIfElse)).bind (fun g2 g2' h2 => ?_)
      rw [h1.blockCount]
      have hclose := h2.nameless (nameless_closeBranch (g1.blockCount + 2) (g1.blockCount + 1))
      refine (visit_renamed hτ hM e E C _ _ he hclose).bind (fun g3 g3' h3 => ?_)
      exact Coupled.ok (h3.nameless (nameless_closeBranch _ _))
  | .whileStmt c b => by
      intro B C g g' hres h
      obtain ⟨D, hc, hb⟩ := hres.split
      refine (visit_renamed hτ hM c B D _ _ hc (h.nameless nameless_openLoop)).bind (fun g1 g1' h1 => ?_)
      refine (visit_renamed hτ hM b D C _ _ hb (h1.nameless nameless_openBody)).bind (fun g2 g2' h2 => ?_)
      rw [h1.blockCount, h.blockCount]
      exact Coupled.ok (h2.nameless (nameless_closeLoop _ _))
  | .printStmt e => by
      intro B C g g' hres h
      obtain ⟨D, he, hp⟩ := hres.split
      obtain ⟨⟨hp, _⟩, rfl⟩ := hp
      exact (visit_renamed hτ hM e B D g g' he h).bind (fun _ _ h1 => Coupled.ok (print_renamed h1 hp))
  | .returnStmt none => by
      rintro B C g g' ⟨_, rfl⟩ h
      exact Coupled.ok (h.nameless (nameless_createRet _))
  | .returnStmt (some e) => by
      intro B C g g' hres h
      refine (visit_renamed hτ hM e B C g g' hres h).bind (fun g1 g1' h1 => ?_)
      rw [h1.lastValue]
      exact Coupled.ok (h1.nameless (nameless_createRet _))

theorem visitStmts_renamed (hτ : Function.Injective τ) (hM : M.Numbers) :
    ∀ ss : List Statement, Follow τ (usesOfStmts ss) (visitStmts M L ss) (visitStmts M L (renameStmts τ ss))
  | [] => by
      rintro B C g g' ⟨_, rfl⟩ h
      exact Coupled.ok h
  | s :: ss => by
      intro B C g g' hres h
      obtain ⟨D, hs, hss⟩ := hres.split
      exact (visitStmt_renamed hτ hM s B D g g' hs h).bind (visitStmts_renamed hτ hM ss D C · · hss)

theorem visitArgs_renamed (hτ : Function.Injective τ) (hM : M.Numbers) :
    ∀ (es : List Expression) (B C : Bindings) (g g' : CodeGenerator), Resolve τ (usesOfArgs es) B C →
      Renamed τ B g g' → Coupled (visitArgs M L es g) (visitArgs M L (renameArgs τ es) g')
        (fun r r' => r'.1 = r.1 ∧ Renamed τ C r.2 r'.2)
  | [], B, C, g, g', hres, h => by
      obtain ⟨_, rfl⟩ := hres
      exact Coupled.ok ⟨rfl, h⟩
  | e :: es, B, C, g, g', hres, h => by
      obtain ⟨D, he, hes⟩ := hres.split
      refine (visit_renamed hτ hM e B D g g' he h).bind (fun g1 g1' h1 => ?_)
      refine (visitArgs_renamed hτ hM es D C g1 g1' hes h1).bind (fun r r' hr => ?_)
      obtain ⟨values, g2⟩ := r
      obtain ⟨values', g2'⟩ := r'
      obtain ⟨hv, h2⟩ := hr
      exact Coupled.ok ⟨by rw [h1.lastValue, show values' = values from hv], h2⟩

end

theorem enterMain_renamed : Renamed τ .init (enterMain M) (enterMain M) where
  same := ⟨⟨_, _, _⟩, rfl⟩
  scopes := ⟨[[]], rfl, rfl, rfl⟩
  pairs u hu := by simp [Bindings.init] at hu
  counts := rfl
  declarations _ _ := rfl
  table _ _ := rfl
  counter := rfl
  printf := by
    have hmain : ∀ f ∈ [IrFunction.mk "main" 0], f.name ≠ "printf" := by simp
    exact ⟨hmain, hmain⟩
  scanf := by
    have hmain : ∀ f ∈ [IrFunction.mk "main" 0], f.name ≠ "scanf" := by simp
    exact ⟨hmain, hmain⟩

theorem visitProgram_renamed (hτ : Function.Injective τ) (hM : M.Numbers) {p : Program}
    (hres : Bindings.Resolved (bothNames τ p.uses) .init) :
    Coupled (visitProgram M L p) (visitProgram M L (p.rename τ))
      (Renamed τ (Bindings.after (bothNames τ p.uses) .init)) := by
  have hmain : Renamed τ .init (enterMain M) (enterMain M) := enterMain_renamed
  refine (visitStmts_renamed hτ hM p.stmts .init _ _ _ ⟨hres, rfl⟩ hmain).bind (fun g g' h => ?_)
  exact Coupled.ok (h.nameless (nameless_returnUnlessTerminated _))

end Visitors

/-! ## The two modules -/

/-- At some moment of a run the module has printed this and read that much. -/
def CodeGenerator.Shows (g : CodeGenerator) (E : Env) (printed : List Number) (delivered : Nat) : Prop :=
  ∃ c, Star (step g E) g.start c ∧ c.printed = printed ∧ c.delivered = delivered

/-- A run of the module ends when it has printed this and read that much. -/
def CodeGenerator.EndsShowing (g : CodeGenerator) (E : Env) (printed : List Number) (delivered : Nat)
    (r : Ending) : Prop :=
  ∃ c, Ends (step g E) g.start c r ∧ c.printed = printed ∧ c.delivered = delivered

/-- The two modules print the same, read as much and end alike, whatever the input. -/
structure RunAlike (g g' : CodeGenerator) : Prop where
  shows : ∀ E printed delivered, g.Shows E printed delivered ↔ g'.Shows E printed delivered
  ends : ∀ E printed delivered r, g.EndsShowing E printed delivered r ↔ g'.EndsShowing E printed delivered r

section Modules

variable {τ : Name → Name} {B : Bindings} {g g' : CodeGenerator} {E : Env}

theorem callFunction_renamed (h : Renamed τ B g g') (id : Nat) (callee : Value) (args : List Value)
    (c : Config) : callFunction g' E id callee args c = callFunction g E id callee args c := by
  unfold callFunction
  cases c.value callee with
  | none => rfl
  | some v =>
      cases v with
      | int | bit | poison | str => rfl
      | func f =>
          have hcount := h.paramCount f
          have hdecl := h.declarations f
          obtain ⟨N, rfl⟩ := h.same
          have hentry : (g.withTables N).entryBlock f = g.entryBlock f := rfl
          dsimp only
          rw [hentry]
          cases he : g.entryBlock f with
          | none =>
              -- a function of the library is called by its name
              rw [hdecl he]
              rfl
          | some e =>
              -- of a function with blocks only the number of parameters matters
              cases hf : g.functions[f]? with
              | none =>
                  rw [hf] at hcount
                  rw [Option.map_eq_none_iff.mp hcount]
              | some fn =>
                  rw [hf] at hcount
                  obtain ⟨fn', hf', hfn⟩ := Option.map_eq_some_iff.mp hcount
                  rw [hf']
                  dsimp only
                  rw [hfn]
                  rfl

theorem step_renamed (h : Renamed τ B g g') : step g' E = step g E := by
  funext c
  unfold step
  cases c.top.code with
  | nil => rfl
  | cons i rest =>
      have hcall := callFunction_renamed (E := E) h
      obtain ⟨N, rfl⟩ := h.same
      cases i with
      | call id arity callee args => exact congrArg orInvalid (hcall id callee args _)
      | alloca | load | store | op | br | condBr | ret => rfl

theorem Renamed.runAlike (h : Renamed τ B g g') : RunAlike g g' := by
  have hstart : g'.start = g.start := by
    obtain ⟨N, rfl⟩ := h.same; rfl
  constructor
  · intro E printed delivered
    unfold CodeGenerator.Shows
    rw [step_renamed h, hstart]
  · intro E printed delivered r
    unfold CodeGenerator.EndsShowing
    rw [step_renamed h, hstart]

end Modules

section Invariance

variable {M : Llvm} {L : Lowering}

/-- Every use of a name, of `?` and of `print` finds the same in the program and in the renamed one. -/
def Program.NamesResolve (p : Program) (ρ : Name → Name) : Prop :=
  Bindings.Resolved (bothNames ρ p.uses) .init

instance (p : Program) (ρ : Name → Name) : Decidable (p.NamesResolve ρ) :=
  inferInstanceAs (Decidable (Bindings.Resolved _ _))

/-- **Compilation under other names.** The renamed program is accepted too, and as long as each of its uses
    finds what it finds in the program, the generator throws on both or makes modules that run alike. -/
theorem renaming_invariant (hM : M.Numbers) {p : Program} {ρ : Name → Name} (hp : Accepted p)
    (hρ : p.Renaming ρ) (hres : p.NamesResolve ρ) :
    Accepted (p.rename ρ) ∧ Coupled (visitProgram M L p) (visitProgram M L (p.rename ρ)) RunAlike := by
  refine ⟨accepted_rename hρ.injective hp, ?_⟩
  obtain ⟨τ, hτ, hagree⟩ := exists_injective hρ.injective
  have hrename : p.rename ρ = p.rename τ := congrArg Program.mk (renameStmts_congr p.stmts hagree)
  have hnames : bothNames ρ p.uses = bothNames τ p.uses := hagree.pairs
  have hres : Bindings.Resolved (bothNames τ p.uses) .init := hnames ▸ hres
  rw [hrename]
  exact (visitProgram_renamed hτ hM hres).weaken (fun _ _ h => h.runAlike)

/-- `x = ?; g = func(a) { return a; }; print g(x);` -/
def echo : Program where
  stmts := [
    .exprStmt (.assignmentExpr "x" .input),
    .exprStmt (.assignmentExpr "g" (.func none ["a"] (.blockExpr [.returnStmt (some (.var "a"))]))),
    .printStmt (.call (.var "g") [.var "x"])]

/-- Every name gets a letter more. -/
theorem renaming_invariant_echo :
    Accepted (echo.rename (· ++ "a")) ∧ Coupled (visitProgram .standard .source echo)
      (visitProgram .standard .source (echo.rename (· ++ "a"))) RunAlike :=
  renaming_invariant Llvm.standard_numbers (by decide)
    ⟨fun _ _ _ _ h => (String.append_left_inj _).mp h, by decide⟩ (by decide)

/-- `x = 3; y = ?; print x;` -/
def hiddenInput : Program where
  stmts := [
    .exprStmt (.assignmentExpr "x" (.number 3)),
    .exprStmt (.assignmentExpr "y" .input),
    .printStmt (.var "x")]

/-- The name `x` becomes `__input_var`. -/
def toInputVar (x : Name) : Name := if x = "x" then inputVar else x

/-- The module of a program. -/
def Program.generated (p : Program) : CodeGenerator :=
  match visitProgram .standard .source p with
  | .ok g => g
  | .error t => t.state

theorem endsShowing_of_iterate (g : CodeGenerator) (E : Env) (n : Nat) (printed : List Number)
    (h : (iterate (step g E) n g.start).any
      (fun c => decide (c.printed = printed) && (step g E c).isRight) = true) :
    ∃ delivered r, g.EndsShowing E printed delivered r := by
  obtain ⟨c, r, hends, hc⟩ := ends_of_iterate h
  exact ⟨c.delivered, r, c, hends, of_decide_eq_true hc, rfl⟩

/-- With `__input_var` for `x`, `x = 3; y = ?; print x;` prints the input and not 3. -/
theorem renaming_captures : ¬ ∀ (M : Llvm) (L : Lowering) (p : Program) (ρ : Name → Name), M.Numbers →
    Accepted p → p.Renaming ρ →
      Accepted (p.rename ρ) ∧ Coupled (visitProgram M L p) (visitProgram M L (p.rename ρ)) RunAlike := by
  intro h
  have hinj : ∀ x ∈ hiddenInput.identifiers, ∀ y ∈ hiddenInput.identifiers,
      toInputVar x = toInputVar y → x = y := by decide
  obtain ⟨_, halike⟩ := h .standard .source hiddenInput toInputVar Llvm.standard_numbers (by decide)
    ⟨fun x hx y hy he => hinj x hx y hy he, by decide⟩
  have halike : RunAlike hiddenInput.generated (hiddenInput.rename toInputVar).generated := halike
  obtain ⟨delivered, r, hends⟩ :=
    endsShowing_of_iterate hiddenInput.generated ⟨.cpp, fun _ => 7⟩ 9 [3] (by decide +kernel)
  obtain ⟨c, hc, hprinted, _⟩ := (halike.ends _ _ _ _).mp hends
  obtain ⟨_, _, c', hc', hprinted', _⟩ :=
    endsShowing_of_iterate (hiddenInput.rename toInputVar).generated ⟨.cpp, fun _ => 7⟩ 8 [7]
      (by decide +kernel)
  obtain ⟨rfl, _⟩ := hc.unique hc'
  rw [hprinted] at hprinted'
  exact absurd hprinted' (by decide)

end Invariance

end ParaCL
