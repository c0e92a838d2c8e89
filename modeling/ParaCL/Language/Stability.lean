import ParaCL.Language.Semantics
import ParaCL.Lib.Embedding

/-!
# `Language.Stability` — more fuel, more values

What a program does survives two changes: more fuel, and operators that have a value more often. `Loosens` is
the condition on the two settings and `run_outlasts` the result, by one induction over the program. Its two
cases are `run_extends`, from which every program has one end or none (`run_settles`), and `run_below`.
-/

namespace ParaCL

open Lib

/-- Where the first meaning gives an operator a value the second one gives it the same value. -/
structure Interpretation.Below (I J : Interpretation) : Prop where
  binary : ∀ op a b n, I.binary op a b = some n → J.binary op a b = some n
  unary : ∀ op a n, I.unary op a = some n → J.unary op a = some n

namespace Language

/-- The second setting has no less fuel and no fewer values, where these are reasons in `R`. -/
structure Loosens (R : Option Stop → Prop) (E E' : Env) (m n : Nat) : Prop where
  input : E'.input = E.input
  binary : ∀ op a b, E'.ops.binary op a b = E.ops.binary op a b ∨
    (E.ops.binary op a b = none ∧ R (some (.fault (.binary op a b))))
  unary : ∀ op a, E'.ops.unary op a = E.ops.unary op a ∨
    (E.ops.unary op a = none ∧ R (some (.fault (.unary op a))))
  fuel : m = n ∨ (m ≤ n ∧ R none)
  returned : ∀ v, ¬ R (some (.returned v))

/-- The second program does and prints what the first one does and prints, up to a stop in `R`. -/
abbrev Looser {α : Type} (R : Option Stop → Prop) (m m' : Prog Stop World α) : Prop :=
  Prog.Unless R World.printed m m'

def CallsLooser (R : Option Stop → Prop) (call call' : Calling) : Prop :=
  ∀ ps body vs, Looser R (call ps body vs) (call' ps body vs)

variable {R : Option Stop → Prop} {E E' : Env} {Φ : Name → Option Datum} {m n : Nat} {call call' : Calling}

theorem Loosens.refl (hret : ∀ v, ¬ R (some (.returned v))) (E : Env) (n : Nat) : Loosens R E E n n :=
  ⟨rfl, fun _ _ _ => .inl rfl, fun _ _ => .inl rfl, .inl rfl, hret⟩

theorem demand_looser {α : Type} {e : Stop} {o o' : Option α} (h : o' = o ∨ (o = none ∧ R (some e))) :
    Looser R (demand e o) (demand e o') := by
  rcases h with rfl | ⟨rfl, hR⟩
  · cases o' with
    | none => exact .raise e
    | some a => exact .pure a
  · refine Prog.Unless.of_raise hR (fun s => ?_)
    cases o' <;> exact List.prefix_refl _

theorem number_looser (v : Datum) : Looser R v.number v.number := by
  cases v with
  | int n => exact .pure _
  | code ps body => exact .raise _

theorem input_looser (h : E'.input = E.input) : Looser R (input E) (input E') := by
  unfold input
  rw [h]
  refine (Prog.Unless.gets _).bind (fun k => ?_)
  exact (Prog.Unless.modify (f := World.deliver) (fun s => List.prefix_refl _)).bind (fun _ => .pure _)

mutual

theorem eval_looser (h : Loosens R E E' m n) (hcall : CallsLooser R call call') : ∀ e : Expression,
    Looser R (eval E Φ m call e) (eval E' Φ n call' e)
  | .number k => by
      rw [eval, eval]
      exact .pure _
  | .var x => by
      rw [eval, eval]
      exact (Prog.Unless.gets _).bind (fun v => demand_looser (.inl rfl))
  | .assignmentExpr x e => by
      rw [eval, eval]
      refine (eval_looser h hcall e).bind (fun v => ?_)
      exact (Prog.Unless.modify (f := World.store x v) (fun s => List.prefix_refl _)).bind (fun _ => .pure v)
  | .binaryOperator op e1 e2 => by
      rw [eval, eval]
      refine (eval_looser h hcall e1).bind (fun l => (eval_looser h hcall e2).bind (fun r => ?_))
      refine (number_looser l).bind (fun a => (number_looser r).bind (fun b => ?_))
      exact (demand_looser (h.binary op a b)).bind (fun k => .pure _)
  | .unaryOperator op e => by
      rw [eval, eval]
      refine (eval_looser h hcall e).bind (fun v => (number_looser v).bind (fun a => ?_))
      exact (demand_looser (h.unary op a)).bind (fun k => .pure _)
  | .input => by
      rw [eval, eval]
      exact input_looser h.input
  | .blockExpr ss => by
      rw [eval, eval]
      exact evalStmts_looser h hcall ss _
  | .func _ ps body => by
      rw [eval, eval]
      exact .pure _
  | .call t es => by
      rw [eval, eval]
      refine (eval_looser h hcall t).bind (fun f => (evalArgs_looser h hcall es).bind (fun vs => ?_))
      cases f with
      | int k => exact .raise _
      | code ps body => exact hcall ps body vs

theorem exec_looser (h : Loosens R E E' m n) (hcall : CallsLooser R call call') :
    ∀ (st : Statement) (last : Datum), Looser R (exec E Φ m call st last) (exec E' Φ n call' st last)
  | .emptyStmt, last => by
      rw [exec, exec]
      exact .pure last
  | .exprStmt e, _ => by
      rw [exec, exec]
      exact eval_looser h hcall e
  | .ifStmt c t none, last => by
      rw [exec, exec]
      refine (eval_looser h hcall c).bind (fun v => (number_looser v).bind (fun k => ?_))
      split
      · exact (eval_looser h hcall t).bind (fun _ => .pure last)
      · exact .pure last
  | .ifStmt c t (some e), last => by
      rw [exec, exec]
      refine (eval_looser h hcall c).bind (fun v => (number_looser v).bind (fun k => ?_))
      split
      · exact (eval_looser h hcall t).bind (fun _ => .pure last)
      · exact (eval_looser h hcall e).bind (fun _ => .pure last)
  | .whileStmt c b, last => by
      rw [exec, exec]
      refine Prog.Unless.bind (Prog.Unless.loop ?_ ?_ h.fuel) (fun _ => .pure last)
      · exact (eval_looser h hcall c).bind (fun v => (number_looser v).bind (fun k => .pure (k != 0)))
      · exact (eval_looser h hcall b).bind (fun _ => .pure ())
  | .printStmt e, last => by
      rw [exec, exec]
      refine (eval_looser h hcall e).bind (fun v => (number_looser v).bind (fun k => ?_))
      have hprint : Looser R (Prog.modify (World.print k)) (Prog.modify (World.print k)) :=
        .modify (fun s => List.prefix_append _ _)
      exact hprint.bind (fun _ => .pure last)
  | .returnStmt none, _ => by
      rw [exec, exec]
      exact .raise _
  | .returnStmt (some e), _ => by
      rw [exec, exec]
      exact (eval_looser h hcall e).bind (fun v => .raise _)

theorem evalStmts_looser (h : Loosens R E E' m n) (hcall : CallsLooser R call call') :
    ∀ (ss : List Statement) (last : Datum), Looser R (evalStmts E Φ m call ss last) (evalStmts E' Φ n call' ss last)
  | [], last => by
      rw [evalStmts, evalStmts]
      exact .pure last
  | st :: ss, last => by
      rw [evalStmts, evalStmts]
      exact (exec_looser h hcall st last).bind (fun v => evalStmts_looser h hcall ss v)

theorem evalArgs_looser (h : Loosens R E E' m n) (hcall : CallsLooser R call call') : ∀ es : List Expression,
    Looser R (evalArgs E Φ m call es) (evalArgs E' Φ n call' es)
  | [] => by
      rw [evalArgs, evalArgs]
      exact .pure []
  | e :: es => by
      rw [evalArgs, evalArgs]
      refine (eval_looser h hcall e).bind (fun v => ?_)
      exact (evalArgs_looser h hcall es).bind (fun vs => .pure (v :: vs))

end

/-! ## Calls -/

theorem invoke_printed (b : Prog Stop World Datum) (μ : Name → Option Datum) (s : World) :
    (invoke b μ s).state.printed = (b (s.withLocals μ)).state.printed := by
  unfold invoke
  cases b (s.withLocals μ) with
  | done v s1 => rfl
  | timeout s1 => rfl
  | fault e s1 => cases e <;> rfl

theorem invoke_looser {b b' : Prog Stop World Datum} (hret : ∀ v, ¬ R (some (.returned v)))
    (h : Looser R b b') (μ : Name → Option Datum) : Looser R (invoke b μ) (invoke b' μ) := by
  intro s
  obtain ⟨hgrows, hlogs, hsame⟩ := h (s.withLocals μ)
  refine ⟨?_, ?_, ?_⟩
  · rw [invoke_printed]
    exact hgrows
  · rw [invoke_printed, invoke_printed]
    exact hlogs
  · unfold invoke
    rcases hsame with hstop | he
    · left
      cases hr : b (s.withLocals μ) with
      | done v s1 => rw [hr] at hstop; exact hstop.elim
      | timeout s1 => rw [hr] at hstop; exact hstop
      | fault e s1 =>
          rw [hr] at hstop
          cases e with
          | returned v => exact absurd hstop (hret v)
          | fault e => exact hstop
          | kind => exact hstop
    · exact .inr (by rw [he])

theorem calls_looser (h : Loosens R E E' m n) : ∀ k, CallsLooser R (calls E Φ m k) (calls E' Φ n k) := by
  intro k
  induction k with
  | zero => exact fun ps body vs s => .refl (List.prefix_refl _)
  | succ k ih =>
      intro ps body vs
      rw [calls, calls]
      split
      · exact invoke_looser h.returned (eval_looser h ih body) _
      · exact .raise _

/-- Deeper calls are another reason for more to happen. -/
theorem calls_deeper (h : Loosens R E E' m n) (hR : R none) :
    ∀ {j k : Nat}, j ≤ k → CallsLooser R (calls E Φ m j) (calls E' Φ n k) := by
  intro j
  induction j with
  | zero =>
      intro k _ ps body vs s
      have hgrows := (calls_looser (Φ := Φ) (.refl h.returned E' n) k ps body vs s).grows
      exact ⟨hgrows, hgrows, .inl hR⟩
  | succ j ih =>
      intro k hjk ps body vs
      cases k with
      | zero => omega
      | succ k =>
          rw [calls, calls]
          split
          · exact invoke_looser h.returned (eval_looser h (ih (Nat.le_of_succ_le_succ hjk)) body) _
          · exact .raise _

end Language

open ParaCL.Language

variable {E E' : Env} {p : Program} {m n : Nat}

/-- **Doing no less.** -/
theorem run_outlasts {R : Option Stop → Prop} (h : Loosens R E E' m n) :
    Outlasts R World.printed .init (p.run E m) (p.run E' n) := by
  refine evalStmts_looser h ?_ p.stmts _ _
  rcases h.fuel with rfl | ⟨hmn, hR⟩
  · exact calls_looser h m
  · exact calls_deeper h hR hmn

/-- With more fuel a run that is over stays as it is. -/
theorem run_extends (hmn : m ≤ n) : Outlasts OutOfFuel World.printed .init (p.run E m) (p.run E n) :=
  run_outlasts ⟨rfl, fun _ _ _ => .inl rfl, fun _ _ => .inl rfl, .inr ⟨hmn, rfl⟩, fun v hv => by cases hv⟩

/-- **The bounds do not matter.** A program never ends, or every bound that suffices has it end the same way. -/
theorem run_settles (p : Program) (E : Env) : Diverges (fun fuel => p.run E fuel) ∨
    ∃ r, ¬ r.IsTimeout ∧ (∃ fuel, p.run E fuel = r) ∧ ∀ fuel, (p.run E fuel).IsTimeout ∨ p.run E fuel = r :=
  ends_once (fun hmn => (run_extends hmn).same)

/-- An operator or a name without a value. -/
def WithoutValue (r : Option Stop) : Prop := ∃ f, r = some (.fault f)

/-- Where the operators have no value the program may do more. -/
theorem run_below {I J : Interpretation} (h : I.Below J) (input : Nat → Number) (p : Program) (fuel : Nat) :
    Outlasts WithoutValue World.printed .init (p.run ⟨I, input⟩ fuel) (p.run ⟨J, input⟩ fuel) := by
  refine run_outlasts ⟨rfl, fun op a b => ?_, fun op a => ?_, .inl rfl, fun v hv => ?_⟩
  · cases hv : I.binary op a b with
    | some k => exact .inl (h.binary op a b k hv)
    | none => exact .inr ⟨rfl, _, rfl⟩
  · cases hv : I.unary op a with
    | some k => exact .inl (h.unary op a k hv)
    | none => exact .inr ⟨rfl, _, rfl⟩
  · obtain ⟨f, hf⟩ := hv
    cases hf

end ParaCL
