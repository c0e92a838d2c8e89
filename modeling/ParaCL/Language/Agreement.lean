import ParaCL.Language.Semantics
import ParaCL.Lib.Embedding
import ParaCL.Simulator.Scoping

/-!
# `Language.Agreement` — the language and its interpreter

On programs without functions, calls and `return` the meaning of `Language.Semantics` is what `simulator.cpp`
and `expr_evaluator.cpp` do (`interpreter_agrees`).
-/

namespace ParaCL

open Lib

/-- The interpreter's state among those of the language. -/
def SimState.world (s : SimState) : Language.World :=
  ⟨fun x => (s.nametable x).map .int, s.printed, s.delivered⟩

namespace Language

/-- The interpreter's run and the run of the language are the same. -/
abbrev Interprets {α β : Type} (χ : α → β) (m : Prog Fault SimState α) (m' : Prog Stop World β) : Prop :=
  Prog.Embeds Stop.fault SimState.world χ m m'

variable {E : Env} {fuel : Nat} {call : Calling} {x : Name}

theorem world_store (x : Name) (v : Number) (s : SimState) :
    s.world.store x (.int v) = (s.store x v).world := by
  have hlocals : Function.update (fun y => (s.nametable y).map Datum.int) x (some (.int v)) =
      fun y => (Function.update s.nametable x (some v) y).map Datum.int := by
    funext y
    by_cases hyx : y = x
    · subst hyx
      simp
    · simp [hyx]
  exact congrArg (fun μ => World.mk μ s.printed s.delivered) hlocals

theorem read_interprets (x : Name) :
    Interprets Datum.int (visitVariable x) (Language.read (fun _ => none) x) := by
  intro s
  rw [Language.read, visitVariable, Prog.gets_bind, Prog.gets_bind, Option.or_none]
  show demand _ ((s.nametable x).map Datum.int) s.world = _
  cases s.nametable x <;> rfl

theorem binary_interprets (op : BinaryOperators) (a b : Number) :
    Interprets Datum.int (applyBinary E.ops op a b)
    (demand (.fault (.binary op a b)) (E.ops.binary op a b) >>= fun n => pure (.int n)) := by
  intro s
  unfold applyBinary
  cases E.ops.binary op a b <;> rfl

theorem unary_interprets (op : UnaryOperators) (a : Number) :
    Interprets Datum.int (applyUnary E.ops op a)
    (demand (.fault (.unary op a)) (E.ops.unary op a) >>= fun n => pure (.int n)) := by
  intro s
  unfold applyUnary
  cases E.ops.unary op a <;> rfl

mutual

theorem eval_interprets : ∀ e : Expression, Scoped e.kinds →
    Interprets Datum.int (ExpressionEvaluator.visit E fuel e) (eval E (fun _ => none) fuel call e)
  | .number n, _ => by
      rw [ExpressionEvaluator.visit, eval]
      exact .pure n
  | .var x, _ => by
      rw [ExpressionEvaluator.visit, eval]
      exact read_interprets x
  | .assignmentExpr x e, h => by
      rw [ExpressionEvaluator.visit, eval]
      refine (eval_interprets e h).bind (fun v => ?_)
      exact Prog.Embeds.bind (.modify (world_store x v)) (fun _ => .pure v)
  | .binaryOperator op a b, h => by
      obtain ⟨ha, hb⟩ := Scoped.append.mp h
      rw [ExpressionEvaluator.visit, eval]
      exact (eval_interprets a ha).bind
        (fun l => (eval_interprets b hb).bind (fun r => binary_interprets op l r))
  | .unaryOperator op e, h => by
      rw [ExpressionEvaluator.visit, eval]
      exact (eval_interprets e h).bind (fun v => unary_interprets op v)
  | .input, _ => by
      rw [ExpressionEvaluator.visit, eval]
      exact fun s => rfl
  | .blockExpr ss, h => by
      rw [ExpressionEvaluator.visit, eval]
      exact evalStmts_interprets ss 0 (Scoped.block.mp h)
  | .func _ _ _, h => absurd List.mem_cons_self h.1
  | .call _ _, h => absurd List.mem_cons_self h.2.1

/-- A statement that is no expression hands the value of the block on. -/
theorem exec_interprets : ∀ (st : Statement) (last : Number), Scoped st.kinds → (∀ e, st ≠ .exprStmt e) →
    Interprets (fun _ => Datum.int last) (Simulator.visit E fuel st)
      (exec E (fun _ => none) fuel call st (.int last))
  | .emptyStmt, last, _, _ => by
      rw [Simulator.visit, exec]
      exact .pure ()
  | .exprStmt e, _, _, hne => absurd rfl (hne e)
  | .ifStmt c t none, last, h, _ => by
      obtain ⟨hc, ht⟩ := Scoped.append.mp h
      rw [Simulator.visit, exec]
      refine (eval_interprets c hc).bind (fun n => ?_)
      show Interprets _ (if n != 0 then _ else _) (if n != 0 then _ else _)
      split
      · exact (eval_interprets t ht).bind (fun _ => .pure ())
      · exact .pure ()
  | .ifStmt c t (some e), last, h, _ => by
      obtain ⟨hct, he⟩ := Scoped.append.mp h
      obtain ⟨hc, ht⟩ := Scoped.append.mp hct
      rw [Simulator.visit, exec]
      refine (eval_interprets c hc).bind (fun n => ?_)
      show Interprets _ (if n != 0 then _ else _) (if n != 0 then _ else _)
      split
      · exact (eval_interprets t ht).bind (fun _ => .pure ())
      · exact (eval_interprets e he).bind (fun _ => .pure ())
  | .whileStmt c b, last, h, _ => by
      obtain ⟨hc, hb⟩ := Scoped.append.mp h
      rw [Simulator.visit, exec]
      refine Prog.Embeds.andThen (Prog.Embeds.loop ?_ ?_ fuel) (fun _ => rfl)
      · exact (eval_interprets c hc).bind (fun n => .pure (n != 0))
      · exact (eval_interprets b hb).bind (fun _ => .pure ())
  | .printStmt e, last, h, _ => by
      rw [Simulator.visit, exec]
      refine (eval_interprets e h).bind (fun n => ?_)
      have hprint : Interprets id (Prog.modify (SimState.print n)) (Prog.modify (World.print n)) :=
        .modify (fun _ => rfl)
      show Interprets _ _ (Prog.modify (World.print n) >>= fun _ => pure (Datum.int last))
      exact hprint.andThen (fun _ => rfl)
  | .returnStmt none, _, h, _ => absurd List.mem_cons_self h.2.2
  | .returnStmt (some _), _, h, _ => absurd List.mem_cons_self h.2.2

theorem evalStmts_interprets : ∀ (ss : List Statement) (last : Number), Scoped (kindsOfStmts ss) →
    Interprets Datum.int (ExpressionEvaluator.visitStmts E fuel ss last)
      (evalStmts E (fun _ => none) fuel call ss (.int last))
  | [], last, _ => by
      rw [ExpressionEvaluator.visitStmts, evalStmts]
      exact .pure last
  | st :: ss, last, h => by
      obtain ⟨hst, hss⟩ := Scoped.append.mp h
      rw [evalStmts]
      cases st with
      | exprStmt e =>
          rw [ExpressionEvaluator.visitStmts, exec]
          exact (eval_interprets e hst).bind (fun v => evalStmts_interprets ss v hss)
      | emptyStmt | ifStmt | whileStmt | printStmt | returnStmt =>
          rw [ExpressionEvaluator.visitStmts]
          · exact (exec_interprets _ last hst (fun e => by simp)).bind
              (fun _ => evalStmts_interprets ss last hss)
          · intro e he
            cases he

end

/-- The value of the block is thrown away by `Simulator::visit(Program)`. -/
theorem visitStmts_discards : ∀ (ss : List Statement) (last : Number) (s : SimState),
    (ExpressionEvaluator.visitStmts E fuel ss last >>= fun _ => (pure () : Prog Fault SimState Unit)) s =
      Simulator.visitProgram E fuel ss s
  | [], last, s => by
      rw [ExpressionEvaluator.visitStmts, Simulator.visitProgram]
      rfl
  | st :: ss, last, s => by
      rw [Simulator.visitProgram]
      cases st with
      | exprStmt e =>
          rw [ExpressionEvaluator.visitStmts, Simulator.visit, Prog.bind_assoc_run, Prog.bind_assoc_run]
          exact Prog.bind_congr_run (fun v s1 => visitStmts_discards ss v s1) s
      | emptyStmt | ifStmt | whileStmt | printStmt | returnStmt =>
          rw [ExpressionEvaluator.visitStmts]
          · rw [Prog.bind_assoc_run]
            exact Prog.bind_congr_run (fun _ s1 => visitStmts_discards ss last s1) s
          · intro e he
            cases he

/-! ### Programs without functions -/

mutual

theorem functionsOfExpr_nil : ∀ e : Expression, Scoped e.kinds → functionsOfExpr e = []
  | .number _, _ | .var _, _ | .input, _ => rfl
  | .assignmentExpr _ e, h | .unaryOperator _ e, h => functionsOfExpr_nil e h
  | .binaryOperator _ a b, h => by
      obtain ⟨ha, hb⟩ := Scoped.append.mp h
      rw [functionsOfExpr, functionsOfExpr_nil a ha, functionsOfExpr_nil b hb]
      rfl
  | .blockExpr ss, h => functionsOfStmts_nil ss (Scoped.block.mp h)
  | .func _ _ _, h => absurd List.mem_cons_self h.1
  | .call _ _, h => absurd List.mem_cons_self h.2.1

theorem functionsOfStmt_nil : ∀ st : Statement, Scoped st.kinds → functionsOfStmt st = []
  | .emptyStmt, _ | .returnStmt none, _ => rfl
  | .exprStmt e, h | .printStmt e, h => functionsOfExpr_nil e h
  | .returnStmt (some _), h => absurd List.mem_cons_self h.2.2
  | .ifStmt c t none, h => by
      obtain ⟨hc, ht⟩ := Scoped.append.mp h
      rw [functionsOfStmt, functionsOfExpr_nil c hc, functionsOfExpr_nil t ht]
      rfl
  | .ifStmt c t (some e), h => by
      obtain ⟨hct, he⟩ := Scoped.append.mp h
      obtain ⟨hc, ht⟩ := Scoped.append.mp hct
      rw [functionsOfStmt, functionsOfExpr_nil c hc, functionsOfExpr_nil t ht, functionsOfExpr_nil e he]
      rfl
  | .whileStmt c b, h => by
      obtain ⟨hc, hb⟩ := Scoped.append.mp h
      rw [functionsOfStmt, functionsOfExpr_nil c hc, functionsOfExpr_nil b hb]
      rfl

theorem functionsOfStmts_nil : ∀ ss : List Statement, Scoped (kindsOfStmts ss) → functionsOfStmts ss = []
  | [], _ => rfl
  | st :: ss, h => by
      obtain ⟨hst, hss⟩ := Scoped.append.mp h
      rw [functionsOfStmts, functionsOfStmt_nil st hst, functionsOfStmts_nil ss hss]
      rfl

end

end Language

open ParaCL.Language

/-- **The interpreter.** On a program without functions, calls and `return` it does, bound for bound, what the
    program means. -/
theorem interpreter_agrees {p : Program} (hi : Scoped p.kinds) (E : Env) (fuel : Nat) :
    (p.run E fuel).map id id (fun _ => ()) = (Simulator.run E fuel p).map Stop.fault SimState.world id := by
  have hnone : definitions p.function = fun _ => none := by
    funext x
    rw [definitions, Program.function, functionsOfStmts_nil p.stmts hi]
    rfl
  have hrun : p.run E fuel =
      (ExpressionEvaluator.visitStmts E fuel p.stmts 0 .init).map Stop.fault SimState.world Datum.int := by
    rw [Program.run, hnone]
    exact evalStmts_interprets p.stmts 0 hi .init
  have hsim : Simulator.run E fuel p =
      (ExpressionEvaluator.visitStmts E fuel p.stmts 0 >>= fun _ => pure ()) SimState.init :=
    (visitStmts_discards p.stmts 0 .init).symm
  rw [hrun, hsim]
  cases hr : ExpressionEvaluator.visitStmts E fuel p.stmts 0 .init with
  | done v s => rw [Prog.bind_done hr]; rfl
  | fault e s => rw [Prog.bind_fault hr]; rfl
  | timeout s => rw [Prog.bind_timeout hr]; rfl

end ParaCL
