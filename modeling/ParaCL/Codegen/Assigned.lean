import ParaCL.Codegen.Correctness

/-!
# `Codegen.Assigned` — functions know their variables

The parser sees to it that a name is assigned before it is read, along the text and across functions; a call
starts without variables. Where functions use no slot of another one the two go together: at every point of a
function a variable that the parser sees and the function has a slot for has a value (`Assigned`), and a body that
may be called keeps this up (`Callable`). So the only faults left are operators without a value
(`faults_of_operators`), and a module without divisions has a defined behavior (`compiled_total`).
-/

namespace ParaCL

open Lib ParaCL.Language

/-! ## Names of the function at hand -/

/-- In the innermost scope. -/
def Innermost (x : Name) (Γ : Layers Name) : Prop := ∃ l ∈ Γ.head?, x ∈ l

theorem Innermost.mono {x : Name} {Γ Δ : Layers Name} (h : Innermost x Γ) (hg : Γ.Grows Δ) : Innermost x Δ := by
  obtain ⟨l, m, ls, rfl, rfl, hlm⟩ := hg
  obtain ⟨_, hl, hx⟩ := h
  cases hl
  exact ⟨m, rfl, hlm hx⟩

theorem innermost_declare {x y : Name} {Γ : Layers Name} (hne : Γ ≠ []) (h : Innermost y (Layers.declare x Γ)) :
    y = x ∨ Innermost y Γ := by
  by_cases hv : Layers.Visible x Γ
  · rw [Layers.declare_of_visible hv] at h
    exact .inr h
  · obtain ⟨l, ls, rfl⟩ := List.exists_cons_of_ne_nil hne
    rw [Layers.declare_cons_of_not_visible hv] at h
    obtain ⟨_, hl, hy⟩ := h
    cases hl
    rcases List.mem_cons.mp hy with rfl | hy
    · exact .inl rfl
    · exact .inr ⟨l, rfl, hy⟩

theorem innermost_declares {y : Name} {ps : List Name} : ∀ {Γ : Layers Name}, Γ ≠ [] →
    Innermost y (ps.foldl (fun Γ x => Layers.declare x Γ) Γ) → y ∈ ps ∨ Innermost y Γ := by
  induction ps with
  | nil => exact fun _ h => .inr h
  | cons x ps ih =>
      intro Γ hne h
      rcases ih (Layers.declare_ne_nil hne) h with hy | hy
      · exact .inl (List.mem_cons_of_mem _ hy)
      · rcases innermost_declare hne hy with rfl | hy
        · exact .inl List.mem_cons_self
        · exact .inr hy

/-- A function leaves the scopes as they were. -/
theorem func_scopes {name : Option Name} {ps : List Name} {es : List Event} {v w : NameView} (hb : Balanced es)
    (h : NameView.run (.enter name ps :: (es ++ [.leave])) v = .ok w) : w.scopes = v.scopes := by
  obtain ⟨v1, h1, h2⟩ := bind_ok_iff.mp h
  rw [NameView.run_append] at h2
  obtain ⟨v2, hbody, h3⟩ := bind_ok_iff.mp h2
  cases h3
  have hne0 : (v.enter name).scopes ≠ [] := by
    rw [NameView.enter_scopes]
    exact List.cons_ne_nil _ _
  have hg1 := NameView.declareParams_grows hne0 h1
  have hg2 := NameView.run_grows hb hg1.scopes.ne_nil hbody
  show v2.scopes.tail = v.scopes
  rw [hg2.scopes.tail, hg1.scopes.tail, NameView.enter_scopes]
  rfl

/-- A name in scope does not become one of the innermost scope. -/
theorem innermost_run {x : Name} {es : List Event} (hb : Balanced es) : ∀ {v w : NameView}, v.scopes ≠ [] →
    NameView.run es v = .ok w → Layers.Visible x v.scopes → Innermost x w.scopes → Innermost x v.scopes := by
  induction hb with
  | nil =>
      intro v w _ h _ hx
      cases h
      exact hx
  | read y =>
      intro v w _ h _ hx
      rw [NameView.run_singleton] at h
      obtain ⟨_, rfl⟩ := NameView.step_read.mp h
      exact hx
  | slot y =>
      intro v w hne h hv hx
      cases h
      by_cases hy : Layers.Visible y v.scopes
      · have hsame : Layers.declare y v.scopes = v.scopes := Layers.declare_of_visible hy
        exact hsame ▸ hx
      · exact (innermost_declare hne hx).resolve_left (fun he => hy (he ▸ hv))
  | append hb1 hb2 ih1 ih2 =>
      intro v w hne h hv hx
      rw [NameView.run_append] at h
      obtain ⟨u, h1, h2⟩ := bind_ok_iff.mp h
      have hg := NameView.run_grows hb1 hne h1
      exact ih1 hne h1 hv (ih2 hg.scopes.ne_nil h2 (hg.scopes.visible hv) hx)
  | func name ps hb _ =>
      intro v w _ h _ hx
      exact func_scopes hb h ▸ hx

/-! ## A place in the text -/

/-- From a place in the text to a later one, in the parser's scopes `Γ` and the generator's view `v`: the
    events in between run, on names of the function at hand, and no function has the name of a variable. -/
structure Walk (σ : Signature) (Γ : Layers Name) (v : NameView) (es : List Event) (w : NameView) : Prop where
  text : Γ ≠ []
  scopes : v.scopes ≠ []
  resolves : Resolves Γ v
  run : NameView.run es v = .ok w
  own : OwnRun es v
  apart : ∀ x, w.isFunction x → ¬ σ.Variable x

variable {σ : Signature} {Γ Γ1 Δ : Layers Name} {u v w : NameView} {es fs : List Event} {x : Name}
  {ops : List BinaryOperators} {μ : Name → Option Datum}

theorem Walk.grows (h : Walk σ Γ v es w) (hb : Balanced es) : v.Grows w := NameView.run_grows hb h.scopes h.run

/-- **Sequencing.** -/
theorem Walk.append (h : Walk σ Γ v (es ++ fs) w) (hb : Balanced es) (hb' : Balanced fs) (hne : Γ1 ≠ [])
    (hres : RunsResolved es v Γ1) : ∃ u, Walk σ Γ v es u ∧ Walk σ Γ1 u fs w := by
  have hrun := h.run
  rw [NameView.run_append] at hrun
  obtain ⟨u, h1, h2⟩ := bind_ok_iff.mp hrun
  obtain ⟨ho1, ho2⟩ := ownRun_append.mp h.own
  have hu := (NameView.run_grows hb h.scopes h1).scopes.ne_nil
  have hg := NameView.run_grows hb' hu h2
  exact ⟨u, ⟨h.text, h.scopes, h.resolves, h1, ho1, fun x hx => h.apart x (hg.functions x hx)⟩,
    ⟨hne, hu, Ensures.of_ok hres h1, h2, ho2 u h1, h.apart⟩⟩

theorem Walk.after_expr {e : Expression} (h : Walk σ Γ v (e.events ++ fs) w) (hb : Balanced fs)
    (hc : e.check Γ = some Γ1) : ∃ u, Walk σ Γ v e.events u ∧ Walk σ Γ1 u fs w :=
  h.append e.balanced hb (e.check_grows h.text hc).ne_nil (e.resolved hc h.text h.scopes h.resolves)

theorem Walk.after_stmt {s : Statement} (h : Walk σ Γ v (s.events ++ fs) w) (hb : Balanced fs)
    (hc : s.check Γ = some Γ1) : ∃ u, Walk σ Γ v s.events u ∧ Walk σ Γ1 u fs w :=
  h.append s.balanced hb (s.check_grows h.text hc).ne_nil (s.resolved hc h.text h.scopes h.resolves)

/-- Inside of braces. -/
theorem Walk.opened (h : Walk σ Γ v es w) : Walk σ ([] :: Γ) v es w :=
  ⟨List.cons_ne_nil _ _, h.scopes, fun x hx => h.resolves x (Layers.visible_open.mp hx), h.run, h.own, h.apart⟩

/-- A variable that the parser sees has a slot in scope. -/
theorem Walk.visible (h : Walk σ Γ v es w) (hb : Balanced es) (hx : σ.Variable x) (hv : Layers.Visible x Γ) :
    Layers.Visible x v.scopes :=
  (h.resolves x hv).resolve_right (fun hf => h.apart x ((h.grows hb).functions x hf) hx)

/-! ## Variables with a value -/

/-- A variable that the parser sees and the function has a slot for has a value. -/
def Assigned (σ : Signature) (Γ : Layers Name) (v : NameView) (μ : Name → Option Datum) : Prop :=
  ∀ x, σ.Variable x → Layers.Visible x Γ → Innermost x v.scopes → (μ x).isSome

/-- Text that is skipped makes no difference. -/
theorem Assigned.skip (h : Assigned σ Γ v μ) (hw : Walk σ Γ v es w) (hb : Balanced es) : Assigned σ Γ w μ :=
  fun x hx hv ho => h x hx hv (innermost_run hb hw.scopes hw.run (hw.visible hb hx hv) ho)

/-- What is known at a place is known at an earlier one. -/
theorem Assigned.back (h : Assigned σ Δ w μ) (hΓ : ∀ x, Layers.Visible x Γ → Layers.Visible x Δ)
    (hg : v.Grows w) : Assigned σ Γ v μ := fun x hx hv ho => h x hx (hΓ x hv) (ho.mono hg.scopes)

theorem Assigned.store {d : Datum} (h : Assigned σ Γ v μ) (hΓ : Γ ≠ []) (hv : v.scopes ≠ []) :
    Assigned σ (Layers.declare x Γ) { v with scopes := Layers.declare x v.scopes }
      (Function.update μ x (some d)) := by
  intro y hy hvis ho
  by_cases hyx : y = x
  · subst hyx
    rw [Function.update_self]
    rfl
  · rw [Function.update_of_ne hyx]
    exact h y hy (((Layers.visible_declare hΓ).mp hvis).resolve_left hyx)
      ((innermost_declare hv ho).resolve_left hyx)

/-! ## Bodies that may be called -/

/-- The body of a function, with the place in the text it comes from. -/
inductive Callable (σ : Signature) (ops : List BinaryOperators) : List Name → Expression → Prop where
  | intro {ps : List Name} {ss : List Statement} {Γ Δ : Layers Name} {v w : NameView} {o : Effect}
      (check : checkStmts ss Γ = some Δ) (walk : Walk σ Γ v (eventsOfStmts ss) w)
      (params : ∀ x, Innermost x v.scopes → x ∈ ps) (kinded : KindedStmts σ ss .nothing o)
      (operators : ∀ op ∈ operatorsOfStmts ss, op ∈ ops) : Callable σ ops ps (.blockExpr ss)

theorem Callable.of_func {name : Option Name} {ps : List Name} {body : Expression} {o : Effect}
    (hc : (Expression.func name ps body).check Γ = some Δ)
    (hw : Walk σ Γ v (Expression.func name ps body).events w) (hk : Kinded σ body o)
    (hops : ∀ op ∈ body.operators, op ∈ ops) : Callable σ ops ps body := by
  cases body with
  | blockExpr ss =>
      obtain ⟨Γ1, h1, rfl⟩ := check_func.mp hc
      have hf := grows_funcScope name ps Γ
      have hrun := hw.run
      obtain ⟨u, hu, hrest⟩ := bind_ok_iff.mp hrun
      rw [NameView.run_append] at hrest
      obtain ⟨u', hbody, hleave⟩ := bind_ok_iff.mp hrest
      cases hleave
      have hne0 : (v.enter name).scopes ≠ [] := by
        rw [NameView.enter_scopes]
        exact List.cons_ne_nil _ _
      have hg : (v.enter name).Grows u := NameView.declareParams_grows hne0 hu
      have hres : Resolves (funcScope name ps Γ) u :=
        (Ensures.of_ok ((hw.resolves.enter name).declareParams hne0) hu).declareName name
          (fun x hx => hg.functions x (hx ▸ NameView.enter_name))
      have hown := (ownRun_append.mp (hw.own.2 u hu)).1
      cases hk with
      | block hss =>
          refine .intro h1 ⟨hf.ne_nil, hg.scopes.ne_nil, hres, hbody, hown, hw.apart⟩ (fun x hx => ?_) hss hops
          rw [NameView.declareParams_scopes hu, NameView.enter_scopes] at hx
          refine (innermost_declares (List.cons_ne_nil _ _) hx).resolve_right ?_
          rintro ⟨l, hl, hxl⟩
          cases hl
          cases hxl
  | _ => cases hc

/-- Both parts of a list of operators are among the allowed ones. -/
theorem operators_append {l m : List BinaryOperators} (h : ∀ op ∈ l ++ m, op ∈ ops) :
    (∀ op ∈ l, op ∈ ops) ∧ ∀ op ∈ m, op ∈ ops :=
  ⟨fun op hop => h op (List.mem_append_left _ hop), fun op hop => h op (List.mem_append_right _ hop)⟩

/-- Whatever an `if` comes to, its branches have their kinds. -/
theorem Language.KindedStmt.branches {c t e : Expression} {acc o : Effect}
    (h : KindedStmt σ (.ifStmt c t (some e)) acc o) :
    Kinded σ c (.value .number) ∧ (∃ o1, Kinded σ t o1) ∧ ∃ o2, Kinded σ e o2 := by
  cases h with
  | ifElse hc ht he => exact ⟨hc, ⟨_, ht⟩, _, he⟩
  | ifNever hc ht he => exact ⟨hc, ⟨_, ht⟩, _, he⟩

/-! ### The functions of a program -/

/-- The functions with a name in a stretch of text may be called. -/
def AllCallable (σ : Signature) (ops : List BinaryOperators) (fs : List (Name × List Name × Expression)) : Prop :=
  ∀ f ∈ fs, Callable σ ops f.2.1 f.2.2

theorem AllCallable.append {l m : List (Name × List Name × Expression)} (h1 : AllCallable σ ops l)
    (h2 : AllCallable σ ops m) : AllCallable σ ops (l ++ m) :=
  fun f hf => (List.mem_append.mp hf).elim (h1 f) (h2 f)

mutual

theorem expr_callable : ∀ (e : Expression) {Γ Δ : Layers Name} {v w : NameView} {o : Effect},
    e.check Γ = some Δ → Walk σ Γ v e.events w → Kinded σ e o → (∀ op ∈ e.operators, op ∈ ops) →
    AllCallable σ ops (functionsOfExpr e)
  | .number _, _, _, _, _, _, _, _, _, _ => fun f hf => by cases hf
  | .var _, _, _, _, _, _, _, _, _, _ => fun f hf => by cases hf
  | .input, _, _, _, _, _, _, _, _, _ => fun f hf => by cases hf
  | .assignmentExpr x e, Γ, Δ, v, w, o, hc, hw, hk, hops => by
      obtain ⟨Γ1, h1, _⟩ := check_assignmentExpr.mp hc
      obtain ⟨u, hw1, _⟩ := hw.after_expr (.slot x) h1
      cases hk with
      | assignment hx he => exact expr_callable e h1 hw1 he hops
  | .binaryOperator op a b, Γ, Δ, v, w, o, hc, hw, hk, hops => by
      obtain ⟨Γ1, h1, h2⟩ := check_binaryOperator.mp hc
      obtain ⟨u, hw1, hw2⟩ := hw.after_expr b.balanced h1
      obtain ⟨ha, hb⟩ := operators_append (fun op hop => hops op (List.mem_cons_of_mem _ hop))
      cases hk with
      | binary hka hkb => exact (expr_callable a h1 hw1 hka ha).append (expr_callable b h2 hw2 hkb hb)
  | .unaryOperator _ e, Γ, Δ, v, w, o, hc, hw, hk, hops => by
      cases hk with
      | unary he => exact expr_callable e hc hw he hops
  | .blockExpr ss, Γ, Δ, v, w, o, hc, hw, hk, hops => by
      obtain ⟨Γ1, h1, _⟩ := check_blockExpr.mp hc
      cases hk with
      | block hss => exact stmts_callable ss h1 hw.opened hss hops
  | .func name ps body, Γ, Δ, v, w, o, hc, hw, hk, hops => by
      cases hk with
      | func hps hname hbody ho =>
          have hself := Callable.of_func hc hw hbody hops
          have hinner : AllCallable σ ops (functionsOfExpr body) := by
            cases hself with
            | intro check walk params kinded operators => exact stmts_callable _ check walk kinded operators
          cases name with
          | none => exact hinner
          | some f =>
              intro d hd
              rcases List.mem_cons.mp hd with rfl | hd
              · exact hself
              · exact hinner d hd
  | .call t es, Γ, Δ, v, w, o, hc, hw, hk, hops => by
      obtain ⟨Γ1, h1, h2⟩ := check_call.mp hc
      obtain ⟨u, hw1, hw2⟩ := hw.after_expr (balanced_args es) h1
      obtain ⟨ht, hes⟩ := operators_append hops
      cases hk with
      | call hkt hkes => exact (expr_callable t h1 hw1 hkt ht).append (args_callable es h2 hw2 hkes hes)

theorem stmt_callable : ∀ (st : Statement) {Γ Δ : Layers Name} {v w : NameView} {acc o : Effect},
    st.check Γ = some Δ → Walk σ Γ v st.events w → KindedStmt σ st acc o → (∀ op ∈ st.operators, op ∈ ops) →
    AllCallable σ ops (functionsOfStmt st)
  | .emptyStmt, _, _, _, _, _, _, _, _, _, _ => fun f hf => by cases hf
  | .returnStmt none, _, _, _, _, _, _, _, _, _, _ => fun f hf => by cases hf
  | .exprStmt e, Γ, Δ, v, w, acc, o, hc, hw, hk, hops => by
      cases hk with
      | expr he => exact expr_callable e hc hw he hops
  | .printStmt e, Γ, Δ, v, w, acc, o, hc, hw, hk, hops => by
      cases hk with
      | print he => exact expr_callable e hc hw he hops
  | .returnStmt (some e), Γ, Δ, v, w, acc, o, hc, hw, hk, hops => by
      cases hk with
      | returnSome he => exact expr_callable e hc hw he hops
  | .ifStmt c t none, Γ, Δ, v, w, acc, o, hc, hw, hk, hops => by
      obtain ⟨_, Γ1, h1, h2⟩ := check_ifStmt.mp hc
      obtain ⟨u, hw1, hw2⟩ := hw.after_expr t.balanced h1
      obtain ⟨hoc, hot⟩ := operators_append hops
      cases hk with
      | ifThen hkc hkt => exact (expr_callable c h1 hw1 hkc hoc).append (expr_callable t h2 hw2 hkt hot)
  | .ifStmt c t (some e), Γ, Δ, v, w, acc, o, hc, hw, hk, hops => by
      obtain ⟨_, Γ1, Γ2, h1, h2, h3⟩ := check_ifStmt_else.mp hc
      obtain ⟨u, hw1, hw23⟩ := hw.after_expr (.append t.balanced e.balanced) h1
      obtain ⟨u', hw2, hw3⟩ := hw23.after_expr e.balanced h2
      obtain ⟨hoc, hote⟩ := operators_append hops
      obtain ⟨hot, hoe⟩ := operators_append hote
      obtain ⟨hkc, ⟨_, hkt⟩, _, hke⟩ := hk.branches
      exact (expr_callable c h1 hw1 hkc hoc).append
        ((expr_callable t h2 hw2 hkt hot).append (expr_callable e h3 hw3 hke hoe))
  | .whileStmt c b, Γ, Δ, v, w, acc, o, hc, hw, hk, hops => by
      obtain ⟨_, Γ1, h1, h2⟩ := check_whileStmt.mp hc
      obtain ⟨u, hw1, hw2⟩ := hw.after_expr b.balanced h1
      obtain ⟨hoc, hob⟩ := operators_append hops
      cases hk with
      | whileLoop hkc hkb => exact (expr_callable c h1 hw1 hkc hoc).append (expr_callable b h2 hw2 hkb hob)

theorem stmts_callable : ∀ (ss : List Statement) {Γ Δ : Layers Name} {v w : NameView} {acc o : Effect},
    checkStmts ss Γ = some Δ → Walk σ Γ v (eventsOfStmts ss) w → KindedStmts σ ss acc o →
    (∀ op ∈ operatorsOfStmts ss, op ∈ ops) → AllCallable σ ops (functionsOfStmts ss)
  | [], _, _, _, _, _, _, _, _, _, _ => fun f hf => by cases hf
  | st :: ss, Γ, Δ, v, w, acc, o, hc, hw, hk, hops => by
      obtain ⟨Γ1, h1, h2⟩ := checkStmts_cons.mp hc
      obtain ⟨u, hw1, hw2⟩ := hw.after_stmt (balanced_stmts ss) h1
      obtain ⟨hst, hss⟩ := operators_append hops
      cases hk with
      | cons hks hkss => exact (stmt_callable st h1 hw1 hks hst).append (stmts_callable ss h2 hw2 hkss hss)

theorem args_callable : ∀ (es : List Expression) {Γ Δ : Layers Name} {v w : NameView},
    checkArgs es Γ = some Δ → Walk σ Γ v (eventsOfArgs es) w → KindedArgs σ es →
    (∀ op ∈ operatorsOfArgs es, op ∈ ops) → AllCallable σ ops (functionsOfArgs es)
  | [], _, _, _, _, _, _, _, _ => fun f hf => by cases hf
  | e :: es, Γ, Δ, v, w, hc, hw, hk, hops => by
      obtain ⟨Γ1, h1, h2⟩ := checkArgs_cons.mp hc
      obtain ⟨u, hw1, hw2⟩ := hw.after_expr (balanced_args es) h1
      obtain ⟨he, hes⟩ := operators_append hops
      cases hk with
      | cons hke hkes => exact (expr_callable e h1 hw1 hke he).append (args_callable es h2 hw2 hkes hes)

end

/-! ## Runs -/

/-- A function among the values may be called. -/
def Language.Datum.Good (σ : Signature) (ops : List BinaryOperators) : Datum → Prop
  | .int _ => True
  | .code ps body => Callable σ ops ps body

/-- The stops that are left: an operator of the program without a value, a value of the wrong kind, a
    `return`. -/
inductive Expected (σ : Signature) (ops : List BinaryOperators) (E : Env) : Stop → Prop where
  | binary {op : BinaryOperators} {a b : Number} (mem : op ∈ ops) (none : E.ops.binary op a b = none) :
      Expected σ ops E (.fault (.binary op a b))
  | unary {op : UnaryOperators} {a : Number} (none : E.ops.unary op a = none) :
      Expected σ ops E (.fault (.unary op a))
  | kind : Expected σ ops E .kind
  | returned {d : Datum} (good : d.Good σ ops) : Expected σ ops E (.returned d)

/-- What holds of the variables of a call. -/
structure Safe (σ : Signature) (ops : List BinaryOperators) (Γ : Layers Name) (v : NameView)
    (μ : Name → Option Datum) : Prop where
  assigned : Assigned σ Γ v μ
  good : ∀ x d, μ x = some d → d.Good σ ops

/-- Run from one place to a later one. -/
def SafeRun (σ : Signature) (ops : List BinaryOperators) (E : Env) (Γ : Layers Name) (v : NameView)
    (m : Prog Stop World Datum) (Δ : Layers Name) (w : NameView) : Prop :=
  Prog.Holds (fun s => Safe σ ops Γ v s.locals) m (fun d s => d.Good σ ops ∧ Safe σ ops Δ w s.locals)
    (fun e _ => Expected σ ops E e)

/-- A call leaves the variables of its caller alone. -/
def SafeCall (σ : Signature) (ops : List BinaryOperators) (E : Env) (call : Calling) : Prop :=
  ∀ ps body vs (P : (Name → Option Datum) → Prop), Callable σ ops ps body → (∀ d ∈ vs, d.Good σ ops) →
    Prog.Holds (fun s => P s.locals) (call ps body vs) (fun d s => d.Good σ ops ∧ P s.locals)
      (fun e _ => Expected σ ops E e)

variable {E : Env} {Φ : Name → Option Datum} {fuel : Nat} {call : Calling} {P : World → Prop}

theorem number_safe (d : Datum) :
    Prog.Holds P d.number (fun _ => P) (fun e _ => Expected σ ops E e) := by
  cases d with
  | int n => exact .pure (fun _ h => h)
  | code ps body => exact .raise (fun _ _ => .kind)

theorem binary_safe {op : BinaryOperators} (hop : op ∈ ops) (a b : Number) :
    Prog.Holds P (demand (.fault (.binary op a b)) (E.ops.binary op a b)) (fun _ => P)
      (fun e _ => Expected σ ops E e) := by
  cases h : E.ops.binary op a b with
  | none => exact .raise (fun _ _ => .binary hop h)
  | some n => exact .pure (fun _ h => h)

theorem unary_safe (op : UnaryOperators) (a : Number) :
    Prog.Holds P (demand (.fault (.unary op a)) (E.ops.unary op a)) (fun _ => P)
      (fun e _ => Expected σ ops E e) := by
  cases h : E.ops.unary op a with
  | none => exact .raise (fun _ _ => .unary h)
  | some n => exact .pure (fun _ h => h)

/-- A variable that is read has a value. -/
theorem var_safe (hw : Walk σ Γ v [.read x] w) (hx : σ.Variable x) (hv : Layers.Visible x Γ) :
    SafeRun σ ops E Γ v (Language.read Φ x) Γ v := by
  intro s hs
  have hown : OwnName x v.scopes := ownRun_singleton.mp hw.own
  have hinner : Innermost x v.scopes := hown (hw.visible (.read x) hx hv)
  obtain ⟨d, hd⟩ := Option.isSome_iff_exists.mp (hs.assigned x hx hv hinner)
  rw [Language.read, Prog.gets_bind, hd]
  exact ⟨hs.good x d hd, hs⟩

theorem name_safe {d : Datum} (hΦ : Φ x = some d) (hd : d.Good σ ops) :
    SafeRun σ ops E Γ v (Language.read Φ x) Γ v := by
  intro s hs
  rw [Language.read, Prog.gets_bind]
  cases hl : s.locals x with
  | none =>
      rw [Option.none_or, hΦ]
      exact ⟨hd, hs⟩
  | some d' => exact ⟨hs.good x d' hl, hs⟩

theorem Safe.store {d : Datum} (h : Safe σ ops Γ v μ) (hd : d.Good σ ops) (hΓ : Γ ≠ []) (hv : v.scopes ≠ []) :
    Safe σ ops (Layers.declare x Γ) { v with scopes := Layers.declare x v.scopes }
      (Function.update μ x (some d)) := by
  refine ⟨h.assigned.store hΓ hv, fun y d' hy => ?_⟩
  by_cases hyx : y = x
  · subst hyx
    rw [Function.update_self] at hy
    cases hy
    exact hd
  · rw [Function.update_of_ne hyx] at hy
    exact h.good y d' hy

theorem Safe.skip (h : Safe σ ops Γ v μ) (hw : Walk σ Γ v es w) (hb : Balanced es) : Safe σ ops Γ w μ :=
  ⟨h.assigned.skip hw hb, h.good⟩

theorem Safe.back (h : Safe σ ops Δ w μ) (hΓ : ∀ x, Layers.Visible x Γ → Layers.Visible x Δ) (hg : v.Grows w) :
    Safe σ ops Γ v μ := ⟨h.assigned.back hΓ hg, h.good⟩

/-- The named functions of the program may be called. -/
structure Named (σ : Signature) (ops : List BinaryOperators) (Φ : Name → Option Datum) : Prop where
  defined : ∀ f ps body, σ.Names f ps body → (Φ f).isSome
  good : ∀ f d, Φ f = some d → d.Good σ ops

/-- The value of the first run is passed on. -/
theorem SafeRun.bind {α : Type} {m : Prog Stop World Datum} {f : Datum → Prog Stop World α}
    {Q : α → World → Prop} (h : SafeRun σ ops E Γ v m Δ w)
    (hf : ∀ d, d.Good σ ops →
      Prog.Holds (fun s => Safe σ ops Δ w s.locals) (f d) Q (fun e _ => Expected σ ops E e)) :
    Prog.Holds (fun s => Safe σ ops Γ v s.locals) (m >>= f) Q (fun e _ => Expected σ ops E e) :=
  Prog.Holds.bind h (fun d s hs => hf d hs.1 s hs.2)

mutual

theorem eval_safe (hΦ : Named σ ops Φ) (hcall : SafeCall σ ops E call) :
    ∀ (e : Expression) {Γ Δ : Layers Name} {v w : NameView} {o : Effect},
    e.check Γ = some Δ → Walk σ Γ v e.events w → Kinded σ e o → (∀ op ∈ e.operators, op ∈ ops) →
    SafeRun σ ops E Γ v (eval E Φ fuel call e) Δ w
  | .number n, Γ, Δ, v, w, o, hc, hw, hk, hops => by
      cases hc
      cases hw.run
      rw [eval]
      exact .pure (fun s hs => ⟨trivial, hs⟩)
  | .var x, Γ, Δ, v, w, o, hc, hw, hk, hops => by
      obtain ⟨hv, rfl⟩ := check_var.mp hc
      have hrun : v.step (.read x) = .ok w := NameView.run_singleton _ _ ▸ hw.run
      obtain ⟨_, rfl⟩ := NameView.step_read.mp hrun
      rw [eval]
      cases hk with
      | var hx => exact var_safe hw hx hv
      | name hf =>
          obtain ⟨d, hd⟩ := Option.isSome_iff_exists.mp (hΦ.defined _ _ _ hf)
          exact name_safe hd (hΦ.good _ d hd)
  | .assignmentExpr x e, Γ, Δ, v, w, o, hc, hw, hk, hops => by
      obtain ⟨Γ1, h1, rfl⟩ := check_assignmentExpr.mp hc
      obtain ⟨u, hw1, hw2⟩ := hw.after_expr (.slot x) h1
      cases hw2.run
      rw [eval]
      cases hk with
      | assignment hx he =>
          refine (eval_safe hΦ hcall e h1 hw1 he hops).bind (fun d hd => ?_)
          exact .bind (.modify (fun s hs => hs.store hd hw2.text hw2.scopes))
            (fun _ => .pure (fun s hs => ⟨hd, hs⟩))
  | .binaryOperator op a b, Γ, Δ, v, w, o, hc, hw, hk, hops => by
      obtain ⟨Γ1, h1, h2⟩ := check_binaryOperator.mp hc
      obtain ⟨u, hw1, hw2⟩ := hw.after_expr b.balanced h1
      obtain ⟨hoa, hob⟩ := operators_append (fun op' hop => hops op' (List.mem_cons_of_mem _ hop))
      rw [eval]
      cases hk with
      | binary hka hkb =>
          refine (eval_safe hΦ hcall a h1 hw1 hka hoa).bind (fun l _ => ?_)
          refine (eval_safe hΦ hcall b h2 hw2 hkb hob).bind (fun r _ => ?_)
          refine .bind (number_safe l) (fun m => .bind (number_safe r) (fun n => ?_))
          exact .bind (binary_safe (hops op List.mem_cons_self) m n) (fun _ => .pure (fun s hs => ⟨trivial, hs⟩))
  | .unaryOperator op e, Γ, Δ, v, w, o, hc, hw, hk, hops => by
      rw [eval]
      cases hk with
      | unary he =>
          refine (eval_safe hΦ hcall e hc hw he hops).bind (fun l _ => .bind (number_safe l) (fun m => ?_))
          exact .bind (unary_safe op m) (fun _ => .pure (fun s hs => ⟨trivial, hs⟩))
  | .input, Γ, Δ, v, w, o, hc, hw, hk, hops => by
      cases hc
      cases hw.run
      rw [eval]
      -- the hidden variable is none of the program
      intro s hs
      refine ⟨trivial, fun x hx hv ho => ?_, hs.good⟩
      exact hs.assigned x hx hv ((innermost_declare hw.scopes ho).resolve_left hx.notInput)
  | .blockExpr ss, Γ, Δ, v, w, o, hc, hw, hk, hops => by
      obtain ⟨Γ1, h1, rfl⟩ := check_blockExpr.mp hc
      rw [eval]
      cases hk with
      | block hss =>
          have hrun := evalStmts_safe hΦ hcall ss (.int 0) trivial h1 hw.opened hss hops
          refine Prog.Holds.weaken hrun (fun s hs => ?_) (fun d s hs => ⟨hs.1, ?_⟩)
          · exact hs.back (fun x hx => Layers.visible_open.mp hx) (.refl hw.scopes)
          · exact hs.2.back (fun x hx => Layers.visible_of_tail hx)
              (.refl (hw.grows (balanced_stmts ss)).scopes.ne_nil)
  | .func name ps body, Γ, Δ, v, w, o, hc, hw, hk, hops => by
      cases hk with
      | func hps hname hbody ho =>
          have hgood := Callable.of_func hc hw hbody hops
          have hscopes := func_scopes body.balanced hw.run
          have hback : Δ = Γ := by
            cases body with
            | blockExpr ss =>
                obtain ⟨Γ1, h1, rfl⟩ := check_func.mp hc
                have hf := grows_funcScope name ps Γ
                exact (hf.trans (checkStmts_grows ss hf.ne_nil h1)).tail
            | _ => cases hc
          subst hback
          rw [eval]
          refine .pure (fun s hs => ⟨hgood, fun x hx hv hi => ?_, hs.good⟩)
          exact hs.assigned x hx hv (hscopes ▸ hi)
  | .call t es, Γ, Δ, v, w, o, hc, hw, hk, hops => by
      obtain ⟨Γ1, h1, h2⟩ := check_call.mp hc
      obtain ⟨u, hw1, hw2⟩ := hw.after_expr (balanced_args es) h1
      obtain ⟨hot, hoes⟩ := operators_append hops
      rw [eval]
      cases hk with
      | call hkt hkes =>
          refine (eval_safe hΦ hcall t h1 hw1 hkt hot).bind (fun f hf => ?_)
          refine .bind (evalArgs_safe hΦ hcall es h2 hw2 hkes hoes) (fun vs s hs => ?_)
          cases f with
          | int n => exact .kind
          | code ps body => exact hcall ps body vs (Safe σ ops Δ w) hf hs.1 s hs.2

theorem exec_safe (hΦ : Named σ ops Φ) (hcall : SafeCall σ ops E call) :
    ∀ (st : Statement) (last : Datum), last.Good σ ops → ∀ {Γ Δ : Layers Name} {v w : NameView} {acc o : Effect},
    st.check Γ = some Δ → Walk σ Γ v st.events w → KindedStmt σ st acc o → (∀ op ∈ st.operators, op ∈ ops) →
    SafeRun σ ops E Γ v (exec E Φ fuel call st last) Δ w
  | .emptyStmt, last, hl, Γ, Δ, v, w, acc, o, hc, hw, hk, hops => by
      cases hc
      cases hw.run
      rw [exec]
      exact .pure (fun s hs => ⟨hl, hs⟩)
  | .exprStmt e, last, hl, Γ, Δ, v, w, acc, o, hc, hw, hk, hops => by
      rw [exec]
      cases hk with
      | expr he => exact eval_safe hΦ hcall e hc hw he hops
  | .ifStmt c t none, last, hl, Γ, Δ, v, w, acc, o, hc, hw, hk, hops => by
      obtain ⟨hb, Γ1, h1, h2⟩ := check_ifStmt.mp hc
      obtain rfl := check_block_eq hb h2
      obtain ⟨u, hw1, hw2⟩ := hw.after_expr t.balanced h1
      obtain ⟨hoc, hot⟩ := operators_append hops
      rw [exec]
      cases hk with
      | ifThen hkc hkt =>
          refine (eval_safe hΦ hcall c h1 hw1 hkc hoc).bind (fun d _ => .bind (number_safe d) (fun n => ?_))
          split
          · exact (eval_safe hΦ hcall t h2 hw2 hkt hot).bind (fun _ _ => .pure (fun s hs => ⟨hl, hs⟩))
          · exact .pure (fun s hs => ⟨hl, hs.skip hw2 t.balanced⟩)
  | .ifStmt c t (some e), last, hl, Γ, Δ, v, w, acc, o, hc, hw, hk, hops => by
      obtain ⟨⟨hb, hb'⟩, Γ1, Γ2, h1, h2, h3⟩ := check_ifStmt_else.mp hc
      obtain rfl := check_block_eq hb h2
      obtain rfl := check_block_eq hb' h3
      obtain ⟨u, hw1, hw23⟩ := hw.after_expr (.append t.balanced e.balanced) h1
      obtain ⟨u', hw2, hw3⟩ := hw23.after_expr e.balanced h2
      obtain ⟨hoc, hote⟩ := operators_append hops
      obtain ⟨hot, hoe⟩ := operators_append hote
      obtain ⟨hkc, ⟨_, hkt⟩, _, hke⟩ := hk.branches
      rw [exec]
      refine (eval_safe hΦ hcall c h1 hw1 hkc hoc).bind (fun d _ => .bind (number_safe d) (fun n => ?_))
      split
      · -- the text of the other branch is skipped after this one
        exact (eval_safe hΦ hcall t h2 hw2 hkt hot).bind
          (fun _ _ => .pure (fun s hs => ⟨hl, hs.skip hw3 e.balanced⟩))
      · refine Prog.Holds.weaken ((eval_safe hΦ hcall e h3 hw3 hke hoe).bind
          (fun _ _ => .pure (fun s hs => ⟨hl, hs⟩))) (fun s hs => hs.skip hw2 t.balanced) (fun _ _ hs => hs)
  | .whileStmt c b, last, hl, Γ, Δ, v, w, acc, o, hc, hw, hk, hops => by
      obtain ⟨hb, Γ1, h1, h2⟩ := check_whileStmt.mp hc
      obtain rfl := check_block_eq hb h2
      obtain ⟨u, hw1, hw2⟩ := hw.after_expr b.balanced h1
      obtain ⟨hoc, hob⟩ := operators_append hops
      have hΓ : ∀ x, Layers.Visible x Γ → Layers.Visible x Δ := fun x hx => (c.check_grows hw.text h1).visible hx
      have hg := (hw1.grows c.balanced).trans (hw2.grows b.balanced)
      rw [exec]
      cases hk with
      | whileLoop hkc hkb =>
          have htest := (eval_safe hΦ hcall c h1 hw1 hkc hoc).bind (fun d _ => .bind (number_safe d)
            (fun n => .pure (a := n != 0) (Q := fun _ (s : World) => Safe σ ops Δ u s.locals) (fun _ h => h)))
          -- the next test starts from where the first one started from
          have hbody := (eval_safe hΦ hcall b h2 hw2 hkb hob).bind (fun _ _ => .pure (a := ())
            (Q := fun _ (s : World) => Safe σ ops Γ v s.locals) (fun s hs => hs.back hΓ hg))
          exact Prog.Holds.bind (.loop htest hbody (fun _ h => h) fuel)
            (fun _ => .pure (fun s hs => ⟨hl, Safe.skip hs hw2 b.balanced⟩))
  | .printStmt e, last, hl, Γ, Δ, v, w, acc, o, hc, hw, hk, hops => by
      rw [exec]
      cases hk with
      | print he =>
          refine (eval_safe hΦ hcall e hc hw he hops).bind (fun d _ => .bind (number_safe d) (fun n => ?_))
          exact .bind (.modify (fun s hs => hs)) (fun _ => .pure (fun s hs => ⟨hl, hs⟩))
  | .returnStmt none, last, hl, Γ, Δ, v, w, acc, o, hc, hw, hk, hops => by
      rw [exec]
      exact .raise (fun _ _ => .returned trivial)
  | .returnStmt (some e), last, hl, Γ, Δ, v, w, acc, o, hc, hw, hk, hops => by
      rw [exec]
      cases hk with
      | returnSome he =>
          exact (eval_safe hΦ hcall e hc hw he hops).bind (fun d hd => .raise (fun _ _ => .returned hd))

theorem evalStmts_safe (hΦ : Named σ ops Φ) (hcall : SafeCall σ ops E call) :
    ∀ (ss : List Statement) (last : Datum), last.Good σ ops → ∀ {Γ Δ : Layers Name} {v w : NameView}
    {acc o : Effect}, checkStmts ss Γ = some Δ → Walk σ Γ v (eventsOfStmts ss) w → KindedStmts σ ss acc o →
    (∀ op ∈ operatorsOfStmts ss, op ∈ ops) → SafeRun σ ops E Γ v (evalStmts E Φ fuel call ss last) Δ w
  | [], last, hl, Γ, Δ, v, w, acc, o, hc, hw, hk, hops => by
      cases hc
      cases hw.run
      rw [evalStmts]
      exact .pure (fun s hs => ⟨hl, hs⟩)
  | st :: ss, last, hl, Γ, Δ, v, w, acc, o, hc, hw, hk, hops => by
      obtain ⟨Γ1, h1, h2⟩ := checkStmts_cons.mp hc
      obtain ⟨u, hw1, hw2⟩ := hw.after_stmt (balanced_stmts ss) h1
      obtain ⟨host, hoss⟩ := operators_append hops
      rw [evalStmts]
      cases hk with
      | cons hks hkss =>
          exact (exec_safe hΦ hcall st last hl h1 hw1 hks host).bind
            (fun d hd => evalStmts_safe hΦ hcall ss d hd h2 hw2 hkss hoss)

theorem evalArgs_safe (hΦ : Named σ ops Φ) (hcall : SafeCall σ ops E call) :
    ∀ (es : List Expression) {Γ Δ : Layers Name} {v w : NameView},
    checkArgs es Γ = some Δ → Walk σ Γ v (eventsOfArgs es) w → KindedArgs σ es →
    (∀ op ∈ operatorsOfArgs es, op ∈ ops) →
    Prog.Holds (fun s => Safe σ ops Γ v s.locals) (evalArgs E Φ fuel call es)
      (fun vs s => (∀ d ∈ vs, d.Good σ ops) ∧ Safe σ ops Δ w s.locals) (fun e _ => Expected σ ops E e)
  | [], Γ, Δ, v, w, hc, hw, hk, hops => by
      cases hc
      cases hw.run
      rw [evalArgs]
      exact .pure (fun s hs => ⟨fun d hd => (by cases hd), hs⟩)
  | e :: es, Γ, Δ, v, w, hc, hw, hk, hops => by
      obtain ⟨Γ1, h1, h2⟩ := checkArgs_cons.mp hc
      obtain ⟨u, hw1, hw2⟩ := hw.after_expr (balanced_args es) h1
      obtain ⟨hoe, hoes⟩ := operators_append hops
      rw [evalArgs]
      cases hk with
      | cons hke hkes =>
          refine (eval_safe hΦ hcall e h1 hw1 hke hoe).bind (fun d hd => ?_)
          refine .bind (evalArgs_safe hΦ hcall es h2 hw2 hkes hoes) (fun vs => .pure (fun s hs => ?_))
          exact ⟨List.forall_mem_cons.mpr ⟨hd, hs.1⟩, hs.2⟩

end

/-! ## Calls -/

theorem bindArgs_isSome : ∀ (ps : List Name) (vs : List Datum) (μ : Name → Option Datum), vs.length = ps.length →
    x ∈ ps ∨ (μ x).isSome → (bindArgs μ ps vs x).isSome
  | [], _, μ, _, h => by
      rw [bindArgs]
      · exact h.resolve_left List.not_mem_nil
      · exact fun _ _ _ _ he => by cases he
  | _ :: _, [], _, hlen, _ => by cases hlen
  | y :: ps, v :: vs, μ, hlen, h => by
      rw [bindArgs]
      refine bindArgs_isSome ps vs _ (Nat.succ.inj hlen) ?_
      by_cases hxy : x = y
      · subst hxy
        rw [Function.update_self]
        exact .inr rfl
      · rw [Function.update_of_ne hxy]
        exact h.imp_left (fun hx => (List.mem_cons.mp hx).resolve_left hxy)

theorem bindArgs_good : ∀ (ps : List Name) (vs : List Datum) (μ : Name → Option Datum),
    (∀ d ∈ vs, d.Good σ ops) → (∀ x d, μ x = some d → d.Good σ ops) →
    ∀ x d, bindArgs μ ps vs x = some d → d.Good σ ops
  | [], vs, μ, _, hμ => by simpa [bindArgs] using hμ
  | _ :: _, [], μ, _, hμ => by simpa [bindArgs] using hμ
  | y :: ps, v :: vs, μ, hvs, hμ => by
      rw [bindArgs]
      refine bindArgs_good ps vs _ (fun d hd => hvs d (List.mem_cons_of_mem _ hd)) (fun x d hx => ?_)
      by_cases hxy : x = y
      · subst hxy
        rw [Function.update_self] at hx
        cases hx
        exact hvs v List.mem_cons_self
      · rw [Function.update_of_ne hxy] at hx
        exact hμ x d hx

/-- A call begins with its arguments, and with no other variable. -/
theorem Safe.begins {ps : List Name} {vs : List Datum}
    (hparams : ∀ x, Innermost x v.scopes → x ∈ ps) (hlen : vs.length = ps.length)
    (hvs : ∀ d ∈ vs, d.Good σ ops) : Safe σ ops Γ v (bindArgs (fun _ => none) ps vs) :=
  ⟨fun x _ _ hx => bindArgs_isSome ps vs _ hlen (.inl (hparams x hx)),
    bindArgs_good ps vs _ hvs (fun x d hx => by cases hx)⟩

theorem invoke_safe {m : Prog Stop World Datum} {Q : (Name → Option Datum) → Prop}
    (h : Prog.Holds (fun s => s.locals = μ) m (fun d _ => d.Good σ ops) (fun e _ => Expected σ ops E e)) :
    Prog.Holds (fun s => Q s.locals) (invoke m μ) (fun d s => d.Good σ ops ∧ Q s.locals)
      (fun e _ => Expected σ ops E e) := by
  intro s hs
  have h1 := h (s.withLocals μ) rfl
  unfold invoke
  cases hr : m (s.withLocals μ) with
  | done d s1 =>
      rw [hr] at h1
      exact ⟨h1, hs⟩
  | timeout s1 => trivial
  | fault e s1 =>
      rw [hr] at h1
      cases h1 with
      | returned hd => exact ⟨hd, hs⟩
      | binary hop hnone => exact .binary hop hnone
      | unary hnone => exact .unary hnone
      | kind => exact .kind

/-- **Calls, however deep they are nested.** -/
theorem calls_safe (hΦ : Named σ ops Φ) (E : Env) (fuel : Nat) : ∀ n, SafeCall σ ops E (calls E Φ fuel n)
  | 0 => fun _ _ _ _ _ _ _ _ => trivial
  | n + 1 => by
      intro ps body vs P hbody hvs
      rw [calls]
      split
      · next hlen =>
          cases hbody with
          | intro check walk params kinded operators =>
              rw [eval]
              refine invoke_safe (Prog.Holds.weaken (evalStmts_safe hΦ (calls_safe hΦ E fuel n) _ (.int 0) trivial
                check walk kinded operators) (fun s hs => ?_) (fun _ _ h => h.1))
              exact hs ▸ Safe.begins params hlen hvs
      · exact .raise (fun _ _ => .kind)

/-! ## Programs -/

variable {M : Llvm} {gf : CodeGenerator} {p : Program} {vars : Name → Kind} {o : Effect}

/-- No function of the finished module has the name of a variable. -/
theorem program_apart (hs : M.Sound) (hn : M.Numbers) (hk : KindedStmts ⟨vars, p.function⟩ p.stmts .nothing o)
    (hv : CodeGenerator.visitProgram M .source p = .ok gf) :
    ∀ x, gf.names.isFunction x → ¬ Signature.Variable ⟨vars, p.function⟩ x := by
  obtain ⟨g, _, hgf, _, _, hsorted⟩ := program_sorted hs hn hk hv
  intro x hx hvar
  have hnames := CodeGenerator.returnUnlessTerminated_names (.const (.int 0)) g
  rw [hgf] at hnames
  rw [hnames] at hx
  obtain ⟨k, hf⟩ := Option.isSome_iff_exists.mp hx
  rcases hsorted.names x k hf with ha | ⟨ps, body, hnamed⟩
  · exact hvar.notAnonymous ha
  · exact hnamed.not_variable hvar

/-- The whole text of a program. -/
theorem program_walk (hp : Accepted p) (hk : KindedStmts ⟨vars, p.function⟩ p.stmts .nothing o)
    (hfresh : ParamsFresh p.events) (hown : OwnEvents p.events) :
    ∃ Γ w, checkStmts p.stmts [[]] = some Γ ∧ Walk ⟨vars, p.function⟩ [[]] .init (eventsOfStmts p.stmts) w := by
  obtain ⟨Γ, hc⟩ := accepted_iff.mp hp
  obtain ⟨gf, hv⟩ := (visitProgram_ok_iff (M := .standard) (L := .source) hp).mpr hfresh
  have hrun := CodeGenerator.visitProgram_names (M := .standard) (L := .source) p
  rw [hv] at hrun
  refine ⟨Γ, gf.names, hc, List.cons_ne_nil _ _, List.cons_ne_nil _ _, fun x hx => ?_, hrun.symm,
    (ownEvents_iff hp).mpr hown, program_apart Llvm.standard_sound Llvm.standard_numbers hk hv⟩
  simp at hx

/-- The named functions of a program may be called. -/
theorem program_named {Γ : Layers Name} {w : NameView} (hc : checkStmts p.stmts [[]] = some Γ)
    (hw : Walk ⟨vars, p.function⟩ [[]] .init (eventsOfStmts p.stmts) w)
    (hk : KindedStmts ⟨vars, p.function⟩ p.stmts .nothing o) :
    Named ⟨vars, p.function⟩ p.operators (definitions p.function) := by
  have hall := stmts_callable p.stmts hc hw hk (fun op hop => hop)
  constructor
  · intro f ps body hf
    rw [definitions, show p.function f = _ from hf.stands]
    rfl
  · intro f d hd
    obtain ⟨q, hq, rfl⟩ := Option.map_eq_some_iff.mp hd
    obtain ⟨l, m, hl, _⟩ := List.lookup_eq_some_iff.mp hq
    exact hall (f, q) (hl ▸ List.mem_append_right l List.mem_cons_self)

/-- **Programs.** They come to their end or to a stop that is expected. -/
theorem program_safe (hp : Accepted p) (hk : KindedStmts ⟨vars, p.function⟩ p.stmts .nothing o)
    (hfresh : ParamsFresh p.events) (hown : OwnEvents p.events) {e : Stop} {s : World}
    (hrun : p.run E fuel = .fault e s) : Expected ⟨vars, p.function⟩ p.operators E e := by
  obtain ⟨Γ, w, hc, hw⟩ := program_walk hp hk hfresh hown
  have hΦ := program_named hc hw hk
  have hsafe : SafeRun ⟨vars, p.function⟩ p.operators E [[]] .init
      (evalStmts E (definitions p.function) fuel (calls E (definitions p.function) fuel fuel) p.stmts (.int 0))
      Γ w :=
    evalStmts_safe hΦ (calls_safe hΦ E fuel fuel) p.stmts (.int 0) trivial hc hw hk (fun op hop => hop)
  -- there are no variables yet
  have hstart : Safe ⟨vars, p.function⟩ p.operators [[]] .init World.init.locals :=
    ⟨fun x _ hx => by simp at hx, fun x d hx => by cases hx⟩
  have h := hsafe .init hstart
  rw [show evalStmts _ _ _ _ _ _ .init = _ from hrun] at h
  exact h

/-- Only divisions have no value. -/
theorem generatedBinary_isSome {op : BinaryOperators} (hdiv : op ≠ .div) (hrem : op ≠ .remDiv) (a b : Number) :
    (generatedBinary op a b).isSome := by
  cases op <;> first | rfl | contradiction

theorem generatedUnary_isSome (op : UnaryOperators) (a : Number) : (generatedUnary op a).isSome := by
  cases op <;> rfl

/-- Without divisions nothing goes wrong. -/
theorem Program.never_goesWrong {input : Nat → Number} (hp : Accepted p)
    (hk : KindedStmts ⟨vars, p.function⟩ p.stmts .nothing o) (hfresh : ParamsFresh p.events)
    (hown : OwnEvents p.events) (hdiv : .div ∉ p.operators) (hrem : .remDiv ∉ p.operators) :
    ¬ p.GoesWrong ⟨.generated, input⟩ := by
  rintro ⟨fuel, _, s, hrun, f, rfl⟩
  cases program_safe hp hk hfresh hown hrun with
  | @binary op a b hop hnone =>
      have hsome := generatedBinary_isSome (fun h => hdiv (h ▸ hop)) (fun h => hrem (h ▸ hop)) a b
      exact absurd (show generatedBinary op a b = none from hnone) (Option.isSome_iff_ne_none.mp hsome)
  | @unary op a hnone =>
      exact absurd (show generatedUnary op a = none from hnone)
        (Option.isSome_iff_ne_none.mp (generatedUnary_isSome op a))

section Resolved

/-- **Functions know their variables.** In an accepted program that is well kinded, whose parameters are new and
    whose functions use no slot of another one, no run comes to a variable without a value: whatever the
    operators mean and the input holds, it faults at an operator without a value only. -/
theorem faults_of_operators {p : Program} (hp : Accepted p) (hk : p.WellKinded) (hfresh : ParamsFresh p.events)
    (hown : OwnEvents p.events) (E : Env) (fuel : Nat) {f : Fault} {s : World}
    (hrun : p.run E fuel = .fault (.fault f) s) :
    (∃ op ∈ p.operators, ∃ a b, f = .binary op a b ∧ E.ops.binary op a b = none) ∨
      ∃ op a, f = .unary op a ∧ E.ops.unary op a = none := by
  obtain ⟨vars, o, hk⟩ := hk
  cases program_safe hp hk hfresh hown hrun with
  | binary hop hnone => exact .inl ⟨_, hop, _, _, rfl, hnone⟩
  | unary hnone => exact .inr ⟨_, _, rfl, hnone⟩

/-- `f = func(n) { m = 10 / n; m; }; print f(?);` -/
def dividing : Program where
  stmts := [
    .exprStmt (.assignmentExpr "f" (.func none ["n"] (.blockExpr [
      .exprStmt (.assignmentExpr "m" (.binaryOperator .div (.number 10) (.var "n"))),
      .exprStmt (.var "m")]))),
    .printStmt (.call (.var "f") [.input])]

theorem dividing_wellKinded : dividing.WellKinded := by
  let σ : Signature := ⟨fun x => if x = "f" then .function 1 else .number, dividing.function⟩
  have hn : σ.Variable "n" := ⟨by decide, by decide, not_anonymous (by decide)⟩
  have hm : σ.Variable "m" := ⟨by decide, by decide, not_anonymous (by decide)⟩
  have hf : σ.Variable "f" := ⟨by decide, by decide, not_anonymous (by decide)⟩
  have kquotient : Kinded σ (.binaryOperator .div (.number 10) (.var "n")) (.value .number) :=
    .binary .number (.variable hn rfl)
  have kbody : Kinded σ (.blockExpr [
      .exprStmt (.assignmentExpr "m" (.binaryOperator .div (.number 10) (.var "n"))),
      .exprStmt (.var "m")]) (.value .number) :=
    .block (.cons (.expr (.assign hm rfl kquotient)) (.cons (.expr (.variable hm rfl)) .nil))
  refine ⟨σ.vars, _, .cons (.expr (.assign hf rfl
    (.func (fun x hx => ?_) (fun g hg => by cases hg) kbody (.inl rfl))))
    (.cons (.print (.call (.variable hf rfl) (.cons .input .nil))) .nil)⟩
  cases List.mem_singleton.mp hx
  exact ⟨hn, rfl⟩

/-- The input is 0. -/
theorem faults_of_operators_dividing :
    (∃ op ∈ dividing.operators, ∃ a b, Fault.binary .div 10 0 = .binary op a b ∧ cppBinary op a b = none) ∨
      ∃ op a, Fault.binary .div 10 0 = .unary op a ∧ cppUnary op a = none := by
  have hp : Accepted dividing := by decide
  refine faults_of_operators hp dividing_wellKinded ?_ ?_ ⟨.cpp, fun _ => 0⟩ 2
    (show dividing.run ⟨.cpp, fun _ => 0⟩ 2 = .fault (.fault (.binary .div 10 0)) _ from rfl)
  · exact (run_ok_iff (program_resolved hp)).mp ⟨_, rfl⟩
  · exact (ownEvents_iff hp).mp (by decide)

/-- **No undefined behavior.** If moreover no instruction follows a terminator and the program has no division,
    then every block of its module ends with its only terminator, and the module ends with the exit value and
    the prints of the program, or runs on forever like the program, whatever integers the input holds. -/
theorem compiled_total {p : Program} (hp : Accepted p) (hk : p.WellKinded) (hfresh : ParamsFresh p.events)
    (hown : OwnEvents p.events) (hstraight : p.StraightLine M .source) (hdiv : .div ∉ p.operators)
    (hrem : .remDiv ∉ p.operators) (hs : M.Sound) (hn : M.Numbers) (input : Nat → Number) :
    ∃ gf, CodeGenerator.visitProgram M .source p = .ok gf ∧
      (∀ b < gf.blockCount, (gf.blocks b).WellTerminated) ∧
      ((∃ n c, p.Exits ⟨.generated, input⟩ n c.printed ∧
          Ends (step gf ⟨.generated, input⟩) gf.start c (.returned (.int n))) ∨
        (Diverges (fun fuel => p.run ⟨.generated, input⟩ fuel) ∧
          Forever (step gf ⟨.generated, input⟩) gf.start)) := by
  obtain ⟨gf, hv, himpl⟩ := module_implements hp hk hfresh hown hs hn
  refine ⟨gf, hv, (CodeGenerator.visitProgram_wellTerminated p hv).mpr hstraight, ?_⟩
  rcases (himpl input).settles with hd | hwrong | ⟨n, l, hx, _⟩
  · exact .inr ⟨hd, (himpl input).diverges hd⟩
  · obtain ⟨vars, o, hk⟩ := hk
    exact absurd hwrong (Program.never_goesWrong hp hk hfresh hown hdiv hrem)
  · obtain ⟨c, hends, rfl⟩ := (himpl input).exits n l hx
    exact .inl ⟨n, c, hx, hends⟩

theorem compiled_total_recursiveFactorial :
    ∃ gf, CodeGenerator.visitProgram .standard .source recursiveFactorial = .ok gf ∧
      (∀ b < gf.blockCount, (gf.blocks b).WellTerminated) ∧
      ((∃ n c, recursiveFactorial.Exits ⟨.generated, fun _ => 0⟩ n c.printed ∧
          Ends (step gf ⟨.generated, fun _ => 0⟩) gf.start c (.returned (.int n))) ∨
        (Diverges (fun fuel => recursiveFactorial.run ⟨.generated, fun _ => 0⟩ fuel) ∧
          Forever (step gf ⟨.generated, fun _ => 0⟩) gf.start)) := by
  have hp : Accepted recursiveFactorial := by decide
  refine compiled_total hp recursiveFactorial_wellKinded ?_ ?_ recursiveFactorial_straightLine (by decide)
    (by decide) Llvm.standard_sound Llvm.standard_numbers _
  · exact (run_ok_iff (program_resolved hp)).mp ⟨_, rfl⟩
  · exact (ownEvents_iff hp).mp (by decide)

end Resolved

end ParaCL
