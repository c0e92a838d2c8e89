import ParaCL.Codegen.Events
import ParaCL.Codegen.Folding

/-!
# `Codegen.Resolution` — names the parser lets through, in the generator

Two questions about the generator's exceptions, both answered on events:
* a name read is always found (`variables_resolve`). The invariant `Resolves Γ v` says that what is
  visible in the parser's scopes `Γ` is a slot in scope or a function; the parser closes a scope no later
  than the generator closes the one that holds the name;
* declaring a parameter can clash (`params_clash_iff`), exactly where its name is repeated or belongs to a
  slot still in scope, which may come from a block or an enclosing function the parser no longer sees.
-/

namespace ParaCL

open Lib

namespace NameView

/-- A name the generator resolves. -/
def Knows (v : NameView) (x : Name) : Prop := Layers.Visible x v.scopes ∨ v.isFunction x

theorem Knows.mono {v w : NameView} {x : Name} (h : v.Knows x) (hg : v.Grows w) : w.Knows x :=
  h.imp hg.scopes.visible (hg.functions x)

end NameView

/-- Whatever the parser sees, the generator resolves. -/
def Resolves (Γ : Layers Name) (v : NameView) : Prop := ∀ x, Layers.Visible x Γ → v.Knows x

/-- Any exception but `use of undeclared variable`. -/
def NotUndeclared (e : GenError) : Prop := ∀ x, e ≠ .undeclaredVariable x

namespace Resolves

variable {Γ Δ : Layers Name} {v w : NameView}

theorem mono (h : Resolves Γ v) (hg : v.Grows w) : Resolves Γ w := fun x hx => (h x hx).mono hg

/-- Both sides declare the name, each unless it sees it already. -/
theorem declare (h : Resolves Γ v) (hne : v.scopes ≠ []) (x : Name) :
    Resolves (Layers.declare x Γ) { v with scopes := Layers.declare x v.scopes } := by
  intro y hy
  by_cases hyx : y = x
  · subst hyx
    exact .inl (Layers.visible_declare_self hne)
  · have hΓ : Γ ≠ [] := by
      rintro rfl
      exact Layers.not_visible_nil hy
    have hyΓ := ((Layers.visible_declare hΓ).mp hy).resolve_left hyx
    exact (h y hyΓ).imp_left Layers.visible_declare_of_visible

theorem enter (h : Resolves Γ v) (name : Option Name) : Resolves ([] :: Γ) (v.enter name) := by
  intro x hx
  rcases h x (Layers.visible_open.mp hx) with hv | hf
  · refine .inl ?_
    rw [NameView.enter_scopes]
    exact Layers.visible_open.mpr hv
  · exact .inr (NameView.enter_functions hf)

theorem declareParams {ps : List Name} (h : Resolves Γ v) (hne : v.scopes ≠ []) :
    Ensures (v.declareParams ps)
      (fun w => Resolves (ps.foldl (fun Γ x => Layers.declare x Γ) Γ) w) NotUndeclared := by
  induction ps generalizing Γ v with
  | nil => exact h
  | cons x ps ih =>
      unfold NameView.declareParams
      split
      · exact fun y h => (by cases h)
      · exact ih (h.declare hne x) (Layers.declare_ne_nil hne)

/-- A function's own name is among the functions from the start. -/
theorem declareName (name : Option Name) (h : Resolves Γ v)
    (hname : ∀ x, name = some x → v.isFunction x) : Resolves (declareName name Γ) v := by
  cases name with
  | none => exact h
  | some x =>
      intro y hy
      by_cases hyx : y = x
      · exact .inr (hyx ▸ hname x rfl)
      · have hΓ : Γ ≠ [] := by
          rintro rfl
          exact Layers.not_visible_nil hy
        exact h y (((Layers.visible_declare hΓ).mp hy).resolve_left hyx)

end Resolves

/-! ## Every name read resolves -/

section Walk

variable {v : NameView}

/-- The conclusion for one stretch of text. -/
def RunsResolved (es : List Event) (v : NameView) (Δ : Layers Name) : Prop :=
  Ensures (NameView.run es v) (Resolves Δ) NotUndeclared

theorem RunsResolved.append {es fs : List Event} {Γ Δ : Layers Name} (hb : Balanced es)
    (hne : v.scopes ≠ []) (h1 : RunsResolved es v Γ)
    (h2 : ∀ w, w.scopes ≠ [] → Resolves Γ w → RunsResolved fs w Δ) :
    RunsResolved (es ++ fs) v Δ := by
  unfold RunsResolved
  rw [NameView.run_append]
  cases hr : NameView.run es v with
  | error e => exact h1.of_error hr
  | ok w => exact h2 w (NameView.run_grows hb hne hr).scopes.ne_nil (h1.of_ok hr)

mutual

theorem Expression.resolved : ∀ (e : Expression) {Γ Δ : Layers Name} {v : NameView},
    e.check Γ = some Δ → Γ ≠ [] → v.scopes ≠ [] → Resolves Γ v → RunsResolved e.events v Δ
  | .number _, Γ, Δ, v, h, _, _, hr => by cases h; exact hr
  | .var x, Γ, Δ, v, h, _, _, hr => by
      obtain ⟨hv, rfl⟩ := check_var.mp h
      rw [RunsResolved, Expression.events, NameView.run_singleton,
        NameView.step_read.mpr ⟨hr x hv, rfl⟩]
      exact hr
  | .assignmentExpr x e, Γ, Δ, v, h, hΓ, hne, hr => by
      obtain ⟨Γ1, h1, rfl⟩ := check_assignmentExpr.mp h
      exact .append e.balanced hne (e.resolved h1 hΓ hne hr) (fun w hw hrw => hrw.declare hw x)
  | .binaryOperator _ a b, Γ, Δ, v, h, hΓ, hne, hr => by
      obtain ⟨Γ1, h1, h2⟩ := check_binaryOperator.mp h
      exact .append a.balanced hne (a.resolved h1 hΓ hne hr)
        (fun w hw hrw => b.resolved h2 (a.check_grows hΓ h1).ne_nil hw hrw)
  | .unaryOperator _ e, Γ, Δ, v, h, hΓ, hne, hr => e.resolved h hΓ hne hr
  | .input, Γ, Δ, v, h, hΓ, hne, hr => by
      cases h
      exact hr.mono ⟨Layers.grows_declare hne, fun _ => id⟩
  | .blockExpr ss, Γ, Δ, v, h, hΓ, hne, hr => by
      obtain ⟨Γ1, h1, rfl⟩ := check_blockExpr.mp h
      have hss : RunsResolved (eventsOfStmts ss) v Γ1 := stmts_resolved ss h1 (List.cons_ne_nil _ _) hne
        (fun x hx => hr x (Layers.visible_open.mp hx))
      exact hss.weaken (fun w hw x hx => hw x (Layers.visible_of_tail hx)) (fun _ => id)
  | .func f ps body, Γ, Δ, v, h, hΓ, hne, hr => by
      cases body with
      | blockExpr ss =>
          obtain ⟨Γ1, h1, rfl⟩ := check_func.mp h
          have hf := grows_funcScope f ps Γ
          have htail : Γ1.tail = Γ := (hf.trans (checkStmts_grows ss hf.ne_nil h1)).tail
          have hne0 : (v.enter f).scopes ≠ [] := by
            rw [NameView.enter_scopes]
            exact List.cons_ne_nil _ _
          -- the run of the body, which decides what can be thrown
          have hbody : Ensures (NameView.run (.enter f ps :: (eventsOfStmts ss ++ [.leave])) v)
              (fun _ => True) NotUndeclared := by
            rw [NameView.run]
            cases hp : v.step (.enter f ps) with
            | error e => exact ((hr.enter f).declareParams hne0).of_error hp
            | ok w =>
                have hg : (v.enter f).Grows w := NameView.declareParams_grows hne0 hp
                have hrw := (((hr.enter f).declareParams hne0).of_ok hp).declareName f
                  (fun x hx => hg.functions x (hx ▸ NameView.enter_name))
                have hss := stmts_resolved ss h1 hf.ne_nil hg.scopes.ne_nil hrw
                show Ensures (NameView.run (eventsOfStmts ss ++ [.leave]) w) _ _
                rw [NameView.run_append]
                cases hb : NameView.run (eventsOfStmts ss) w with
                | error e => exact hss.of_error hb
                | ok u => exact trivial
          rw [htail]
          unfold RunsResolved
          cases hrun : NameView.run (Expression.func f ps (.blockExpr ss)).events v with
          | error e => exact hbody.of_error hrun
          | ok w =>
              exact hr.mono (NameView.run_grows (Expression.balanced (.func f ps (.blockExpr ss))) hne hrun)
      | _ => cases h
  | .call t es, Γ, Δ, v, h, hΓ, hne, hr => by
      obtain ⟨Γ1, h1, h2⟩ := check_call.mp h
      exact .append t.balanced hne (t.resolved h1 hΓ hne hr)
        (fun w hw hrw => args_resolved es h2 (t.check_grows hΓ h1).ne_nil hw hrw)

theorem Statement.resolved : ∀ (s : Statement) {Γ Δ : Layers Name} {v : NameView},
    s.check Γ = some Δ → Γ ≠ [] → v.scopes ≠ [] → Resolves Γ v → RunsResolved s.events v Δ
  | .emptyStmt, Γ, Δ, v, h, _, _, hr => by cases h; exact hr
  | .exprStmt e, Γ, Δ, v, h, hΓ, hne, hr => e.resolved h hΓ hne hr
  | .ifStmt c t none, Γ, Δ, v, h, hΓ, hne, hr => by
      obtain ⟨_, Γ1, h1, h2⟩ := check_ifStmt.mp h
      exact .append c.balanced hne (c.resolved h1 hΓ hne hr)
        (fun w hw hrw => t.resolved h2 (c.check_grows hΓ h1).ne_nil hw hrw)
  | .ifStmt c t (some e), Γ, Δ, v, h, hΓ, hne, hr => by
      obtain ⟨_, Γ1, Γ2, h1, h2, h3⟩ := check_ifStmt_else.mp h
      have hΓ1 := (c.check_grows hΓ h1).ne_nil
      refine .append c.balanced hne (c.resolved h1 hΓ hne hr) (fun w hw hrw => ?_)
      exact .append t.balanced hw (t.resolved h2 hΓ1 hw hrw)
        (fun u hu hru => e.resolved h3 (t.check_grows hΓ1 h2).ne_nil hu hru)
  | .whileStmt c b, Γ, Δ, v, h, hΓ, hne, hr => by
      obtain ⟨_, Γ1, h1, h2⟩ := check_whileStmt.mp h
      exact .append c.balanced hne (c.resolved h1 hΓ hne hr)
        (fun w hw hrw => b.resolved h2 (c.check_grows hΓ h1).ne_nil hw hrw)
  | .printStmt e, Γ, Δ, v, h, hΓ, hne, hr => e.resolved h hΓ hne hr
  | .returnStmt none, Γ, Δ, v, h, _, _, hr => by cases h; exact hr
  | .returnStmt (some e), Γ, Δ, v, h, hΓ, hne, hr => e.resolved h hΓ hne hr

theorem stmts_resolved : ∀ (ss : List Statement) {Γ Δ : Layers Name} {v : NameView},
    checkStmts ss Γ = some Δ → Γ ≠ [] → v.scopes ≠ [] → Resolves Γ v →
    RunsResolved (eventsOfStmts ss) v Δ
  | [], Γ, Δ, v, h, _, _, hr => by cases h; exact hr
  | s :: ss, Γ, Δ, v, h, hΓ, hne, hr => by
      obtain ⟨Γ1, h1, h2⟩ := checkStmts_cons.mp h
      exact .append s.balanced hne (s.resolved h1 hΓ hne hr)
        (fun w hw hrw => stmts_resolved ss h2 (s.check_grows hΓ h1).ne_nil hw hrw)

theorem args_resolved : ∀ (es : List Expression) {Γ Δ : Layers Name} {v : NameView},
    checkArgs es Γ = some Δ → Γ ≠ [] → v.scopes ≠ [] → Resolves Γ v →
    RunsResolved (eventsOfArgs es) v Δ
  | [], Γ, Δ, v, h, _, _, hr => by cases h; exact hr
  | e :: es, Γ, Δ, v, h, hΓ, hne, hr => by
      obtain ⟨Γ1, h1, h2⟩ := checkArgs_cons.mp h
      exact .append e.balanced hne (e.resolved h1 hΓ hne hr)
        (fun w hw hrw => args_resolved es h2 (e.check_grows hΓ h1).ne_nil hw hrw)

end

end Walk

theorem program_resolved {p : Program} (hp : Accepted p) :
    Ensures (NameView.run p.events .init) (fun _ => True) NotUndeclared := by
  obtain ⟨Γ, h⟩ := accepted_iff.mp hp
  have hr : Resolves [[]] .init := fun x hx => by simp at hx
  exact (stmts_resolved p.stmts h (List.cons_ne_nil _ _) (List.cons_ne_nil _ _) hr).weaken
    (fun _ _ => trivial) (fun _ => id)

/-! ## When parameters clash -/

/-- Every function's parameters are different from each other and from the slots in scope at its header. -/
def ParamsFresh (es : List Event) : Prop :=
  ∀ a name params b, es = a ++ .enter name params :: b →
    params.Nodup ∧ ∀ x ∈ params, ¬ Layers.Visible x (live a)

/-- The only exceptions of a run are the two about names. -/
theorem step_error {v : NameView} {e : Event} {err : GenError} (h : v.step e = .error err) :
    (∃ x, err = .undeclaredVariable x) ∨
      ∃ x name params, err = .alreadyDeclared x ∧ e = .enter name params := by
  cases e with
  | read x =>
      rw [NameView.step] at h
      split at h
      · cases h
      · cases h; exact .inl ⟨x, rfl⟩
  | slot x => cases h
  | leave => cases h
  | enter name ps =>
      refine .inr ?_
      rw [NameView.step] at h
      generalize v.enter name = u at h
      suffices ∃ x, err = .alreadyDeclared x by
        obtain ⟨x, rfl⟩ := this
        exact ⟨x, name, ps, rfl, rfl⟩
      -- the first parameter that is declared already
      induction ps generalizing u with
      | nil => cases h
      | cons x ps ih =>
          unfold NameView.declareParams at h
          split at h
          · cases h; exact ⟨x, rfl⟩
          · exact ih _ h

/-- Events run to their end exactly if no parameter clashes, provided every name read resolves. -/
theorem run_ok_iff {es : List Event} (hres : Ensures (NameView.run es .init) (fun _ => True) NotUndeclared) :
    (∃ w, NameView.run es .init = .ok w) ↔ ParamsFresh es := by
  -- the parameters are declared in a new scope, so only names further out can clash
  have henter (u : NameView) (name : Option Name) (ps : List Name) :
      (∃ w, u.step (.enter name ps) = .ok w) ↔ ps.Nodup ∧ ∀ x ∈ ps, ¬ Layers.Visible x u.scopes := by
    have hs := NameView.enter_scopes name u
    rw [NameView.step, NameView.declareParams_ok_iff (by rw [hs]; exact List.cons_ne_nil _ _), hs]
    simp only [Layers.visible_open]
  constructor
  · rintro ⟨w, hw⟩ a name ps b rfl
    rw [NameView.run_append] at hw
    obtain ⟨u, hu, hrest⟩ := bind_ok_iff.mp hw
    obtain ⟨u', hu', _⟩ := bind_ok_iff.mp hrest
    have hlive : u.scopes = live a := NameView.run_scopes hu
    rw [← hlive]
    exact (henter u name ps).mp ⟨u', hu'⟩
  · intro hfresh
    cases hrun : NameView.run es .init with
    | ok w => exact ⟨w, rfl⟩
    | error err =>
        obtain ⟨a, ev, b, u, rfl, hu, hstep⟩ := NameView.run_error hrun
        -- an unknown name is excluded, so a parameter clashed
        rcases step_error hstep with ⟨x, rfl⟩ | ⟨x, name, ps, rfl, rfl⟩
        · exact absurd rfl (hres.of_error hrun x)
        · have hlive : u.scopes = live a := NameView.run_scopes hu
          obtain ⟨w, hw⟩ := (henter u name ps).mpr (hlive ▸ hfresh a name ps b rfl)
          rw [hstep] at hw
          cases hw

section Resolution

variable {M : Llvm} {L : Lowering}

/-- **Every name read resolves.** On an accepted program the generator never throws
    `use of undeclared variable`. -/
theorem variables_resolve {p : Program} (hp : Accepted p) (x : Name) (g : CodeGenerator) :
    CodeGenerator.visitProgram M L p ≠ .error ⟨.undeclaredVariable x, g⟩ := by
  intro h
  have hn := CodeGenerator.visitProgram_names (M := M) (L := L) p
  rw [h] at hn
  exact (program_resolved hp).of_error hn.symm x rfl

/-- `fact = func(n) : fact { if (n == 0) { return 1; } n * fact(n - 1); }; print fact(5);` -/
def factorial : Program where
  stmts := [
    .exprStmt (.assignmentExpr "fact" (.func (some "fact") ["n"] (.blockExpr [
      .ifStmt (.binaryOperator .eq (.var "n") (.number 0))
        (.blockExpr [.returnStmt (some (.number 1))]) none,
      .exprStmt (.binaryOperator .mul (.var "n")
        (.call (.var "fact") [.binaryOperator .sub (.var "n") (.number 1)]))]))),
    .printStmt (.call (.var "fact") [.number 5])]

theorem variables_resolve_factorial :
    CodeGenerator.visitProgram .standard .source factorial ≠ .error ⟨.undeclaredVariable "n", .init⟩ :=
  variables_resolve (by decide) _ _

/-- On an accepted program the generator finishes exactly if no parameter clashes. -/
theorem visitProgram_ok_iff {p : Program} (hp : Accepted p) :
    (∃ g, CodeGenerator.visitProgram M L p = .ok g) ↔ ParamsFresh p.events := by
  rw [← run_ok_iff (program_resolved hp), ← CodeGenerator.visitProgram_names (M := M) (L := L)]
  cases CodeGenerator.visitProgram M L p with
  | ok g => exact ⟨fun _ => ⟨_, rfl⟩, fun _ => ⟨g, rfl⟩⟩
  | error t => exact ⟨fun ⟨_, h⟩ => (by cases h), fun ⟨_, h⟩ => (by cases h)⟩

/-- **When parameters clash.** On an accepted program `declare` throws nothing exactly if every function's
    parameters are different from each other and from the slots still in scope. -/
theorem params_clash_iff {p : Program} (hp : Accepted p) :
    (∀ x g, CodeGenerator.visitProgram M L p ≠ .error ⟨.alreadyDeclared x, g⟩) ↔
      ParamsFresh p.events := by
  rw [← visitProgram_ok_iff (M := M) (L := L) hp]
  constructor
  · intro h
    cases hr : CodeGenerator.visitProgram M L p with
    | ok g => exact ⟨g, rfl⟩
    | error t =>
        -- the other exceptions do not occur
        have hn := CodeGenerator.visitProgram_names (M := M) (L := L) p
        rw [hr] at hn
        obtain ⟨a, ev, b, u, _, _, hstep⟩ := NameView.run_error hn.symm
        rcases step_error hstep with ⟨x, hx⟩ | ⟨x, _, _, hx, _⟩
        · exact absurd hx ((program_resolved hp).of_error hn.symm x)
        · exact absurd (by rw [hr, ← hx]) (h x t.state)
  · rintro ⟨g, hg⟩ x g' h
    rw [hg] at h
    cases h

/-- `x = 1; f = func(x) { x; };` -/
def shadowingParam : Program where
  stmts := [
    .exprStmt (.assignmentExpr "x" (.number 1)),
    .exprStmt (.assignmentExpr "f" (.func none ["x"] (.blockExpr [.exprStmt (.var "x")])))]

/-- The one parameter is new. -/
theorem params_clash_iff_factorial :
    ¬ ∃ x g, CodeGenerator.visitProgram .standard .source factorial = .error ⟨.alreadyDeclared x, g⟩ := by
  have hp : Accepted factorial := by decide
  have hfresh : ParamsFresh factorial.events := (run_ok_iff (program_resolved hp)).mp ⟨_, rfl⟩
  rintro ⟨x, g, h⟩
  exact (params_clash_iff hp).mpr hfresh x g h

/-- A parameter named like a variable outside is refused. -/
theorem params_clash_shadowing : ¬ ∀ p, Accepted p → ∀ x g,
    CodeGenerator.visitProgram .standard .source p ≠ .error ⟨.alreadyDeclared x, g⟩ := by
  intro h
  have hn := CodeGenerator.visitProgram_names (M := .standard) (L := .source) shadowingParam
  have hrun : NameView.run shadowingParam.events .init = .error (.alreadyDeclared "x") := by rfl
  rw [hrun] at hn
  cases hr : CodeGenerator.visitProgram .standard .source shadowingParam with
  | ok g => rw [hr] at hn; cases hn
  | error t =>
      rw [hr] at hn
      injection hn with he
      exact h shadowingParam (by decide) "x" t.state (by rw [hr, ← he])

end Resolution

end ParaCL
