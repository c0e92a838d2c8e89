import ParaCL.Parser.Grammar
import Mathlib.Tactic.FinCases

/-!
# `Parser.Coarse` — a coarse reading of token sequences

A mode and a stack of open brackets are enough to tell many token sequences from programs: what may come
after the token at hand, and what a closing bracket closes. `run` goes over the tokens with them. It lets
more through than the grammar, but everything that the grammar derives passes (`Derives.coarse`).
-/

namespace ParaCL

namespace Coarse

/-- What is expected next. -/
inductive Mode where
  | stmt | afterBody
  | operand | args | ret
  | ident | done
  | header | body
  | func | params | signature | funcName
  deriving DecidableEq

/-- What a bracket has opened: an expression or a condition in parentheses, a block that is an expression, or
    the body of a branch or a loop. -/
inductive Bracket where
  | paren | cond | block | body

/-- A statement may begin, or the input may end. -/
def Mode.isStmt : Mode → Bool
  | .stmt | .afterBody => true
  | _ => false

/-- An operand may begin. -/
def Mode.starts : Mode → Bool
  | .stmt | .afterBody | .operand | .args | .ret => true
  | _ => false

/-- An operand has ended. -/
def Mode.isOperand : Mode → Bool
  | .ident | .done => true
  | _ => false

abbrev State : Type := Mode × List Bracket

def startOperand (σ : List Bracket) : Token → Option State
  | .tokId _ => some (.ident, σ)
  | .tokNumber _ | .tokInput => some (.done, σ)
  | .tokLeftParen => some (.operand, .paren :: σ)
  | .tokLeftBrace => some (.stmt, .block :: σ)
  | .tokFunc => some (.func, σ)
  | .tokPlus | .tokMinus | .tokNot => some (.operand, σ)
  | _ => none

def closeParen : List Bracket → Option State
  | .paren :: σ => some (.done, σ)
  | .cond :: σ => some (.body, σ)
  | _ => none

/-- A brace that closes nothing is let through. -/
def closeBrace : List Bracket → Option State
  | .block :: σ => some (.done, σ)
  | .body :: σ => some (.afterBody, σ)
  | [] => some (.stmt, [])
  | _ => none

def afterOperand (σ : List Bracket) : Token → Option State
  | .tokSemicolon => some (.stmt, σ)
  | .tokComma => some (.operand, σ)
  | .tokRightParen => closeParen σ
  | .tokLeftParen => some (.args, .paren :: σ)
  | .tokLogOr | .tokLogAnd | .tokAnd | .tokXor | .tokOr | .tokEq | .tokNeq | .tokLess | .tokLessOrEq
  | .tokGreater | .tokGreaterOrEq | .tokPlus | .tokMinus | .tokMul | .tokDiv | .tokRemDiv =>
      some (.operand, σ)
  | _ => none

/-- What begins a statement and no operand. -/
def startOther (σ : List Bracket) : Token → Option State
  | .tokSemicolon => some (.stmt, σ)
  | .tokIf | .tokWhile => some (.header, σ)
  | .tokPrint => some (.operand, σ)
  | .tokReturn => some (.ret, σ)
  | .tokRightBrace => closeBrace σ
  | _ => none

def startStmt (σ : List Bracket) (t : Token) : Option State := (startOperand σ t).or (startOther σ t)

/-- One token. -/
def step (σ : List Bracket) (m : Mode) (t : Token) : Option State :=
  match m with
  | .stmt => startStmt σ t
  | .afterBody => if t = .tokElse then some (.body, σ) else startStmt σ t
  | .operand => startOperand σ t
  | .args => if t = .tokRightParen then closeParen σ else startOperand σ t
  | .ret => if t = .tokSemicolon then some (.stmt, σ) else startOperand σ t
  | .ident => if t = .tokAssign then some (.operand, σ) else afterOperand σ t
  | .done => afterOperand σ t
  | .header => if t = .tokLeftParen then some (.operand, .cond :: σ) else none
  | .body => if t = .tokLeftBrace then some (.stmt, .body :: σ) else none
  | .func => if t = .tokLeftParen then some (.params, σ) else none
  | .params =>
    match t with
    | .tokId _ | .tokComma => some (.params, σ)
    | .tokRightParen => some (.signature, σ)
    | _ => none
  | .signature =>
    match t with
    | .tokColon => some (.funcName, σ)
    | .tokLeftBrace => some (.stmt, .block :: σ)
    | _ => none
  | .funcName =>
    match t with
    | .tokId _ => some (.signature, σ)
    | _ => none

def run : State → List Token → Option State
  | s, [] => some s
  | s, t :: ts => (step s.2 s.1 t).bind (fun s' => run s' ts)

section Run

variable {s s' r : State} {ts us : List Token} {t : Token} {σ : List Bracket} {m : Mode}

theorem run_append (h : run s ts = some r) : run s (ts ++ us) = run r us := by
  induction ts generalizing s with
  | nil => cases h; rfl
  | cons t ts ih =>
      rw [run] at h
      rw [List.cons_append, run]
      cases hs : step s.2 s.1 t with
      | none => rw [hs] at h; cases h
      | some s2 => rw [hs] at h; exact ih h

theorem run_cons (h : step s.2 s.1 t = some r) : run s (t :: ts) = run r ts := by
  rw [run, h]
  rfl

theorem startStmt_operand (h : startOperand σ t = some s) : startStmt σ t = some s := by
  rw [startStmt, h]
  rfl

theorem step_stmt (hm : m.isStmt = true) (h : startStmt σ t = some s) : step σ m t = some s := by
  cases m with
  | stmt => exact h
  | afterBody =>
      rw [step, if_neg]
      · exact h
      · rintro rfl
        cases h
  | _ => cases hm

/-- Where an operand may begin, the modes do not differ in how it does. -/
theorem step_starts (hm : m.starts = true) (h : startOperand σ t = some s) : step σ m t = some s := by
  cases m with
  | stmt | afterBody => exact step_stmt rfl (startStmt_operand h)
  | operand => exact h
  | args | ret =>
      rw [step, if_neg]
      · exact h
      · rintro rfl
        cases h
  | _ => cases hm

theorem step_operand (hm : m.isOperand = true) (h : afterOperand σ t = some s) : step σ m t = some s := by
  cases m with
  | ident =>
      rw [step, if_neg]
      · exact h
      · rintro rfl
        cases h
  | done => exact h
  | _ => cases hm

theorem starts_of_isStmt (hm : m.isStmt = true) : m.starts = true := by
  cases m with
  | stmt | afterBody => rfl
  | _ => cases hm

theorem operator_step {l : Level} {op : BinaryOperators} (h : (t, op) ∈ l.operators) (σ : List Bracket) :
    afterOperand σ t = some (.operand, σ) := by
  have hall : ∀ p ∈ l.operators, afterOperand σ p.1 = some (.operand, σ) := by
    intro p hp
    cases l <;> fin_cases hp <;> rfl
  exact hall _ h

theorem sign_step {op : UnaryOperators} (h : (t, op) ∈ unaryOperators) (σ : List Bracket) :
    startOperand σ t = some (.operand, σ) := by
  have hall : ∀ p ∈ unaryOperators, startOperand σ p.1 = some (.operand, σ) := by
    intro p hp
    fin_cases hp <;> rfl
  exact hall _ h

end Run

/-- From a mode of one kind to one of another, with the same brackets open. -/
def Leads (before after : Mode → Bool) (ts : List Token) : Prop :=
  ∀ σ m, before m = true → ∃ m', after m' = true ∧ run (m, σ) ts = some (m', σ)

/-- After the arguments, if there are any. -/
def Mode.endsArgs (m : Mode) : Bool := m.isOperand || m = .args

/-- After the value of a `return`, if there is one. -/
def Mode.endsReturn (m : Mode) : Bool := m.isOperand || m = .ret

/-- The tokens of a nonterminal, in passing. -/
def Passes : Nonterminal → List Token → Prop
  | .program, ts => ∃ us m, ts = us ++ [.tokEof] ∧ m.isStmt = true ∧ run (.stmt, []) us = some (m, [])
  | .toplevelStmtList, ts => ∃ m, m.isStmt = true ∧ run (.stmt, []) ts = some (m, [])
  | .toplevelStatement, ts =>
      ∀ m : Mode, m.isStmt = true → ∃ m', m'.isStmt = true ∧ run (m, []) ts = some (m', [])
  | .stmtList, ts | .statement, ts | .emptyStmt, ts | .exprStmt, ts | .ifStmt, ts | .whileStmt, ts =>
      Leads Mode.isStmt Mode.isStmt ts
  | .printStmt, ts => Leads Mode.isStmt Mode.isOperand ts
  | .returnStmt, ts => Leads Mode.isStmt Mode.endsReturn ts
  | .expression, ts | .assignmentExpr, ts | .level _, ts | .postfixExpr, ts | .primary, ts | .inputExpr, ts
  | .functionExpr, ts => Leads Mode.starts Mode.isOperand ts
  | .blockExpr, ts => Leads Mode.starts Mode.isOperand ts ∧ Leads (· = .body) (· = .afterBody) ts
  | .optArgList, ts => Leads (· = .args) Mode.endsArgs ts
  | .argList, ts => Leads (· = .args) Mode.isOperand ts
  | .optParamList, ts | .paramList, ts => Leads (· = .params) (· = .params) ts
  | .optFuncName, ts => Leads (· = .signature) (· = .signature) ts

section Leads

variable {before mid after : Mode → Bool} {ts us : List Token} {t : Token}

theorem Leads.append (h : Leads before mid ts) (h' : Leads mid after us) : Leads before after (ts ++ us) := by
  intro σ m hm
  obtain ⟨m1, hm1, h1⟩ := h σ m hm
  obtain ⟨m2, hm2, h2⟩ := h' σ m1 hm1
  exact ⟨m2, hm2, by rw [run_append h1, h2]⟩

theorem Leads.one {n : Mode} (h : ∀ σ m, before m = true → step σ m t = some (n, σ)) (hn : after n = true) :
    Leads before after [t] :=
  fun σ m hm => ⟨n, hn, by rw [run_cons (h σ m hm), run]⟩

theorem Leads.weaken {before' after' : Mode → Bool} (h : Leads before after ts)
    (hb : ∀ m, before' m = true → before m = true) (ha : ∀ m, after m = true → after' m = true) :
    Leads before' after' ts := by
  intro σ m hm
  obtain ⟨m', hm', hr⟩ := h σ m (hb m hm)
  exact ⟨m', ha m' hm', hr⟩

/-- Something between brackets. -/
theorem Leads.bracket {b : Bracket} {i n : Mode} {c : Token} (h : Leads (· = i) mid ts)
    (ho : ∀ σ m, before m = true → step σ m t = some (i, b :: σ))
    (hc : ∀ σ m, mid m = true → step (b :: σ) m c = some (n, σ)) (hn : after n = true) :
    Leads before after ([t] ++ ts ++ [c]) := by
  intro σ m hm
  obtain ⟨m1, hm1, h1⟩ := h (b :: σ) i (decide_eq_true rfl)
  refine ⟨n, hn, ?_⟩
  rw [List.append_assoc, List.singleton_append, run_cons (ho σ m hm), run_append h1,
    run_cons (hc σ m1 hm1), run]

end Leads

/-- The tokens of a binary expression, a call or a list have the operand before them in common. -/
theorem Leads.operator {before : Mode → Bool} {ts us : List Token} {t : Token}
    (h : Leads before Mode.isOperand ts) (ht : ∀ σ, afterOperand σ t = some (.operand, σ))
    (h' : Leads Mode.starts Mode.isOperand us) : Leads before Mode.isOperand (ts ++ [t] ++ us) := by
  have hone : Leads Mode.isOperand (· = .operand) [t] :=
    .one (fun σ m hm => step_operand hm (ht σ)) (decide_eq_true rfl)
  refine (h.append hone).append (h'.weaken (fun m hm => ?_) (fun _ => id))
  rw [of_decide_eq_true hm]
  rfl

/-- A statement that a semicolon ends. -/
theorem Leads.semicolon {before : Mode → Bool} {ts : List Token} (h : Leads before Mode.isOperand ts) :
    Leads before Mode.isStmt (ts ++ [.tokSemicolon]) :=
  h.append (.one (fun _ _ hm => step_operand hm rfl) rfl)

/-- A token in front. -/
theorem Leads.prepend {before after : Mode → Bool} {ts : List Token} {t : Token}
    (ht : ∀ σ m, before m = true → step σ m t = some (.operand, σ)) (h : Leads Mode.starts after ts) :
    Leads before after ([t] ++ ts) := by
  have hone : Leads before (· = .operand) [t] := .one ht (decide_eq_true rfl)
  refine hone.append (h.weaken (fun m hm => ?_) (fun _ => id))
  rw [of_decide_eq_true hm]
  rfl

theorem isStmt_of_afterBody (m : Mode) (hm : decide (m = .afterBody) = true) : m.isStmt = true := by
  rw [of_decide_eq_true hm]
  rfl

/-- A condition and what depends on it. -/
theorem condition_leads {ts us : List Token} {t : Token}
    (ht : ∀ σ m, m.isStmt = true → step σ m t = some (.header, σ)) (hc : Leads Mode.starts Mode.isOperand ts)
    (h : Leads (· = .body) Mode.isStmt us) :
    Leads Mode.isStmt Mode.isStmt ([t, .tokLeftParen] ++ ts ++ [.tokRightParen] ++ us) := by
  intro σ m hm
  obtain ⟨m1, hm1, h1⟩ := hc (.cond :: σ) .operand rfl
  obtain ⟨m2, hm2, h2⟩ := h σ .body (decide_eq_true rfl)
  refine ⟨m2, hm2, ?_⟩
  simp only [List.append_assoc, List.cons_append, List.nil_append]
  rw [run_cons (ht σ m hm), run_cons (r := (.operand, .cond :: σ)) rfl, run_append h1,
    run_cons (step_operand (s := (.body, σ)) hm1 rfl), h2]

end Coarse

open Coarse in
/-- **What the grammar derives passes.** -/
theorem Derives.coarse {N : Nonterminal} {ts : List Token} {s s' : ParserState} {v : N.Value}
    (h : Derives false N ts s v s') : Passes N ts := by
  induction h with
  | program _ ih =>
      obtain ⟨m, hm, hr⟩ := ih
      exact ⟨_, m, rfl, hm, hr⟩
  | toplevelNil => exact ⟨.stmt, rfl, rfl⟩
  | toplevelSnoc _ _ ih1 ih2 =>
      obtain ⟨m, hm, hr⟩ := ih1
      obtain ⟨m', hm', hr'⟩ := ih2 m hm
      exact ⟨m', hm', by rw [run_append hr, hr']⟩
  | toplevelStatement _ ih => exact fun m hm => ih [] m hm
  | toplevelBrace => exact fun m hm => ⟨.stmt, rfl, by rw [run_cons (step_stmt hm rfl), run]⟩
  | stmtNil => exact fun σ m hm => ⟨m, hm, rfl⟩
  | stmtSnoc _ _ ih1 ih2 => exact Leads.append ih1 ih2
  | statementPrint _ ih => exact Leads.semicolon ih
  -- with or without a value: the `;` comes from one mode or the other
  | statementReturn _ ih =>
      refine Leads.append ih (.one (n := .stmt) (fun σ m hm => ?_) rfl)
      rcases Bool.or_eq_true_iff.mp hm with hm | hm
      · exact step_operand hm rfl
      · rw [of_decide_eq_true hm]
        rfl
  | statementError hr | ifError hr | ifParenError hr | whileError hr | whileParenError hr => cases hr
  | emptyStmt => exact .one (fun _ _ hm => step_stmt hm rfl) rfl
  | exprStmt _ ih => exact (Leads.semicolon ih).weaken (fun _ => starts_of_isStmt) (fun _ => id)
  -- the body may be followed by `else`, so its last mode is one of its own
  | ifThen _ _ ihc iht =>
      have hbody := iht.2.weaken (fun _ => id) isStmt_of_afterBody
      exact condition_leads (fun _ _ hm => step_stmt hm rfl) ihc hbody
  | ifThenElse _ _ _ ihc iht ihe =>
      have helse : Leads (· = .afterBody) (· = .body) [.tokElse] :=
        .one (fun σ m hm => by rw [of_decide_eq_true hm]; rfl) (decide_eq_true rfl)
      have hboth := (iht.2.append helse).append (ihe.2.weaken (fun _ => id) isStmt_of_afterBody)
      have hif := condition_leads (t := .tokIf) (fun _ _ hm => step_stmt hm rfl) ihc hboth
      simp only [List.append_assoc] at hif ⊢
      exact hif
  | whileStmt _ _ ihc ihb =>
      have hbody := ihb.2.weaken (fun _ => id) isStmt_of_afterBody
      exact condition_leads (fun _ _ hm => step_stmt hm rfl) ihc hbody
  | printStmt _ ih => exact Leads.prepend (fun _ _ hm => step_stmt hm rfl) ih
  | returnNone => exact .one (n := .ret) (fun _ _ hm => step_stmt hm rfl) rfl
  | returnSome _ ih =>
      have hret : Leads Mode.isStmt (· = .ret) [.tokReturn] :=
        .one (fun _ _ hm => step_stmt hm rfl) (decide_eq_true rfl)
      refine hret.append (ih.weaken (fun m hm => ?_) (fun m hm => ?_))
      · rw [of_decide_eq_true hm]
        rfl
      · rw [Mode.endsReturn, hm]
        rfl
  | expression _ ih | assignmentOr _ ih | levelOperand _ _ ih | unaryPostfix _ ih | postfixPrimary _ ih
  | primaryFunction _ ih | primaryInput _ ih | optParamSome _ ih | statementIf _ ih | statementWhile _ ih
  | statementExpr _ ih | statementEmpty _ ih => exact ih
  | primaryBlock _ ih => exact ih.1
  | assignment _ _ ih =>
      intro σ m hm
      obtain ⟨m', hm', hr⟩ := ih σ .operand rfl
      refine ⟨m', hm', ?_⟩
      rw [List.cons_append, List.singleton_append, run_cons (step_starts hm rfl)]
      exact (run_cons rfl).trans hr
  | levelOperator _ hop _ _ iha ihb => exact Leads.operator iha (operator_step hop) ihb
  | unaryOperator hop _ ih => exact Leads.prepend (fun σ _ hm => step_starts hm (sign_step hop σ)) ih
  | postfixCall _ _ ih iha =>
      have hargs : Leads Mode.isOperand Mode.isOperand _ :=
        Leads.bracket (t := .tokLeftParen) (c := .tokRightParen) (n := .done) iha
          (fun _ _ hm => step_operand hm rfl) (fun σ m hm => ?_) rfl
      · have hall := Leads.append ih hargs
        simp only [List.append_assoc] at hall ⊢
        exact hall
      · rcases Bool.or_eq_true_iff.mp hm with hm | hm
        · exact step_operand hm rfl
        · rw [of_decide_eq_true hm]
          rfl
  | optArgNone =>
      intro σ m hm
      refine ⟨m, ?_, rfl⟩
      rw [of_decide_eq_true hm]
      rfl
  | optArgSome _ ih =>
      refine ih.weaken (fun _ => id) (fun m hm => ?_)
      rw [Mode.endsArgs, hm]
      rfl
  | argOne _ ih =>
      refine ih.weaken (fun m hm => ?_) (fun _ => id)
      rw [of_decide_eq_true hm]
      rfl
  | argSnoc _ _ ih1 ih2 => exact Leads.operator ih1 (fun _ => rfl) ih2
  | primaryNumber | inputExpr => exact .one (n := .done) (fun _ _ hm => step_starts hm rfl) rfl
  | primaryId => exact .one (n := .ident) (fun _ _ hm => step_starts hm rfl) rfl
  | primaryParen _ ih =>
      refine Leads.bracket (i := .operand) (ih.weaken (fun m hm => ?_) (fun _ => id))
        (fun _ _ hm => step_starts hm rfl) (fun _ _ hm => step_operand (s := (.done, _)) hm rfl) rfl
      rw [of_decide_eq_true hm]
      rfl
  -- a block stands in an expression and as a body; only the mode behind the `}` differs
  | blockExpr _ _ ih =>
      have hstart : Leads (· = .stmt) Mode.isStmt _ := Leads.weaken ih (fun m hm => ?_) (fun _ => id)
      · constructor
        · exact hstart.bracket (fun _ _ hm => step_starts hm rfl)
            (fun _ _ hm => step_stmt (s := (.done, _)) hm rfl) rfl
        refine hstart.bracket (b := .body) (fun _ m hm => ?_)
          (fun _ _ hm => step_stmt (s := (.afterBody, _)) hm rfl) (decide_eq_true rfl)
        rw [of_decide_eq_true hm]
        rfl
      · rw [of_decide_eq_true hm]
        rfl
  -- parameters, name and body, each from where the one before ended
  | functionExpr _ _ _ _ ihps ihn ih =>
      intro σ m hm
      obtain ⟨m1, hm1, h1⟩ := ihps σ .params (decide_eq_true rfl)
      obtain ⟨m2, hm2, h2⟩ := ihn σ .signature (decide_eq_true rfl)
      obtain ⟨m3, hm3, h3⟩ := ih (.block :: σ) .stmt rfl
      rw [of_decide_eq_true hm1] at h1
      rw [of_decide_eq_true hm2] at h2
      refine ⟨.done, rfl, ?_⟩
      simp only [List.append_assoc, List.cons_append, List.nil_append]
      rw [run_cons (step_starts (s := (.func, σ)) hm rfl), run_cons (r := (.params, σ)) rfl, run_append h1,
        run_cons (r := (.signature, σ)) rfl, run_append h2, run_cons (r := (.stmt, .block :: σ)) rfl,
        run_append h3, run_cons (step_stmt (s := (.done, σ)) hm3 rfl), run]
  | optParamNone | funcNameNone => exact fun _ m hm => ⟨m, hm, rfl⟩
  | paramOne =>
      refine .one (n := .params) (fun σ m hm => ?_) (decide_eq_true rfl)
      rw [of_decide_eq_true hm]
      rfl
  | paramSnoc _ _ ih =>
      refine Leads.append ih (fun σ m hm => ⟨.params, decide_eq_true rfl, ?_⟩)
      rw [of_decide_eq_true hm]
      rfl
  | funcNameSome =>
      intro σ m hm
      refine ⟨.signature, decide_eq_true rfl, ?_⟩
      rw [of_decide_eq_true hm]
      rfl

end ParaCL
