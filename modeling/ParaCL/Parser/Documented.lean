import ParaCL.Parser.Coarse
import ParaCL.Parser.Diagnostics
import ParaCL.Parser.Readme

/-!
# `Parser.Documented` — which documented programs are accepted

`readable` is not only enough for a documented program to be accepted. What the parser accepts is read
coarsely along the derivation of the README, and every place where the README goes beyond `parser.y` and
`lexer.l` gets stuck there: a body without braces, a block without a semicolon, a keyword for a name, `~` and
a number beyond `INT_MAX`.
-/

namespace ParaCL

open Lib Bison ScopeEvent

namespace Readme

open Coarse

/-! ## The tokens of the texts -/

/-- The tokens up to the first terminal that is none. -/
def known : List (List Char) → List Token
  | [] => []
  | l :: ls =>
      match tokenOf l with
      | some t => t :: known ls
      | none => []

/-- The tokens known are read up to the end of a statement. -/
def passes (s : State) (texts : List (List Char)) : Bool := (run s (known texts)).any (fun s' => s'.1.isStmt)

section Passes

variable {l : List Char} {ls : List (List Char)} {t : Token} {m : Mode} {σ : List Bracket} {s : State}

theorem known_some (h : tokenOf l = some t) : known (l :: ls) = t :: known ls := by
  rw [known, h]

theorem known_none (h : tokenOf l = none) : known (l :: ls) = [] := by
  rw [known, h]

/-- The tokens of a text are all known. -/
theorem known_of_written {ts : List Token} (h : Written ts ls) : known ls = ts := by
  induction ls generalizing ts with
  | nil => exact (List.map_eq_nil_iff.mp h.symm).symm
  | cons l ls ih =>
      cases ts with
      | nil => cases h
      | cons t ts =>
          obtain ⟨ht, hts⟩ := List.cons.inj h
          rw [known_some ht, ih hts]

theorem passes_step (ht : tokenOf l = some t) (hs : step σ m t = some s) :
    passes (m, σ) (l :: ls) = passes s ls := by
  rw [passes, known_some ht, run_cons hs, passes]

theorem passes_stuck (ht : tokenOf l = some t) (hs : step σ m t = none) : passes (m, σ) (l :: ls) = false := by
  rw [passes, known_some ht, Coarse.run, hs]
  rfl

theorem passes_unknown (ht : tokenOf l = none) (hm : m.isStmt = false) : passes (m, σ) (l :: ls) = false := by
  rw [passes, known_none ht, Coarse.run]
  exact hm

/-- A name at the place of an operand is no keyword: only a bracket goes on after `func`. -/
theorem Var.operand {x : Var} (hrest : ls.head? ≠ some ['('])
    (h : passes (.operand, σ) (x.name.toList :: ls) = true) :
    keywords.contains x.name.toList = false ∧ passes (.ident, σ) ls = true := by
  cases hk : keywords.contains x.name.toList with
  | false =>
      rw [passes_step (s := (.ident, σ)) (x.token hk) rfl] at h
      exact ⟨rfl, h⟩
  | true =>
      obtain ⟨t, ht, htok⟩ := x.keyword hk
      have hfunc : passes (.func, σ) ls = false := by
        cases ls with
        | nil => rfl
        | cons l ls =>
            cases hl : tokenOf l with
            | none => exact passes_unknown hl rfl
            | some u =>
                refine passes_stuck hl (if_neg ?_)
                rintro rfl
                exact hrest (congrArg some (lexeme_of_tokenOf hl).1.symm)
      have hno : passes (.operand, σ) (x.name.toList :: ls) = false := by
        fin_cases ht
        all_goals first
          | exact passes_stuck htok rfl
          | exact (passes_step (s := (.func, σ)) htok rfl).trans hfunc
      rw [hno] at h
      cases h

/-- A name before `=` at the start of a statement is no keyword. -/
theorem Var.assigned {x : Var} (hm : m.isStmt = true)
    (h : passes (m, σ) (x.name.toList :: ['='] :: ls) = true) :
    keywords.contains x.name.toList = false ∧ passes (.operand, σ) ls = true := by
  have hassign : tokenOf ['='] = some .tokAssign := rfl
  cases hk : keywords.contains x.name.toList with
  | false =>
      rw [passes_step (s := (.ident, σ)) (x.token hk) (step_stmt hm rfl),
        passes_step (s := (.operand, σ)) hassign rfl] at h
      exact ⟨rfl, h⟩
  | true =>
      obtain ⟨t, ht, htok⟩ := x.keyword hk
      have hno : passes (m, σ) (x.name.toList :: ['='] :: ls) = false := by
        rw [passes, known_some htok, known_some hassign]
        cases m with
        | stmt | afterBody => fin_cases ht <;> rfl
        | _ => cases hm
      rw [hno] at h
      cases h

end Passes

/-! ## Along the derivations -/

section Trees

variable {σ : List Bracket} {m : Mode} {rest : List (List Char)}

theorem operator_passes {l : Level} {op : List Char} (h : op ∈ operators l) (hm : m.isOperand = true) :
    passes (m, σ) (op :: rest) = passes (.operand, σ) rest := by
  obtain ⟨t, b, hop, ht⟩ := operator_token h
  exact passes_step ht (step_operand hm (operator_step hop σ))

theorem operators_ne_paren {l : Level} {op : List Char} (h : op ∈ operators l) : op ≠ ['('] := by
  have hall : ∀ op ∈ operators l, op ≠ ['('] := by cases l <;> decide
  exact hall op h

/-- **Where an expression is accepted it keeps to what the parser takes.** -/
theorem Expr.readable_of_passes {p : Place} (e : Expr p) (hrest : rest.head? ≠ some ['('])
    (h : passes (.operand, σ) (e.texts ++ rest) = true) :
    e.readable = true ∧ ∃ m, m.isOperand = true ∧ passes (m, σ) rest = true := by
  induction e generalizing σ rest with
  | ofOr e ih | operand _ e ih | ofPrimary e ih => exact ih hrest h
  | assignment x e ih =>
      have hassign : tokenOf ['='] = some .tokAssign := rfl
      have hname : passes (.operand, σ) (x.name.toList :: ['='] :: (e.texts ++ rest)) = true := h
      obtain ⟨hx, h⟩ := Var.operand (by simp) hname
      rw [passes_step (s := (.operand, σ)) hassign rfl] at h
      obtain ⟨he, hm⟩ := ih hrest h
      refine ⟨?_, hm⟩
      rw [Expr.readable, hx, he]
      rfl
  | operator _ op hop a b iha ihb =>
      have htexts : (a.texts ++ [op] ++ b.texts) ++ rest = a.texts ++ op :: (b.texts ++ rest) := by simp
      rw [Expr.texts, htexts] at h
      have hne : (op :: (b.texts ++ rest)).head? ≠ some ['('] :=
        fun hc => operators_ne_paren hop (Option.some.inj hc)
      obtain ⟨ha, m, hm, h⟩ := iha hne h
      rw [operator_passes hop hm] at h
      obtain ⟨hb, hm'⟩ := ihb hrest h
      refine ⟨?_, hm'⟩
      rw [Expr.readable, ha, hb]
      rfl
  -- `~` is no token, so nothing that begins with it passes
  | sign op hop e ih =>
      by_cases hne : op = ['~']
      · subst hne
        have hno : passes (.operand, σ) (['~'] :: (e.texts ++ rest)) = false := passes_unknown rfl rfl
        cases hno.symm.trans h
      · obtain ⟨t, u, hop', ht⟩ := sign_token hop hne
        have hstep : passes (.operand, σ) (op :: (e.texts ++ rest)) = passes (.operand, σ) (e.texts ++ rest) :=
          passes_step ht (sign_step hop' σ)
        obtain ⟨he, hm⟩ := ih hrest (hstep.symm.trans h)
        refine ⟨?_, hm⟩
        rw [Expr.readable, he, decide_eq_true hne]
        rfl
  | paren e ih =>
      have hopen : tokenOf ['('] = some .tokLeftParen := rfl
      have hclose : tokenOf [')'] = some .tokRightParen := rfl
      have htexts : ([['(']] ++ e.texts ++ [[')']]) ++ rest = ['('] :: (e.texts ++ [')'] :: rest) := by simp
      rw [Expr.texts, htexts, passes_step (s := (.operand, .paren :: σ)) hopen rfl] at h
      obtain ⟨he, m, hm, h⟩ := ih (by simp) h
      rw [passes_step (s := (.done, σ)) hclose (step_operand hm rfl)] at h
      exact ⟨he, .done, rfl, h⟩
  | var x =>
      obtain ⟨hx, h⟩ := Var.operand (x := x) hrest h
      refine ⟨?_, .ident, rfl, h⟩
      rw [Expr.readable, hx]
      rfl
  -- a literal beyond `int` throws in the lexer
  | number n =>
      have htoken := n.token
      by_cases hn : decimal n.digits ≤ intMax
      · rw [if_pos hn] at htoken
        exact ⟨decide_eq_true hn, .done, rfl, (passes_step (s := (.done, σ)) htoken rfl).symm.trans h⟩
      · rw [if_neg hn] at htoken
        have hno : passes (.operand, σ) (n.digits :: rest) = false := passes_unknown htoken rfl
        cases hno.symm.trans h

/-- A condition in parentheses, behind `if` or `while`. -/
theorem condition_passes {e : Expr .assignmentExpr} {l : List Char} {t : Token} (ht : tokenOf l = some t)
    (hstep : step σ m t = some (.header, σ))
    (h : passes (m, σ) (l :: ['('] :: (e.texts ++ [')'] :: rest)) = true) :
    e.readable = true ∧ passes (.body, σ) rest = true := by
  have hopen : tokenOf ['('] = some .tokLeftParen := rfl
  have hclose : tokenOf [')'] = some .tokRightParen := rfl
  rw [passes_step ht hstep, passes_step (s := (.operand, .cond :: σ)) hopen rfl] at h
  obtain ⟨he, m', hm', h⟩ := e.readable_of_passes (by simp) h
  rw [passes_step (s := (.body, σ)) hclose (step_operand hm' rfl)] at h
  exact ⟨he, h⟩

/-- An expression that a semicolon ends. -/
theorem semicolon_passes {e : Expr .assignmentExpr}
    (h : passes (.operand, σ) (e.texts ++ [';'] :: rest) = true) :
    e.readable = true ∧ ∃ m', m'.isStmt = true ∧ passes (m', σ) rest = true := by
  have hsemi : tokenOf [';'] = some .tokSemicolon := rfl
  obtain ⟨he, m', hm', h⟩ := e.readable_of_passes (by simp) h
  rw [passes_step (s := (.stmt, σ)) hsemi (step_operand hm' rfl)] at h
  exact ⟨he, .stmt, rfl, h⟩

/-- Only a brace opens a body. -/
theorem body_head {l : List Char} (h : passes (.body, σ) (l :: rest) = true) : l = ['\x7b'] := by
  by_contra hne
  have hno : passes (.body, σ) (l :: rest) = false := by
    cases hl : tokenOf l with
    | none => exact passes_unknown hl rfl
    | some t =>
        refine passes_stuck hl (if_neg ?_)
        rintro rfl
        exact hne (lexeme_of_tokenOf hl).1.symm
  rw [hno] at h
  cases h

/-- After a block that is an operand comes no statement but the empty one. -/
theorem startsEmpty_of_passes {ss : List Stmt} (hrest : passes (.done, σ) rest = false)
    (h : passes (.done, σ) (textsOfStmts ss ++ rest) = true) : startsEmpty ss = true := by
  have hno : ∀ {l : List Char} {ls : List (List Char)} {t : Token}, tokenOf l = some t →
      afterOperand σ t = none → passes (.done, σ) (l :: ls) = true → False := by
    intro l ls t ht hs h
    rw [passes_stuck (m := .done) ht hs] at h
    cases h
  -- a name behind an operand is no operator, whether it is a keyword or not
  have hvar : ∀ {x : Var} {ls : List (List Char)}, passes (.done, σ) (x.name.toList :: ls) = true → False := by
    intro x ls h
    cases hk : keywords.contains x.name.toList with
    | false => exact hno (x.token hk) rfl h
    | true =>
        obtain ⟨t, ht, htok⟩ := x.keyword hk
        fin_cases ht <;> exact hno htok rfl h
  cases ss with
  | nil =>
      rw [textsOfStmts, List.nil_append, hrest] at h
      cases h
  | cons s ss =>
      cases s with
      | emptyStmt => rfl
      | assignmentStmt x e => exact absurd h hvar
      | inputStmt x => exact absurd h hvar
      | ifStmt c body => exact absurd h (hno (t := .tokIf) rfl rfl)
      | ifElseStmt c body elseBody => exact absurd h (hno (t := .tokIf) rfl rfl)
      | whileStmt c body => exact absurd h (hno (t := .tokWhile) rfl rfl)
      | printStmt e => exact absurd h (hno (t := .tokPrint) rfl rfl)
      | blockStmt ss => exact absurd h (hno (t := .tokLeftBrace) rfl rfl)

theorem Var.name_ne_brace (x : Var) : x.name.toList ≠ ['\x7b'] := by
  intro h
  have hx := x.shape
  rw [h] at hx
  cases hx

mutual

/-- A block of statements, where it is accepted. -/
theorem Stmt.block_of_passes : ∀ (s : Stmt) (σ : List Bracket) (m : Mode) (b : Bracket) (s' : State)
    (rest : List (List Char)), s.isBlock = true → Coarse.step σ m .tokLeftBrace = some (.stmt, b :: σ) →
    closeBrace (b :: σ) = some s' → passes (m, σ) (s.texts ++ rest) = true →
    s.readable = true ∧ passes s' rest = true
  | .blockStmt ss, σ, m, b, s', rest, _, hopen, hclose, h => by
      have hl : tokenOf ['\x7b'] = some .tokLeftBrace := rfl
      have hr : tokenOf ['\x7d'] = some .tokRightBrace := rfl
      have htexts : (Stmt.blockStmt ss).texts ++ rest = ['\x7b'] :: (textsOfStmts ss ++ ['\x7d'] :: rest) := by
        rw [Stmt.texts]
        simp
      rw [htexts, passes_step hl hopen] at h
      obtain ⟨hss, m', hm', h⟩ := stmts_of_passes ss _ _ _ rfl (passes_stuck hr rfl) h
      rw [passes_step (s := s') hr (step_stmt hm' ?_)] at h
      · exact ⟨by rw [Stmt.readable, hss], h⟩
      · exact hclose
  | .assignmentStmt _ _, _, _, _, _, _, h, _, _, _ | .inputStmt _, _, _, _, _, _, h, _, _, _
  | .ifStmt _ _, _, _, _, _, _, h, _, _, _ | .ifElseStmt _ _ _, _, _, _, _, _, h, _, _, _
  | .whileStmt _ _, _, _, _, _, _, h, _, _, _ | .printStmt _, _, _, _, _, _, h, _, _, _
  | .emptyStmt, _, _, _, _, _, h, _, _, _ => by cases h

/-- What is accepted as a body is a block. -/
theorem Stmt.body_of_passes (s : Stmt) (σ : List Bracket) (rest : List (List Char))
    (h : passes (.body, σ) (s.texts ++ rest) = true) :
    s.isBlock = true ∧ s.readable = true ∧ passes (.afterBody, σ) rest = true := by
  have hb : s.isBlock = true := by
    cases s with
    | blockStmt ss => rfl
    | assignmentStmt x e => exact absurd (body_head h) x.name_ne_brace
    | inputStmt x => exact absurd (body_head h) x.name_ne_brace
    | ifStmt c body => exact absurd (body_head h) (by decide)
    | ifElseStmt c body elseBody => exact absurd (body_head h) (by decide)
    | whileStmt c body => exact absurd (body_head h) (by decide)
    | printStmt e => exact absurd (body_head h) (by decide)
    | emptyStmt => exact absurd (body_head h) (by decide)
  exact ⟨hb, s.block_of_passes σ .body .body _ rest hb rfl rfl h⟩

/-- **Where a statement is accepted it keeps to what the parser takes.** -/
theorem Stmt.readable_of_passes : ∀ (s : Stmt) (σ : List Bracket) (m : Mode) (rest : List (List Char)),
    s.isBlock = false → m.isStmt = true → passes (m, σ) (s.texts ++ rest) = true →
    s.readable = true ∧ ∃ m', m'.isStmt = true ∧ passes (m', σ) rest = true
  | .assignmentStmt x e, σ, m, rest, _, hm, h => by
      have htexts : (Stmt.assignmentStmt x e).texts ++ rest =
          x.name.toList :: ['='] :: (e.texts ++ [';'] :: rest) := by
        rw [Stmt.texts]
        simp
      rw [htexts] at h
      obtain ⟨hx, h⟩ := Var.assigned hm h
      obtain ⟨he, hnext⟩ := semicolon_passes h
      refine ⟨?_, hnext⟩
      rw [Stmt.readable, hx, he]
      rfl
  | .inputStmt x, σ, m, rest, _, hm, h => by
      have hinput : tokenOf ['?'] = some .tokInput := rfl
      have hsemi : tokenOf [';'] = some .tokSemicolon := rfl
      have htexts : (Stmt.inputStmt x).texts ++ rest = x.name.toList :: ['='] :: ['?'] :: [';'] :: rest := by
        rw [Stmt.texts]
        rfl
      rw [htexts] at h
      obtain ⟨hx, h⟩ := Var.assigned hm h
      rw [passes_step (s := (.done, σ)) hinput rfl, passes_step (s := (.stmt, σ)) hsemi rfl] at h
      refine ⟨?_, .stmt, rfl, h⟩
      rw [Stmt.readable, hx]
      rfl
  -- behind the condition only a block passes: `body_of_passes`
  | .ifStmt c body, σ, m, rest, _, hm, h => by
      have htexts : (Stmt.ifStmt c body).texts ++ rest =
          ['i', 'f'] :: ['('] :: (c.texts ++ [')'] :: (body.texts ++ rest)) := by
        rw [Stmt.texts]
        simp
      rw [htexts] at h
      obtain ⟨hc, h⟩ := condition_passes (t := .tokIf) rfl (step_stmt hm rfl) h
      obtain ⟨hblock, hbody, h⟩ := body.body_of_passes σ rest h
      refine ⟨?_, .afterBody, rfl, h⟩
      rw [Stmt.readable, hc, hblock, hbody]
      rfl
  | .ifElseStmt c body elseBody, σ, m, rest, _, hm, h => by
      have helse : tokenOf ['e', 'l', 's', 'e'] = some .tokElse := rfl
      have htexts : (Stmt.ifElseStmt c body elseBody).texts ++ rest =
          ['i', 'f'] :: ['('] :: (c.texts ++ [')'] ::
            (body.texts ++ ['e', 'l', 's', 'e'] :: (elseBody.texts ++ rest))) := by
        rw [Stmt.texts]
        simp
      rw [htexts] at h
      obtain ⟨hc, h⟩ := condition_passes (t := .tokIf) rfl (step_stmt hm rfl) h
      obtain ⟨hblock, hbody, h⟩ := body.body_of_passes σ _ h
      rw [passes_step (s := (.body, σ)) helse rfl] at h
      obtain ⟨heblock, hebody, h⟩ := elseBody.body_of_passes σ rest h
      refine ⟨?_, .afterBody, rfl, h⟩
      rw [Stmt.readable, hc, hblock, hbody, heblock, hebody]
      rfl
  | .whileStmt c body, σ, m, rest, _, hm, h => by
      have htexts : (Stmt.whileStmt c body).texts ++ rest =
          ['w', 'h', 'i', 'l', 'e'] :: ['('] :: (c.texts ++ [')'] :: (body.texts ++ rest)) := by
        rw [Stmt.texts]
        simp
      rw [htexts] at h
      obtain ⟨hc, h⟩ := condition_passes (t := .tokWhile) rfl (step_stmt hm rfl) h
      obtain ⟨hblock, hbody, h⟩ := body.body_of_passes σ rest h
      refine ⟨?_, .afterBody, rfl, h⟩
      rw [Stmt.readable, hc, hblock, hbody]
      rfl
  | .printStmt e, σ, m, rest, _, hm, h => by
      have hprint : tokenOf ['p', 'r', 'i', 'n', 't'] = some .tokPrint := rfl
      have htexts : (Stmt.printStmt e).texts ++ rest =
          ['p', 'r', 'i', 'n', 't'] :: (e.texts ++ [';'] :: rest) := by
        rw [Stmt.texts]
        simp
      rw [htexts, passes_step (s := (.operand, σ)) hprint (step_stmt hm rfl)] at h
      obtain ⟨he, hnext⟩ := semicolon_passes h
      exact ⟨by rw [Stmt.readable, he], hnext⟩
  | .emptyStmt, σ, m, rest, _, hm, h => by
      have hsemi : tokenOf [';'] = some .tokSemicolon := rfl
      have hstep : passes (m, σ) ([';'] :: rest) = passes (.stmt, σ) rest :=
        passes_step hsemi (step_stmt hm rfl)
      exact ⟨by rw [Stmt.readable], .stmt, rfl, hstep.symm.trans h⟩
  -- a block of its own is read with the statement behind it
  | .blockStmt _, _, _, _, h, _, _ => by cases h

/-- **Where statements are accepted they keep to what the parser takes.** -/
theorem stmts_of_passes : ∀ (ss : List Stmt) (σ : List Bracket) (m : Mode) (rest : List (List Char)),
    m.isStmt = true → passes (.done, σ) rest = false → passes (m, σ) (textsOfStmts ss ++ rest) = true →
    stmtsReadable ss = true ∧ ∃ m', m'.isStmt = true ∧ passes (m', σ) rest = true
  | [], σ, m, rest, hm, _, h => ⟨by rw [stmtsReadable], m, hm, h⟩
  | s :: ss, σ, m, rest, hm, hrest, h => by
      rw [textsOfStmts, List.append_assoc] at h
      cases hb : s.isBlock with
      | false =>
          obtain ⟨hs, m1, hm1, h⟩ := s.readable_of_passes σ m _ hb hm h
          obtain ⟨hss, hnext⟩ := stmts_of_passes ss σ m1 rest hm1 hrest h
          refine ⟨?_, hnext⟩
          rw [stmtsReadable, hs, hb, hss]
          rfl
      | true =>
          obtain ⟨hs, h⟩ := s.block_of_passes σ m .block (.done, σ) _ hb (step_stmt hm rfl) rfl h
          have hempty := startsEmpty_of_passes hrest h
          -- the semicolon of the empty statement ends the block
          have hstmt : passes (.stmt, σ) (textsOfStmts ss ++ rest) = true := by
            cases ss with
            | nil => cases hempty
            | cons s1 ss =>
                obtain rfl := eq_emptyStmt hempty
                exact h
          obtain ⟨hss, hnext⟩ := stmts_of_passes ss σ .stmt rest rfl hrest hstmt
          refine ⟨?_, hnext⟩
          rw [stmtsReadable, hs, hb, hempty, hss]
          rfl

end

end Trees

/-! ## Lexing -/

/-- A terminal of the README: what the lexer makes a token of, `~`, or a number that is too large. -/
def IsTerminal (l : List Char) : Prop :=
  (tokenOf l).isSome = true ∨ l = ['~'] ∨ isNumeral l = true ∧ intMax < decimal l

theorem Var.terminal (x : Var) : IsTerminal x.name.toList := by
  refine .inl ?_
  cases hk : keywords.contains x.name.toList with
  | false => rw [x.token hk]; rfl
  | true =>
      obtain ⟨t, _, ht⟩ := x.keyword hk
      rw [ht]
      rfl

theorem Numeral.terminal (n : Numeral) : IsTerminal n.digits := by
  by_cases hn : decimal n.digits ≤ intMax
  · refine .inl ?_
    rw [n.token, if_pos hn]
    rfl
  · exact .inr (.inr ⟨n.shape, Nat.lt_of_not_le hn⟩)

section Terminals

variable {ls ls' : List (List Char)}

theorem terminals_append (h : ∀ l ∈ ls, IsTerminal l) (h' : ∀ l ∈ ls', IsTerminal l) :
    ∀ l ∈ ls ++ ls', IsTerminal l :=
  fun l hl => (List.mem_append.mp hl).elim (h l) (h' l)

theorem terminals_one {l : List Char} (h : IsTerminal l) : ∀ k ∈ [l], IsTerminal k :=
  fun _ hk => List.mem_singleton.mp hk ▸ h

theorem terminals_known (ls : List (List Char)) (h : ls.all (fun l => (tokenOf l).isSome) = true) :
    ∀ l ∈ ls, IsTerminal l :=
  fun l hl => .inl (List.all_eq_true.mp h l hl)

theorem Expr.terminals {p : Place} (e : Expr p) : ∀ l ∈ e.texts, IsTerminal l := by
  induction e with
  | ofOr e ih | operand _ e ih | ofPrimary e ih => exact ih
  | assignment x e ih =>
      exact terminals_append (terminals_append (terminals_one x.terminal) (terminals_known _ rfl)) ih
  | @operator l _ _ op hop a b iha ihb =>
      have hall : ∀ op ∈ operators l, (tokenOf op).isSome = true := by cases l <;> decide
      exact terminals_append (terminals_append iha (terminals_one (.inl (hall op hop)))) ihb
  | sign op hop e ih =>
      have hall : ∀ op ∈ signs, (tokenOf op).isSome = true ∨ op = ['~'] := by decide
      exact terminals_append (terminals_one ((hall op hop).imp_right .inl)) ih
  | paren e ih => exact terminals_append (terminals_append (terminals_known _ rfl) ih) (terminals_known _ rfl)
  | var x => exact terminals_one x.terminal
  | number n => exact terminals_one n.terminal

mutual

theorem Stmt.terminals : ∀ s : Stmt, ∀ l ∈ s.texts, IsTerminal l
  | .assignmentStmt x e => by
      rw [Stmt.texts]
      have hx := terminals_append (terminals_one x.terminal) (terminals_known [['=']] rfl)
      exact terminals_append (terminals_append hx e.terminals) (terminals_known _ rfl)
  | .inputStmt x => by
      rw [Stmt.texts]
      exact terminals_append (terminals_one x.terminal) (terminals_known [['='], ['?'], [';']] rfl)
  | .ifStmt c body => by
      rw [Stmt.texts]
      have hc := terminals_append (terminals_append (terminals_known [['i', 'f'], ['(']] rfl) c.terminals)
        (terminals_known [[')']] rfl)
      exact terminals_append hc body.terminals
  | .ifElseStmt c body elseBody => by
      rw [Stmt.texts]
      have hc := terminals_append (terminals_append (terminals_known [['i', 'f'], ['(']] rfl) c.terminals)
        (terminals_known [[')']] rfl)
      exact terminals_append (terminals_append (terminals_append hc body.terminals) (terminals_known _ rfl))
        elseBody.terminals
  | .whileStmt c body => by
      rw [Stmt.texts]
      have hc := terminals_append
        (terminals_append (terminals_known [['w', 'h', 'i', 'l', 'e'], ['(']] rfl) c.terminals)
        (terminals_known [[')']] rfl)
      exact terminals_append hc body.terminals
  | .printStmt e => by
      rw [Stmt.texts]
      exact terminals_append (terminals_append (terminals_known _ rfl) e.terminals) (terminals_known _ rfl)
  | .blockStmt ss => by
      rw [Stmt.texts]
      have hopen := terminals_append (terminals_known [['\x7b']] rfl) (stmts_terminals ss)
      exact terminals_append hopen (terminals_known _ rfl)
  | .emptyStmt => by
      rw [Stmt.texts]
      exact terminals_known _ rfl

theorem stmts_terminals : ∀ ss : List Stmt, ∀ l ∈ textsOfStmts ss, IsTerminal l
  | [] => by
      rw [textsOfStmts]
      exact fun l hl => absurd hl List.not_mem_nil
  | s :: ss => by
      rw [textsOfStmts]
      exact terminals_append s.terminals (stmts_terminals ss)

end

end Terminals

section Lexing

variable {l w : List Char} {ls : List (List Char)} {ss : List Stmt} {seps : List (Option Separator)}
  {describe : List ParaCL.Terminal → ParaCL.Terminal → String} {n : Nat}

/-- A terminal starts a token: no separator, no comment. -/
theorem IsTerminal.tokenText (h : IsTerminal l) : TokenText l := by
  rcases h with h | rfl | ⟨h, _⟩
  · obtain ⟨t, ht⟩ := Option.isSome_iff_exists.mp h
    obtain ⟨rfl, hw⟩ := lexeme_of_tokenOf ht
    exact writable_tokenText hw
  · exact tokenText_of_head (by decide) (by decide)
  · obtain ⟨d, ds, rfl, hd, _⟩ := isDigit_of_isNumeral h
    refine tokenText_of_word ?_
    rw [Char.isAlphanum, hd, Bool.or_true, Bool.true_or]

/-- What is no token stops the lexer. -/
def Stops (v : List Char) : Prop :=
  ∃ p u, nextPiece v = some (p, u) ∧ ¬ p.Separates ∧ ∀ t, p.lexed ≠ .ok (.token t)

theorem IsTerminal.stops (h : IsTerminal l) (hno : tokenOf l = none) (he : LexemeEnds l w) :
    Stops (l ++ w) := by
  rcases h with h | rfl | ⟨h, hlt⟩
  · rw [hno] at h
    cases h
  · have hpiece : nextPiece (['~'] ++ w) = some (⟨.unknown, ['~']⟩, w) := nextPiece_of_find (by decide) he
    refine ⟨_, _, hpiece, Option.some_ne_none _, fun t ht => ?_⟩
    cases ht
  · obtain ⟨d, ds, rfl, _, hds⟩ := isDigit_of_isNumeral h
    have hpiece : nextPiece ((d :: ds) ++ w) = some (⟨.number, d :: ds⟩, w) := by
      rcases hds with ⟨rfl, rfl⟩ | ⟨hd, hds⟩
      · exact absurd hlt (by decide)
      · exact nextPiece_number hd hds he
    refine ⟨_, _, hpiece, Option.some_ne_none _, fun t ht => ?_⟩
    rw [Piece.lexed, stoi_error (p := ⟨.number, d :: ds⟩) hlt] at ht
    cases ht

theorem writeTexts_cons {s : Option Separator} : writeTexts (l :: ls) (s :: seps) =
    l ++ (s.elim [] Separator.text ++ writeTexts ls seps) := by
  rw [writeTexts, List.zip_cons_cons, List.flatMap_cons, List.append_assoc]
  rfl

theorem writeTexts_noBlank (h : ∀ k ∈ ls, IsTerminal k) : NoBlank (writeTexts ls seps) := by
  cases ls with
  | nil => exact fun c hc => absurd hc (by simp [writeTexts])
  | cons l ls =>
      cases seps with
      | nil => exact fun c hc => absurd hc (by simp [writeTexts])
      | cons s seps =>
          have htext := (h l List.mem_cons_self).tokenText
          obtain ⟨d, ds, rfl⟩ := List.exists_cons_of_ne_nil htext.ne
          intro c hc
          rw [writeTexts_cons] at hc
          obtain rfl : d = c := by simpa using hc
          exact htext.head d rfl

/-- A terminal ends where it is written to end. -/
theorem IsTerminal.ends {s : Option Separator} (h : ∀ k ∈ l :: ls, IsTerminal k)
    (ha : keptApart (l :: ls) (s :: seps) = true) :
    LexemeEnds l (s.elim [] Separator.text ++ writeTexts ls seps) := by
  have htext := (h l List.mem_cons_self).tokenText
  cases s with
  | some s =>
      obtain ⟨c, w, hc, hs⟩ := s.text_cons
      rw [Option.elim_some, hs, List.cons_append]
      exact ends_of_space htext hc
  | none =>
      rw [Option.elim_none, List.nil_append]
      cases ls with
      | nil => exact .nil
      | cons k ls =>
          cases seps with
          | nil => exact .nil
          | cons s seps =>
              obtain ⟨d, ds, rfl⟩ := List.exists_cons_of_ne_nil (h k (by simp)).tokenText.ne
              rw [writeTexts_cons, List.cons_append]
              refine ends_of_apart htext ?_
              have hhead := (Bool.and_eq_true_iff.mp ha).1
              simpa using hhead

/-- **The text is cut** into the tokens up to the first terminal that is none. -/
theorem known_scanned (h : ∀ k ∈ ls, IsTerminal k) (hlen : seps.length = ls.length)
    (ha : keptApart ls seps = true) :
    ∃ ps v, Scanned (writeTexts ls seps) ps v ∧ tokensOf ps = some (known ls) ∧
      (v = [] ∨ none ∈ ls.map tokenOf ∧ Stops v) := by
  induction ls generalizing seps with
  | nil => exact ⟨[], _, .nil, rfl, .inl rfl⟩
  | cons l ls ih =>
      cases seps with
      | nil => cases hlen
      | cons s seps =>
          have hls : ∀ k ∈ ls, IsTerminal k := fun k hk => h k (List.mem_cons_of_mem l hk)
          have hends := IsTerminal.ends h ha
          rw [writeTexts_cons]
          cases ht : tokenOf l with
          -- here the lexer stops: a `~` or a number that is too large
          | none =>
              refine ⟨[], _, .nil, ?_, .inr ⟨?_, (h l List.mem_cons_self).stops ht hends⟩⟩
              · rw [known_none ht]
                rfl
              · rw [List.map_cons, ht]
                exact List.mem_cons_self
          | some t =>
              obtain ⟨ps, v, hs, htokens, hv⟩ := ih hls (Nat.succ.inj hlen) (Bool.and_eq_true_iff.mp ha).2
              obtain ⟨rfl, hw⟩ := lexeme_of_tokenOf ht
              obtain ⟨q, hq, hlexed, hpiece⟩ := nextPiece_token hw hends
              -- between two tokens there is a separator or nothing
              obtain ⟨gap, hgap, hscan⟩ : ∃ gap, (∀ g ∈ gap, g.Separates) ∧
                  Scanned (s.elim [] Separator.text ++ writeTexts ls seps) gap (writeTexts ls seps) := by
                cases s with
                | none => exact ⟨[], fun g hg => absurd hg List.not_mem_nil, .nil⟩
                | some s =>
                    have hblank : NoBlank (writeTexts ls seps) := writeTexts_noBlank hls
                    exact fillers_scanned hblank _ _ (Nat.le_refl _) s.all_closed
              refine ⟨q :: (gap ++ ps), v, .cons hpiece (hscan.append hs), ?_, ?_⟩
              · rw [tokensOf_token hq hlexed, tokensOf_gap hgap, htokens, known_some ht]
                rfl
              · exact hv.imp_right (fun hstop => ⟨List.mem_cons_of_mem _ hstop.1, hstop.2⟩)

/-- No token known is the end of the input. -/
theorem known_ne_eof {t : Token} (h : t ∈ known ls) : t ≠ .tokEof := by
  induction ls with
  | nil => cases h
  | cons l ls ih =>
      cases ht : tokenOf l with
      | none =>
          rw [known_none ht] at h
          cases h
      | some u =>
          rw [known_some ht] at h
          rcases List.mem_cons.mp h with rfl | h
          · rintro rfl
            cases (lexeme_of_tokenOf ht).2
          · exact ih h

/-- A token with the terminal of the end of the input is the end of the input. -/
theorem located_eof {lts : List (ParaCL.Terminal × SemanticValue)} {ts : List Token} (h : Located lts ts)
    (hno : ∀ t ∈ ts, t ≠ .tokEof) : ∀ p ∈ lts, p.1 ≠ .tokEof := by
  induction ts generalizing lts with
  | nil =>
      rw [located_nil.mp h]
      exact fun p hp => absurd hp List.not_mem_nil
  | cons t ts ih =>
      obtain ⟨loc, rest, rfl, hrest⟩ := located_cons.mp h
      intro p hp
      rcases List.mem_cons.mp hp with rfl | hp
      · exact fun he => hno t List.mem_cons_self (plain_token he rfl)
      · exact ih hrest (fun u hu => hno u (List.mem_cons_of_mem t hu)) p hp

/-- Where the tokens end, the parser is handed the end of the input, if anything. -/
theorem lex_of_stops {L L' : Lexer} {gap : List Piece} {v : List Char} {tok : ParaCL.Terminal × SemanticValue}
    (hgap : ∀ g ∈ gap, g.Separates) (hs : Scanned L.input gap v) (hv : v = [] ∨ Stops v)
    (h : (parserActions yylex describe).lex L = .ok (tok, L')) : tok.1 = .tokEof := by
  obtain ⟨lexed, loc, hcall, rfl⟩ := parser_lex_eq.mp h
  rcases hv with rfl | ⟨p, u, hp, hsep, hno⟩
  · obtain ⟨L1, hend, _⟩ := yylex_of_eof hgap hs
    rw [hend] at hcall
    cases hcall
    rfl
  · rw [yylex_of_piece hgap hsep (hs.snoc hp)] at hcall
    cases hl : p.lexed with
    | error e => rw [hl] at hcall; cases hcall
    | ok lexed' =>
        rw [hl] at hcall
        cases hcall
        cases lexed with
        | token t => exact absurd hl (hno t)
        | unknown => rfl

/-- **The tokens of an accepted text** are those up to the first terminal that is none. -/
theorem errorFree_of_goesOn (h : ∀ k ∈ ls, IsTerminal k) (hlen : seps.length = ls.length)
    (ha : keptApart ls seps = true) (hgo : GoesOn describe (writeTexts ls seps) n) : ErrorFree (known ls) := by
  obtain ⟨lts, ts, w1, w2, L', hdel, hlts, heof, hfree⟩ := goesOn_iff.mp hgo
  obtain ⟨ps, v, hs, htokens, hv⟩ := known_scanned h hlen ha
  obtain ⟨lts1, L1, gap, hdel1, hlts1, hgap, hs1⟩ := delivers_of_scanned (L := .init _ n) hs htokens
  have hno := located_eof hlts (fun t ht he => heof (he ▸ ht))
  have hno1 := located_eof hlts1 (fun t ht => known_ne_eof ht)
  have hshort : ∀ us, lts1 ≠ lts ++ [(.tokEof, w1), (.tokEof, w2)] ++ us := by
    rintro us rfl
    exact hno1 (.tokEof, w1) (by simp) rfl
  suffices hlts' : lts = lts1 by
    subst hlts'
    rwa [located_unique hlts1 hlts]
  rcases hdel1.compare hdel with ⟨us, hus, hrest⟩ | ⟨us, hus, _⟩
  · cases hrest with
    | nil => exact absurd (hus.trans (List.append_nil _)).symm (by simpa using hshort [])
    | @cons _ _ _ tok vs hlex _ =>
        have htok := lex_of_stops hgap hs1 (hv.imp_right And.right) hlex
        -- both stop at the first end of the input
        have hcut := congrArg (List.takeWhile (fun p => p.1 ≠ .tokEof)) hus
        rw [List.takeWhile_append_of_pos (fun p hp => decide_eq_true (hno p hp)),
          List.takeWhile_append_of_pos (fun p hp => decide_eq_true (hno1 p hp)),
          List.takeWhile_cons_of_neg (by simp), List.takeWhile_cons_of_neg (by simp [htok]), List.append_nil,
          List.append_nil] at hcut
        exact hcut
  · exact absurd hus (hshort us)

/-- **A text all of whose terminals are tokens** is accepted if the tokens are a program. -/
theorem goesOn_of_errorFree {ts : List Token} (h : ∀ k ∈ ls, IsTerminal k) (hlen : seps.length = ls.length)
    (ha : keptApart ls seps = true) (hw : Written ts ls) (hfree : ErrorFree ts) :
    GoesOn describe (writeTexts ls seps) n := by
  obtain ⟨ps, v, hs, htokens, rfl | ⟨hnone, _⟩⟩ := known_scanned h hlen ha
  · rw [known_of_written hw] at htokens
    obtain ⟨lts, L, gap, hdel, hlts, hgap, hs'⟩ := delivers_of_scanned (L := .init _ n) hs htokens
    obtain ⟨L1, hend, hnil⟩ := yylex_of_eof hgap hs'
    have hno : ∀ g ∈ ([] : List Piece), g.Separates := fun g hg => absurd hg List.not_mem_nil
    obtain ⟨L2, hend2, _⟩ := yylex_of_eof (L := L1) hno (hnil ▸ .nil)
    have heof : .tokEof ∉ ts := by
      intro ht
      rw [← known_of_written hw] at ht
      exact known_ne_eof ht rfl
    exact goesOn_iff.mpr ⟨lts, ts, _, _, L2,
      hdel.append (.cons (parser_lex hend) (.cons (parser_lex hend2) .nil)), hlts, heof, hfree⟩
  · rw [hw] at hnone
    obtain ⟨t, _, ht⟩ := List.mem_map.mp hnone
    cases ht

/-- What is accepted keeps to what the parser takes. -/
theorem readable_of_goesOn (hlen : seps.length = (textsOfStmts ss).length)
    (ha : keptApart (textsOfStmts ss) seps = true)
    (hgo : GoesOn describe (writeTexts (textsOfStmts ss) seps) n) : stmtsReadable ss = true := by
  obtain ⟨_, _, hd, _⟩ := errorFree_of_goesOn (stmts_terminals ss) hlen ha hgo
  obtain ⟨us, m, heq, hm, hrun⟩ := hd.coarse
  obtain ⟨rfl, _⟩ := List.append_inj' heq rfl
  have hpasses : passes (.stmt, []) (textsOfStmts ss ++ []) = true := by
    rw [List.append_nil, passes, hrun]
    exact hm
  exact (stmts_of_passes ss [] .stmt [] rfl rfl hpasses).1

end Lexing

/-! ## Acceptance -/

/-- **Which documented programs are accepted.** Of the programs of the README whose variables are assigned
    before they are read, exactly those that keep to what the parser takes. Separators may be left out where
    terminals do not run together. -/
theorem documented_accepted_iff (describe : List ParaCL.Terminal → ParaCL.Terminal → String) (ss : List Stmt)
    (seps : List (Option Separator)) (n : Nat) (hb : Bound (eventsOfStmts ss))
    (hlen : seps.length = (textsOfStmts ss).length) (ha : keptApart (textsOfStmts ss) seps = true) :
    GoesOn describe (writeTexts (textsOfStmts ss) seps) n ↔ stmtsReadable ss = true := by
  constructor
  · exact readable_of_goesOn hlen ha
  · intro hr
    obtain ⟨ts, hw, hfree⟩ := errorFree_of_readable hr hb
    exact goesOn_of_errorFree (stmts_terminals ss) hlen ha hw hfree

/-- An operand by itself. -/
def Expr.alone (e : Expr .primary) : Expr .assignmentExpr :=
  .ofOr (.operand (l := .or) rfl (.operand (l := .and) rfl (.operand (l := .bitwiseOp) rfl
    (.operand (l := .equality) rfl (.operand (l := .relational) rfl (.operand (l := .addSub) rfl
      (.operand (l := .mulDiv) rfl (.ofPrimary e))))))))

/-- One blank. -/
def blank : Separator := ⟨.blank, [], rfl, by decide⟩

/-- A loop over an assigned variable, with a block for its body and one blank, behind `print`. -/
theorem documented_accepted_iff_while : GoesOn (fun _ _ => "syntax error")
    (writeTexts (textsOfStmts [.assignmentStmt ⟨"x", by decide⟩ (.alone (.number ⟨['1'], rfl⟩)),
      .whileStmt (.alone (.var ⟨"x", by decide⟩)) (.blockStmt [.printStmt (.alone (.var ⟨"x", by decide⟩))])])
      (List.replicate 9 none ++ [some blank] ++ List.replicate 3 none)) 0 := by
  refine (documented_accepted_iff _ _ _ _ ?_ rfl (by decide)).mpr (by decide)
  refine (missing_iff (fun u hu => ?_)).mp (by decide)
  have hall : ∀ u ∈ List.inits [binds "x", reads "x", opens, reads "x", closes], closed u ≤ opened u := by
    decide
  exact hall u ((List.mem_inits _ _).mpr hu)

/-- `if(1)print 1;` is a documented program. -/
theorem documented_not_accepted : ¬ ∀ (describe : List ParaCL.Terminal → ParaCL.Terminal → String)
    (ss : List Stmt) (seps : List (Option Separator)) (n : Nat), Bound (eventsOfStmts ss) →
      seps.length = (textsOfStmts ss).length → keptApart (textsOfStmts ss) seps = true →
        GoesOn describe (writeTexts (textsOfStmts ss) seps) n := by
  intro h
  have hgo := h (fun _ _ => "syntax error")
    [.ifStmt (.alone (.number ⟨['1'], rfl⟩)) (.printStmt (.alone (.number ⟨['1'], rfl⟩)))]
    (List.replicate 4 none ++ [some blank] ++ List.replicate 2 none) 0
    ((missing_iff (t := []) (fun u hu => List.prefix_nil.mp hu ▸ Nat.le_refl _)).mp rfl) rfl (by decide)
  exact absurd (readable_of_goesOn rfl (by decide) hgo) (by decide)

end Readme

end ParaCL
