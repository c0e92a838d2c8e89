import ParaCL.Parser.Layout
import ParaCL.Parser.ScopeCheck
import ParaCL.Parser.Truncation

/-!
# `Parser.Readme` — the grammar of the README

The README publishes a grammar of its own. Here are its derivations as trees, the texts of the terminals
along them, and what they do with names. The parser takes less: `~` is no token, the bodies of `if` and
`while` have to be blocks, a block that stands for a statement needs a `;` after it, `func` and `return` are
words of the language, and `stoi` refuses a number beyond `INT_MAX`. A derivation that keeps to this
(`readable`) is read by the productions of `parser.y`, name by name (`stmts_read`).
-/

namespace ParaCL

open Lib Bison ScopeEvent

namespace Readme

/-! ## The grammar -/

/-- `Var ::= [A-Za-z_][A-Za-z0-9_]*` -/
structure Var where
  name : Name
  shape : isIdentifier name.toList = true

/-- `[1-9][0-9]* | '0'` -/
def isNumeral : List Char → Bool
  | [] => false
  | c :: cs => c = '0' && cs.isEmpty || c.isDigit && c ≠ '0' && cs.all Char.isDigit

/-- `Number` -/
structure Numeral where
  digits : List Char
  shape : isNumeral digits = true

/-- The operators of a level. -/
def operators : Level → List (List Char)
  | .or => [['|', '|']]
  | .and => [['&', '&']]
  | .bitwiseOp => [['&'], ['^'], ['|']]
  | .equality => [['=', '='], ['!', '=']]
  | .relational => [['<'], ['>'], ['<', '='], ['>', '=']]
  | .addSub => [['+'], ['-']]
  | .mulDiv => [['*'], ['/']]
  | .unary => []

/-- The prefix operators of `Unary`. -/
def signs : List (List Char) := [['-'], ['+'], ['~']]

/-- What the operands of a level are made of. -/
def below : Level → Option Level
  | .or => some .and
  | .and => some .bitwiseOp
  | .bitwiseOp => some .equality
  | .equality => some .relational
  | .relational => some .addSub
  | .addSub => some .mulDiv
  | .mulDiv => some .unary
  | .unary => none

/-- `AssignmentExpr`, which is `Expression`; the nonterminals from `Or` to `Unary`; and `Primary`. -/
inductive Place where
  | assignmentExpr
  | level (l : Level)
  | primary

/-- The derivations of a nonterminal. A repetition is a row of operators of one level. -/
inductive Expr : Place → Type where
  | ofOr (e : Expr (.level .or)) : Expr .assignmentExpr
  | assignment (x : Var) (e : Expr .assignmentExpr) : Expr .assignmentExpr
  | operand {l m : Level} (hm : below l = some m) (e : Expr (.level m)) : Expr (.level l)
  | operator {l m : Level} (hm : below l = some m) (op : List Char) (hop : op ∈ operators l)
      (a : Expr (.level l)) (b : Expr (.level m)) : Expr (.level l)
  | sign (op : List Char) (hop : op ∈ signs) (e : Expr (.level .unary)) : Expr (.level .unary)
  | ofPrimary (e : Expr .primary) : Expr (.level .unary)
  | paren (e : Expr .assignmentExpr) : Expr .primary
  | var (x : Var) : Expr .primary
  | number (n : Numeral) : Expr .primary

/-- The derivations of `Statement`. -/
inductive Stmt where
  | assignmentStmt (x : Var) (e : Expr .assignmentExpr)
  | inputStmt (x : Var)
  | ifStmt (condition : Expr .assignmentExpr) (body : Stmt)
  | ifElseStmt (condition : Expr .assignmentExpr) (body elseBody : Stmt)
  | whileStmt (condition : Expr .assignmentExpr) (body : Stmt)
  | printStmt (e : Expr .assignmentExpr)
  | blockStmt (stmts : List Stmt)
  | emptyStmt

/-! ## Texts and names -/

/-- The texts of the terminals. -/
def Expr.texts {p : Place} : Expr p → List (List Char)
  | .ofOr e | .operand _ e | .ofPrimary e => e.texts
  | .assignment x e => [x.name.toList, ['=']] ++ e.texts
  | .operator _ op _ a b => a.texts ++ [op] ++ b.texts
  | .sign op _ e => [op] ++ e.texts
  | .paren e => [['(']] ++ e.texts ++ [[')']]
  | .var x => [x.name.toList]
  | .number n => [n.digits]

/-- A variable is assigned when the right-hand side has been read. -/
def Expr.events {p : Place} : Expr p → List (ScopeEvent Name)
  | .ofOr e | .operand _ e | .ofPrimary e | .sign _ _ e | .paren e => e.events
  | .assignment x e => e.events ++ [binds x.name]
  | .operator _ _ _ a b => a.events ++ b.events
  | .var x => [reads x.name]
  | .number _ => []

mutual

def Stmt.texts : Stmt → List (List Char)
  | .assignmentStmt x e => [x.name.toList, ['=']] ++ e.texts ++ [[';']]
  | .inputStmt x => [x.name.toList, ['='], ['?'], [';']]
  | .ifStmt c body => [['i', 'f'], ['(']] ++ c.texts ++ [[')']] ++ body.texts
  | .ifElseStmt c body elseBody =>
      [['i', 'f'], ['(']] ++ c.texts ++ [[')']] ++ body.texts ++ [['e', 'l', 's', 'e']] ++ elseBody.texts
  | .whileStmt c body => [['w', 'h', 'i', 'l', 'e'], ['(']] ++ c.texts ++ [[')']] ++ body.texts
  | .printStmt e => [['p', 'r', 'i', 'n', 't']] ++ e.texts ++ [[';']]
  | .blockStmt ss => [['\x7b']] ++ textsOfStmts ss ++ [['\x7d']]
  | .emptyStmt => [[';']]

def textsOfStmts : List Stmt → List (List Char)
  | [] => []
  | s :: ss => s.texts ++ textsOfStmts ss

end

mutual

/-- Only a block opens a scope. -/
def Stmt.events : Stmt → List (ScopeEvent Name)
  | .assignmentStmt x e => e.events ++ [binds x.name]
  | .inputStmt x => [binds x.name]
  | .ifStmt c body => c.events ++ body.events
  | .ifElseStmt c body elseBody => c.events ++ body.events ++ elseBody.events
  | .whileStmt c body => c.events ++ body.events
  | .printStmt e => e.events
  | .blockStmt ss => [opens] ++ eventsOfStmts ss ++ [closes]
  | .emptyStmt => []

def eventsOfStmts : List Stmt → List (ScopeEvent Name)
  | [] => []
  | s :: ss => s.events ++ eventsOfStmts ss

end

/-! ## What the parser takes of it -/

/-- No `~`, no word of the language as a name, no number beyond `INT_MAX`. -/
def Expr.readable {p : Place} : Expr p → Bool
  | .ofOr e | .operand _ e | .ofPrimary e | .paren e => e.readable
  | .assignment x e => !keywords.contains x.name.toList && e.readable
  | .operator _ _ _ a b => a.readable && b.readable
  | .sign op _ e => op ≠ ['~'] && e.readable
  | .var x => !keywords.contains x.name.toList
  | .number n => decimal n.digits ≤ intMax

def Stmt.isBlock : Stmt → Bool
  | .blockStmt _ => true
  | _ => false

def startsEmpty : List Stmt → Bool
  | .emptyStmt :: _ => true
  | _ => false

mutual

/-- Bodies are blocks, and the statement after a block is empty. -/
def Stmt.readable : Stmt → Bool
  | .assignmentStmt x e => !keywords.contains x.name.toList && e.readable
  | .inputStmt x => !keywords.contains x.name.toList
  | .ifStmt c body => c.readable && (body.isBlock && body.readable)
  | .ifElseStmt c body elseBody =>
      c.readable && (body.isBlock && body.readable) && (elseBody.isBlock && elseBody.readable)
  | .whileStmt c body => c.readable && (body.isBlock && body.readable)
  | .printStmt e => e.readable
  | .blockStmt ss => stmtsReadable ss
  | .emptyStmt => true

def stmtsReadable : List Stmt → Bool
  | [] => true
  | s :: ss => s.readable && (!s.isBlock || startsEmpty ss) && stmtsReadable ss

end

/-- The source text: the terminals, with what stands between them. -/
def writeTexts (texts : List (List Char)) (seps : List (Option Separator)) : List Char :=
  (texts.zip seps).flatMap (fun p => p.1 ++ p.2.elim [] Separator.text)

/-- Terminals with nothing between them do not run together. -/
def keptApart : List (List Char) → List (Option Separator) → Bool
  | l :: ls, s :: seps =>
      (s.isSome || ls.head?.all (fun k => k.head?.all (apart l))) && keptApart ls seps
  | _, _ => true

/-! ## Numbers -/

theorem digitChar_of_isDigit {d : Char} (h : d.isDigit = true) :
    d.toNat - '0'.toNat < 10 ∧ (d.toNat - '0'.toNat).digitChar = d := by
  have hd : '0'.toNat ≤ d.toNat ∧ d.toNat ≤ '9'.toNat := by
    simpa [Char.isDigit, UInt32.le_iff_toNat_le] using h
  have h0 : '0'.toNat = 48 := rfl
  have h9 : '9'.toNat = 57 := rfl
  have hlt : d.toNat - '0'.toNat < 10 := by omega
  refine ⟨hlt, Char.toNat_inj.mp ?_⟩
  rw [Nat.toNat_digitChar_of_lt_ten hlt]
  omega

/-- Digits after a positive number are the digits of the number they make. -/
theorem toDigits_foldl {cs : List Char} {n : Nat} (hn : 0 < n) (h : ∀ d ∈ cs, d.isDigit = true) :
    Nat.toDigits 10 (cs.foldl (fun n c => 10 * n + (c.toNat - '0'.toNat)) n) = Nat.toDigits 10 n ++ cs := by
  induction cs generalizing n with
  | nil => rw [List.foldl_nil, List.append_nil]
  | cons d cs ih =>
      obtain ⟨hlt, hd⟩ := digitChar_of_isDigit (h d List.mem_cons_self)
      have hpos : 0 < 10 * n + (d.toNat - '0'.toNat) := by omega
      rw [List.foldl_cons, ih hpos (fun c hc => h c (List.mem_cons_of_mem d hc)),
        ← Nat.toDigits_append_toDigits (by decide) hn hlt, Nat.toDigits_of_lt_base hlt, hd, List.append_assoc]
      rfl

/-- A number is zero, or it starts with another digit. -/
theorem isDigit_of_isNumeral {l : List Char} (h : isNumeral l = true) :
    ∃ d ds, l = d :: ds ∧ d.isDigit = true ∧
      (d = '0' ∧ ds = [] ∨ (d.isDigit && d ≠ '0') = true ∧ ∀ e ∈ ds, e.isDigit = true) := by
  cases l with
  | nil => cases h
  | cons d ds =>
      rcases Bool.or_eq_true_iff.mp h with h | h
      · obtain ⟨rfl, rfl⟩ : d = '0' ∧ ds = [] := by simpa using h
        exact ⟨_, _, rfl, rfl, .inl ⟨rfl, rfl⟩⟩
      · obtain ⟨hd, hds⟩ := Bool.and_eq_true_iff.mp h
        exact ⟨_, _, rfl, (Bool.and_eq_true_iff.mp hd).1, .inr ⟨hd, List.all_eq_true.mp hds⟩⟩

theorem toDigits_decimal {l : List Char} (h : isNumeral l = true) : Nat.toDigits 10 (decimal l) = l := by
  obtain ⟨d, ds, rfl, hd, ⟨rfl, rfl⟩ | ⟨hne, hds⟩⟩ := isDigit_of_isNumeral h
  · rfl
  · obtain ⟨hlt, hchar⟩ := digitChar_of_isDigit hd
    have hpos : 0 < d.toNat - '0'.toNat := by
      rcases Nat.eq_zero_or_pos (d.toNat - '0'.toNat) with hz | hp
      · rw [hz] at hchar
        exact absurd hchar.symm (of_decide_eq_true (Bool.and_eq_true_iff.mp hne).2)
      · exact hp
    have hfold := toDigits_foldl hpos hds
    rw [Nat.toDigits_of_lt_base hlt, hchar] at hfold
    simpa [decimal] using hfold

/-- A number up to `INT_MAX` is itself as an `int`. -/
theorem ofNat_int {k : Nat} (h : k ≤ intMax) :
    (BitVec.ofNat 32 k).toNat = k ∧ 0 ≤ (BitVec.ofNat 32 k).toInt := by
  unfold intMax at h
  have hnat : (BitVec.ofNat 32 k).toNat = k := by
    rw [BitVec.toNat_ofNat]
    omega
  refine ⟨hnat, ?_⟩
  rw [BitVec.toInt_eq_toNat_of_lt (by omega)]
  omega

/-- The token of a number that `stoi` takes. -/
theorem numeral_token (n : Numeral) (h : decimal n.digits ≤ intMax) :
    (Token.tokNumber (BitVec.ofNat 32 (decimal n.digits))).lexeme = n.digits ∧
      (Token.tokNumber (BitVec.ofNat 32 (decimal n.digits))).writable = true := by
  obtain ⟨hnat, hint⟩ := ofNat_int h
  refine ⟨?_, decide_eq_true hint⟩
  rw [Token.lexeme, hnat, toDigits_decimal n.shape]

/-! ## Tokens -/

/-- The token that the lexer makes of a terminal, if it makes one. -/
def tokenOf (l : List Char) : Option Token :=
  match fixedTokens.lookup l with
  | some t => some t
  | none =>
      if isIdentifier l then some (.tokId (String.ofList l))
      else if isNumeral l && decimal l ≤ intMax then some (.tokNumber (BitVec.ofNat 32 (decimal l)))
      else none

/-- The tokens of the texts. -/
def Written (ts : List Token) (texts : List (List Char)) : Prop := texts.map tokenOf = ts.map some

section Tokens

variable {ts us : List Token} {texts texts' : List (List Char)} {t : Token} {l : List Char}

theorem fixedTokens_written : ∀ p ∈ fixedTokens, p.2.writable = true ∧ p.2.lexeme = p.1 := by decide

theorem mem_of_lookup {ps : List (List Char × Token)} (h : ps.lookup l = some t) : (l, t) ∈ ps := by
  obtain ⟨pre, post, rfl, _⟩ := List.lookup_eq_some_iff.mp h
  exact List.mem_append_right pre List.mem_cons_self

theorem keywords_fixed : ∀ l ∈ keywords, (fixedTokens.lookup l).isSome = true := by decide

/-- The words of the language, as tokens. -/
def keywordTokens : List Token := [.tokIf, .tokElse, .tokWhile, .tokPrint, .tokFunc, .tokReturn]

theorem Var.keyword (x : Var) (h : keywords.contains x.name.toList = true) :
    ∃ t ∈ keywordTokens, tokenOf x.name.toList = some t := by
  have hall : ∀ l ∈ keywords, ∃ t ∈ keywordTokens, tokenOf l = some t := by decide
  exact hall _ (List.contains_iff_mem.mp h)

theorem Var.token (x : Var) (h : keywords.contains x.name.toList = false) :
    tokenOf x.name.toList = some (.tokId x.name) := by
  have hnone : fixedTokens.lookup x.name.toList = none := by
    cases hl : fixedTokens.lookup x.name.toList with
    | none => rfl
    | some t =>
        have hk := fixedTokens_identifier _ (mem_of_lookup hl) x.shape
        rw [h] at hk
        cases hk
  rw [tokenOf, hnone]
  show (if isIdentifier x.name.toList then some (Token.tokId (String.ofList x.name.toList)) else _) = _
  rw [if_pos x.shape, String.ofList_toList]

/-- A number starts with a digit, as no other token does. -/
theorem Numeral.token (n : Numeral) : tokenOf n.digits =
    if decimal n.digits ≤ intMax then some (.tokNumber (BitVec.ofNat 32 (decimal n.digits))) else none := by
  obtain ⟨c, cs, hl, hd, _⟩ := isDigit_of_isNumeral n.shape
  -- no fixed text and no identifier starts with a digit
  have hnone : fixedTokens.lookup n.digits = none := by
    cases hf : fixedTokens.lookup n.digits with
    | none => rfl
    | some t =>
        have hno := fixedTokens_digit _ (mem_of_lookup hf) c (by rw [hl]; rfl)
        rw [hd] at hno
        cases hno
  have hid : isIdentifier n.digits = false := by
    rw [hl, isIdentifier]
    cases hc : c.isAlpha || c = '_' with
    | false => rfl
    | true =>
        rw [letter_not_digit hc] at hd
        cases hd
  have hnum : (isNumeral n.digits && decimal n.digits ≤ intMax) = decide (decimal n.digits ≤ intMax) := by
    rw [n.shape, Bool.true_and]
  rw [tokenOf, hnone]
  show (if isIdentifier n.digits = true then _ else _) = _
  rw [hid, hnum]
  simp only [Bool.false_eq_true, if_false, decide_eq_true_eq]

/-- The token is written with the text. -/
theorem lexeme_of_tokenOf (h : tokenOf l = some t) : t.lexeme = l ∧ t.writable = true := by
  unfold tokenOf at h
  split at h
  · rename_i u hu
    cases h
    exact (fixedTokens_written _ (mem_of_lookup hu)).symm
  · rename_i hnone
    split at h
    · rename_i hid
      cases h
      -- keywords are fixed texts, and the lookup failed
      have hkey : keywords.contains l = false := by
        by_contra hk
        have hsome := keywords_fixed l (List.contains_iff_mem.mp (Bool.eq_true_of_not_eq_false hk))
        rw [hnone] at hsome
        cases hsome
      refine ⟨String.toList_ofList, Bool.and_eq_true_iff.mpr ⟨?_, ?_⟩⟩
      · rwa [String.toList_ofList]
      · rw [String.toList_ofList, hkey]
        rfl
    · split at h
      · rename_i hnum
        cases h
        obtain ⟨hn, hle⟩ := Bool.and_eq_true_iff.mp hnum
        exact numeral_token ⟨l, hn⟩ (of_decide_eq_true hle)
      · cases h

theorem Written.nil : Written [] [] := rfl

theorem Written.one (h : tokenOf l = some t) : Written [t] [l] := congrArg (fun o => [o]) h

theorem Written.append (h : Written ts texts) (h' : Written us texts') :
    Written (ts ++ us) (texts ++ texts') := by
  unfold Written at h h' ⊢
  rw [List.map_append, List.map_append, h, h']

theorem Written.var {x : Var} (h : (!keywords.contains x.name.toList) = true) :
    Written [.tokId x.name] [x.name.toList] :=
  .one (x.token (by simpa using h))

/-- An operator of a level is a token of the level. -/
theorem operator_token {l : Level} {op : List Char} (h : op ∈ operators l) :
    ∃ t b, (t, b) ∈ l.operators ∧ tokenOf op = some t := by
  have hall : ∀ op ∈ operators l, ∃ p ∈ l.operators, tokenOf op = some p.1 := by
    cases l <;> decide
  obtain ⟨p, hp, ht⟩ := hall op h
  exact ⟨p.1, p.2, hp, ht⟩

/-- All signs but `~` are tokens. -/
theorem sign_token {op : List Char} (h : op ∈ signs) (hne : op ≠ ['~']) :
    ∃ t u, (t, u) ∈ unaryOperators ∧ tokenOf op = some t := by
  have hall : ∀ op ∈ signs, op ≠ ['~'] → ∃ p ∈ unaryOperators, tokenOf op = some p.1 := by
    decide
  obtain ⟨p, hp, ht⟩ := hall op h hne
  exact ⟨p.1, p.2, hp, ht⟩

theorem below_eq (l : Level) : below l = l.operand := by cases l <;> rfl

end Tokens

/-! ## Reading -/

/-- What a place is to `parser.y`. -/
def RendersIn : Place → List Token → Expression → Prop
  | .assignmentExpr => Renders .assignmentExpr
  | .level l => Renders (.level l)
  | .primary => Renders .primary

/-- **Expressions are read** as they are derived. -/
theorem Expr.read {p : Place} (e : Expr p) (h : e.readable = true) :
    ∃ ts v, Written ts e.texts ∧ RendersIn p ts v ∧ v.trace = e.events := by
  induction e with
  | ofOr e ih =>
      obtain ⟨ts, v, hw, hr, hv⟩ := ih h
      exact ⟨ts, v, hw, Renders.map (M := .level .or) hr .assignmentOr, hv⟩
  | assignment x e ih =>
      obtain ⟨hx, he⟩ := Bool.and_eq_true_iff.mp h
      obtain ⟨ts, v, hw, hr, hv⟩ := ih he
      have hassign : Written [.tokAssign] [['=']] := .one rfl
      refine ⟨_, _, ((Written.var hx).append hassign).append hw, Renders.assignment hr, ?_⟩
      rw [Expression.trace, hv, Expr.events]
  | operand hm e ih =>
      obtain ⟨ts, v, hw, hr, hv⟩ := ih h
      rw [below_eq] at hm
      exact ⟨ts, v, hw, Renders.map hr (.levelOperand hm), hv⟩
  -- the levels of the documented grammar are those of `parser.y`
  | operator hm op hop a b iha ihb =>
      obtain ⟨ha, hb⟩ := Bool.and_eq_true_iff.mp h
      obtain ⟨ts, v, hwa, hra, hva⟩ := iha ha
      obtain ⟨us, w, hwb, hrb, hvb⟩ := ihb hb
      obtain ⟨t, op', hop', ht⟩ := operator_token hop
      rw [below_eq] at hm
      refine ⟨_, _, (hwa.append (.one ht)).append hwb, Renders.map2 hra hrb (.levelOperator hm hop'), ?_⟩
      rw [Expression.trace, hva, hvb, Expr.events]
  | sign op hop e ih =>
      obtain ⟨hne, he⟩ := Bool.and_eq_true_iff.mp h
      obtain ⟨ts, v, hw, hr, hv⟩ := ih he
      obtain ⟨t, op', hop', ht⟩ := sign_token hop (of_decide_eq_true hne)
      exact ⟨_, _, (Written.one ht).append hw, Renders.map (M := .level .unary) hr (.unaryOperator hop'), hv⟩
  | ofPrimary e ih =>
      obtain ⟨ts, v, hw, hr, hv⟩ := ih h
      exact ⟨ts, v, hw, Renders.map (M := .primary) hr (fun hd => .unaryPostfix (.postfixPrimary hd)), hv⟩
  | paren e ih =>
      obtain ⟨ts, v, hw, hr, hv⟩ := ih h
      have hopen : Written [.tokLeftParen] [['(']] := .one rfl
      have hclose : Written [.tokRightParen] [[')']] := .one rfl
      have hexpr : Renders .expression ts v := Renders.map (M := .assignmentExpr) hr .expression
      exact ⟨_, v, (hopen.append hw).append hclose, hexpr.map .primaryParen, hv⟩
  | var x => exact ⟨_, .var x.name, .var h, Renders.primaryId, rfl⟩
  | number n =>
      have htoken := n.token
      rw [if_pos (of_decide_eq_true h)] at htoken
      exact ⟨_, .number _, .one htoken, .leaf .primaryNumber, rfl⟩

theorem Expr.read_expression (e : Expr .assignmentExpr) (h : e.readable = true) :
    ∃ ts v, Written ts e.texts ∧ Renders .expression ts v ∧ v.trace = e.events := by
  obtain ⟨ts, v, hw, hr, hv⟩ := e.read h
  exact ⟨ts, v, hw, Renders.map (M := .assignmentExpr) hr .expression, hv⟩

/-- The statements of a list with their tokens. -/
structure ReadAs (rs : List (List Token × Statement)) (ss : List Stmt) : Prop where
  renders : ∀ r ∈ rs, Renders .statement r.1 r.2
  written : Written (rs.flatMap Prod.fst) (textsOfStmts ss)
  trace : traceOfStmts (rs.map Prod.snd) = eventsOfStmts ss
  empty : startsEmpty ss = true → rs.head? = some ([.tokSemicolon], .emptyStmt)

/-- A list of statements that are read one by one. -/
theorem stmtList_renders (rs : List (List Token × Statement)) {ts : List Token} {pre : List Statement}
    (hpre : Renders .stmtList ts pre) (h : ∀ r ∈ rs, Renders .statement r.1 r.2) :
    Renders .stmtList (ts ++ rs.flatMap Prod.fst) (pre ++ rs.map Prod.snd) := by
  induction rs generalizing ts pre with
  | nil =>
      rw [List.flatMap_nil, List.map_nil, List.append_nil, List.append_nil]
      exact hpre
  | cons r rs ih =>
      rw [List.flatMap_cons, ← List.append_assoc, List.map_cons, List.append_cons]
      exact ih (hpre.map2 (h r List.mem_cons_self) .stmtSnoc) (fun r' hr => h r' (List.mem_cons_of_mem r hr))

theorem toplevel_renders (rs : List (List Token × Statement)) {ts : List Token} {pre : List Statement}
    (hpre : Renders .toplevelStmtList ts (pre.map some)) (h : ∀ r ∈ rs, Renders .statement r.1 r.2) :
    Renders .toplevelStmtList (ts ++ rs.flatMap Prod.fst) ((pre ++ rs.map Prod.snd).map some) := by
  induction rs generalizing ts pre with
  | nil =>
      rw [List.flatMap_nil, List.map_nil, List.append_nil, List.append_nil]
      exact hpre
  | cons r rs ih =>
      rw [List.flatMap_cons, ← List.append_assoc, List.map_cons, List.append_cons]
      refine ih ?_ (fun r' hr => h r' (List.mem_cons_of_mem r hr))
      rw [List.map_append]
      have hone : Renders .toplevelStatement r.1 (some r.2) := (h r List.mem_cons_self).map .toplevelStatement
      exact hpre.map2 hone .toplevelSnoc

theorem eq_emptyStmt {s : Stmt} {ss : List Stmt} (h : startsEmpty (s :: ss) = true) : s = .emptyStmt := by
  cases s with
  | emptyStmt => rfl
  | _ => cases h

theorem empty_renders : Renders .statement [.tokSemicolon] .emptyStmt :=
  Renders.map (M := .emptyStmt) (.leaf .emptyStmt) .statementEmpty

mutual

/-- A block in the place of a body. -/
theorem Stmt.read_block : ∀ s : Stmt, s.isBlock = true → s.readable = true →
    ∃ ts v, Written ts s.texts ∧ Renders .blockExpr ts v ∧ v.trace = s.events
  | .blockStmt ss, _, h => by
      obtain ⟨rs, hrs⟩ := stmts_read ss h
      have hopen : Written [.tokLeftBrace] [['\x7b']] := .one rfl
      have hclose : Written [.tokRightBrace] [['\x7d']] := .one rfl
      have hlist := Renders.blockExpr (stmtList_renders rs (.leaf .stmtNil) hrs.renders)
      refine ⟨_, _, (hopen.append hrs.written).append hclose, hlist, ?_⟩
      rw [Expression.trace, List.nil_append, hrs.trace, Stmt.events]
  | .assignmentStmt _ _, h, _ | .inputStmt _, h, _ | .ifStmt _ _, h, _ | .ifElseStmt _ _ _, h, _
  | .whileStmt _ _, h, _ | .printStmt _, h, _ | .emptyStmt, h, _ => by cases h

/-- Every other statement. -/
theorem Stmt.read : ∀ s : Stmt, s.isBlock = false → s.readable = true →
    ∃ ts v, Written ts s.texts ∧ Renders .statement ts v ∧ v.trace = s.events
  | .assignmentStmt x e, _, h => by
      obtain ⟨hx, he⟩ := Bool.and_eq_true_iff.mp h
      obtain ⟨ts, v, hw, hr, hv⟩ := e.read he
      have hassign : Written [.tokAssign] [['=']] := .one rfl
      have hsemi : Written [.tokSemicolon] [[';']] := .one rfl
      have hexpr : Renders .expression _ _ := (Renders.assignment (a := x.name) hr).map .expression
      have hstmt : Renders .statement _ _ := (hexpr.map (N := .exprStmt) .exprStmt).map .statementExpr
      refine ⟨_, _, (((Written.var hx).append hassign).append hw).append hsemi, hstmt, ?_⟩
      rw [Statement.trace, Expression.trace, hv, Stmt.events]
  -- the input is an expression of `parser.y`, and so the statement an assignment
  | .inputStmt x, _, h => by
      have hrest : Written [.tokAssign, .tokInput, .tokSemicolon] [['='], ['?'], [';']] := rfl
      have hinput : Renders .primary [.tokInput] .input :=
        Renders.map (M := .inputExpr) (.leaf .inputExpr) .primaryInput
      have hat : RendersAt 0 [.tokInput] .input := RendersAt.mono (n := 10) hinput (Nat.zero_le 10)
      have hexpr : Renders .expression _ _ := (Renders.assignment (a := x.name) hat).map .expression
      have hstmt : Renders .statement _ _ := (hexpr.map (N := .exprStmt) .exprStmt).map .statementExpr
      exact ⟨_, _, (Written.var h).append hrest, hstmt, rfl⟩
  | .ifStmt c body, _, h => by
      obtain ⟨hc, hb⟩ := Bool.and_eq_true_iff.mp h
      obtain ⟨hblock, hbody⟩ := Bool.and_eq_true_iff.mp hb
      obtain ⟨ts, v, hw, hr, hv⟩ := c.read_expression hc
      obtain ⟨us, w, hw', hr', hv'⟩ := body.read_block hblock hbody
      have hif : Written [.tokIf, .tokLeftParen] [['i', 'f'], ['(']] := rfl
      have hclose : Written [.tokRightParen] [[')']] := .one rfl
      have hstmt : Renders .statement _ _ := (hr.map2 hr' (N := .ifStmt) .ifThen).map .statementIf
      refine ⟨_, _, ((hif.append hw).append hclose).append hw', hstmt, ?_⟩
      rw [Statement.trace, hv, hv', Stmt.events]
  | .ifElseStmt c body elseBody, _, h => by
      obtain ⟨hcb, he⟩ := Bool.and_eq_true_iff.mp h
      obtain ⟨hc, hb⟩ := Bool.and_eq_true_iff.mp hcb
      obtain ⟨hblock, hbody⟩ := Bool.and_eq_true_iff.mp hb
      obtain ⟨heblock, hebody⟩ := Bool.and_eq_true_iff.mp he
      obtain ⟨ts, v, hw, hr, hv⟩ := c.read_expression hc
      obtain ⟨us, w, hw', hr', hv'⟩ := body.read_block hblock hbody
      obtain ⟨vs, z, hw'', hr'', hv''⟩ := elseBody.read_block heblock hebody
      have hif : Written [.tokIf, .tokLeftParen] [['i', 'f'], ['(']] := rfl
      have hclose : Written [.tokRightParen] [[')']] := .one rfl
      have helse : Written [.tokElse] [['e', 'l', 's', 'e']] := .one rfl
      have hstmt : Renders .statement _ _ := (hr.map3 hr' hr'' (N := .ifStmt) .ifThenElse).map .statementIf
      refine ⟨_, _, ((((hif.append hw).append hclose).append hw').append helse).append hw'', hstmt, ?_⟩
      rw [Statement.trace, hv, hv', hv'', Stmt.events]
  | .whileStmt c body, _, h => by
      obtain ⟨hc, hb⟩ := Bool.and_eq_true_iff.mp h
      obtain ⟨hblock, hbody⟩ := Bool.and_eq_true_iff.mp hb
      obtain ⟨ts, v, hw, hr, hv⟩ := c.read_expression hc
      obtain ⟨us, w, hw', hr', hv'⟩ := body.read_block hblock hbody
      have hwhile : Written [.tokWhile, .tokLeftParen] [['w', 'h', 'i', 'l', 'e'], ['(']] := rfl
      have hclose : Written [.tokRightParen] [[')']] := .one rfl
      have hstmt : Renders .statement _ _ := (hr.map2 hr' (N := .whileStmt) .whileStmt).map .statementWhile
      refine ⟨_, _, ((hwhile.append hw).append hclose).append hw', hstmt, ?_⟩
      rw [Statement.trace, hv, hv', Stmt.events]
  | .printStmt e, _, h => by
      obtain ⟨ts, v, hw, hr, hv⟩ := e.read_expression h
      have hprint : Written [.tokPrint] [['p', 'r', 'i', 'n', 't']] := .one rfl
      have hsemi : Written [.tokSemicolon] [[';']] := .one rfl
      have hstmt : Renders .statement _ _ := (hr.map (N := .printStmt) .printStmt).map .statementPrint
      exact ⟨_, _, (hprint.append hw).append hsemi, hstmt, hv⟩
  | .emptyStmt, _, _ =>
      ⟨_, _, .one (t := .tokSemicolon) rfl, empty_renders, rfl⟩
  | .blockStmt _, h, _ => by cases h

/-- **Statements are read** one after the other; a block takes the empty statement that follows it. -/
theorem stmts_read : ∀ ss : List Stmt, stmtsReadable ss = true → ∃ rs, ReadAs rs ss
  | [], _ => ⟨[], fun r hr => absurd hr List.not_mem_nil, .nil, rfl, fun h => by cases h⟩
  | s :: ss, h => by
      obtain ⟨hs, hss⟩ := Bool.and_eq_true_iff.mp h
      obtain ⟨hs, hnext⟩ := Bool.and_eq_true_iff.mp hs
      obtain ⟨rs, hrs⟩ := stmts_read ss hss
      cases hb : s.isBlock with
      | false =>
          obtain ⟨ts, v, hw, hr, hv, hempty⟩ : ∃ ts v, Written ts s.texts ∧ Renders .statement ts v ∧
              v.trace = s.events ∧ (s = .emptyStmt → ts = [.tokSemicolon] ∧ v = .emptyStmt) := by
            cases he : startsEmpty [s] with
            | false =>
                obtain ⟨ts, v, hw, hr, hv⟩ := s.read hb hs
                refine ⟨ts, v, hw, hr, hv, fun h => ?_⟩
                rw [h] at he
                cases he
            | true =>
                obtain rfl := eq_emptyStmt he
                exact ⟨_, _, .one (t := .tokSemicolon) rfl, empty_renders, rfl, fun _ => ⟨rfl, rfl⟩⟩
          refine ⟨(ts, v) :: rs, ?_, hw.append hrs.written, ?_, fun he => ?_⟩
          · rintro r hr'
            rcases List.mem_cons.mp hr' with rfl | hr'
            · exact hr
            · exact hrs.renders r hr'
          · rw [List.map_cons, traceOfStmts, hv, hrs.trace, eventsOfStmts]
          · obtain ⟨rfl, rfl⟩ := hempty (eq_emptyStmt he)
            rfl
      | true =>
          obtain ⟨ts, v, hw, hr, hv⟩ := s.read_block hb hs
          rw [hb] at hnext
          -- the empty statement behind the block becomes the `;` of the expression statement
          obtain ⟨rs', rfl⟩ : ∃ rs', rs = ([.tokSemicolon], .emptyStmt) :: rs' := by
            cases rs with
            | nil => cases hrs.empty hnext
            | cons r rs' =>
                cases hrs.empty hnext
                exact ⟨rs', rfl⟩
          have hprimary : Renders .primary ts v := hr.map .primaryBlock
          have hat : RendersAt 0 ts v := RendersAt.mono (n := 10) hprimary (Nat.zero_le 10)
          have hexpr : Renders .expression ts v := Renders.map (M := .assignmentExpr) hat .expression
          have hstmt : Renders .statement (ts ++ [.tokSemicolon]) (.exprStmt v) :=
            (hexpr.map (N := .exprStmt) .exprStmt).map .statementExpr
          refine ⟨(ts ++ [.tokSemicolon], .exprStmt v) :: rs', ?_, ?_, ?_, fun he => ?_⟩
          · rintro r hr'
            rcases List.mem_cons.mp hr' with rfl | hr'
            · exact hstmt
            · exact hrs.renders r (List.mem_cons_of_mem _ hr')
          · have hall := hw.append hrs.written
            rwa [List.flatMap_cons, ← List.append_assoc] at hall
          · have htrace := hrs.trace
            rw [List.map_cons, traceOfStmts, Statement.trace, List.nil_append] at htrace
            rw [List.map_cons, traceOfStmts, Statement.trace, hv, htrace, eventsOfStmts]
          · rw [eq_emptyStmt he] at hb
            cases hb

end

end Readme

/-! ## Texts -/

/-- No unmatched brace among the top-level statements. -/
def NoBrace : (N : Nonterminal) → N.Value → Prop
  | .program, v | .toplevelStmtList, v => ∀ st ∈ v, st ≠ none
  | .toplevelStatement, v => v ≠ none
  | _, _ => True

/-- Every error is about a name. -/
def ParserState.OnlyNames (s : ParserState) : Prop := ∀ e ∈ s.errors, ∃ x, e = .undeclared x

theorem useName_onlyNames {s s' : ParserState} {x y : Name} (h : s.useName x = .ok (y, s'))
    (hs : s.OnlyNames) : s'.OnlyNames := by
  unfold ParserState.useName at h
  unfold ParserState.OnlyNames
  cases hl : s.scopes.lookup x with
  | none =>
      rw [hl] at h
      rw [addVarToScope_errors h]
      intro e he
      rcases List.mem_append.mp he with he | he
      · exact hs e he
      · exact ⟨x, List.mem_singleton.mp he⟩
  | some z =>
      rw [hl] at h
      cases h
      exact hs

theorem Derives.onlyNames {N : Nonterminal} {ts : List Token} {s s' : ParserState} {v : N.Value}
    (h : Derives false N ts s v s') (hv : NoBrace N v) (hs : s.OnlyNames) : s'.OnlyNames := by
  induction h with
  | program _ ih => exact ih hv hs
  | toplevelSnoc _ _ ih1 ih2 =>
      have h1 := ih1 (fun st h => hv st (List.mem_append_left _ h)) hs
      exact ih2 (hv _ (List.mem_append_right _ (List.mem_singleton.mpr rfl))) h1
  | toplevelBrace => exact absurd rfl hv
  | toplevelNil | stmtNil | emptyStmt | returnNone | optArgNone | primaryNumber | inputExpr
  | optParamNone | funcNameNone => exact hs
  | statementError hr | ifError hr | ifParenError hr | whileError hr | whileParenError hr => cases hr
  | stmtSnoc _ _ ih1 ih2 | ifThen _ _ ih1 ih2 | whileStmt _ _ ih1 ih2 | levelOperator _ _ _ _ ih1 ih2
  | postfixCall _ _ ih1 ih2 | argSnoc _ _ ih1 ih2 => exact ih2 trivial (ih1 trivial hs)
  | ifThenElse _ _ _ ih1 ih2 ih3 => exact ih3 trivial (ih2 trivial (ih1 trivial hs))
  | assignment _ hx ih =>
      have h1 := ih trivial hs
      unfold ParserState.OnlyNames at h1 ⊢
      rwa [assignName_errors hx]
  | primaryId hx => exact useName_onlyNames hx hs
  | blockExpr _ hp ih =>
      have h1 := ih trivial hs
      unfold ParserState.OnlyNames at h1 ⊢
      rwa [popScope_errors hp]
  | functionExpr _ _ _ hp ih1 ih2 ih3 =>
      have h3 := ih3 trivial (ih2 trivial (ih1 trivial hs))
      unfold ParserState.OnlyNames at h3 ⊢
      rwa [popScope_errors hp]
  | paramOne hx | funcNameSome hx =>
      unfold ParserState.OnlyNames at hs ⊢
      rwa [addVarToScope_errors hx]
  | paramSnoc _ hx ih =>
      have h1 := ih trivial hs
      unfold ParserState.OnlyNames at h1 ⊢
      rwa [addVarToScope_errors hx]
  | _ => rename_i ih; exact ih trivial hs

namespace Readme

variable {describe : List Terminal → Terminal → String} {ss : List Stmt} {seps : List Separator} {n : Nat}

theorem traceOfProgram_some (vs : List Statement) : traceOfProgram (vs.map some) = traceOfStmts vs := by
  induction vs with
  | nil => rfl
  | cons v vs ih =>
      rw [traceOfStmts, ← ih]
      simp [traceOfProgram]

/-- **A documented program that keeps to what the parser takes is a program.** -/
theorem errorFree_of_readable (hr : stmtsReadable ss = true) (hb : Bound (eventsOfStmts ss)) :
    ∃ ts, Written ts (textsOfStmts ss) ∧ ErrorFree ts := by
  obtain ⟨rs, hrs⟩ := stmts_read ss hr
  have hnil : Renders .toplevelStmtList [] (([] : List Statement).map some) := .leaf .toplevelNil
  have hlist := toplevel_renders rs hnil hrs.renders
  rw [List.nil_append, List.nil_append] at hlist
  have hprogram : Renders .program _ _ := hlist.map .program
  obtain ⟨s, hd, _⟩ := hprogram .init (List.cons_ne_nil _ _)
  have htrace : traceOfProgram ((rs.map Prod.snd).map some) = eventsOfStmts ss :=
    (traceOfProgram_some _).trans hrs.trace
  have hnames : s.OnlyNames := by
    refine hd.onlyNames (fun st hst => ?_) (fun e he => absurd he List.not_mem_nil)
    obtain ⟨v, _, rfl⟩ := List.mem_map.mp hst
    exact Option.some_ne_none v
  have herrors : s.errors = [] := by
    have hlex := (reported_iff hd).mpr (htrace ▸ hb)
    apply List.eq_nil_iff_forall_not_mem.mpr
    intro e he
    obtain ⟨x, rfl⟩ := hnames e he
    exact hlex x he
  exact ⟨_, hrs.written, _, s, hd, herrors⟩

end Readme

end ParaCL
