import ParaCL.Parser.Scope
import ParaCL.Parser.Token

/-!
# `Parser.Grammar` — the productions and semantic actions of `parser.y`

`Derives recover N toks s v s'` says that nonterminal `N` derives the tokens `toks`, that its semantic
value `$$` is `v`, and that running the actions of the derivation in the order a bottom-up parser runs
them (a mid-rule action before the symbols after it, a rule's action after its last symbol) takes the
parser from state `s` to state `s'`. There is one constructor for each production. With
`recover = false` the productions that contain the `error` symbol are left out.

The seven levels of binary operators have one shape, `level : operand | level OP operand`, and with
`unary`, the operand of the last one, they are one nonterminal `level l` with the table of their
operators.
-/

namespace ParaCL

/-- What `yy::parser::error` is called with, the location apart. -/
inductive ParseError where
  | undeclared (name : Name)
  | unmatchedBrace
  | syntaxError (text : String)
  deriving DecidableEq, Repr

def ParseError.message : ParseError → String
  | .undeclared name => "'" ++ name ++ "' was not declared in this scope"
  | .unmatchedBrace => "unmatched '\x7d'"
  | .syntaxError text => text

/-- What the actions read and write: the scopes and the collected errors of `My_parser`. -/
structure ParserState where
  scopes : Scope
  errors : List ParseError

namespace ParserState

/-- The state of a fresh `My_parser`. -/
def init : ParserState := ⟨.init, []⟩

def addError (s : ParserState) (e : ParseError) : ParserState := { s with errors := s.errors ++ [e] }

def pushScope (s : ParserState) : ParserState := { s with scopes := s.scopes.push }

def popScope (s : ParserState) : Except String ParserState := do
  let scopes ← s.scopes.pop
  return { s with scopes }

def addVarToScope (s : ParserState) (x : Name) : Except String (Name × ParserState) := do
  let (name, scopes) ← s.scopes.addVariable x
  return (name, { s with scopes })

/-- The action of `assignment_expr : TOK_ID TOK_ASSIGN assignment_expr` on the name. -/
def assignName (s : ParserState) (x : Name) : Except String (Name × ParserState) :=
  match s.scopes.lookup x with
  | some name => .ok (name, s)
  | none => s.addVarToScope x

/-- The action of `primary : TOK_ID`: an unknown name is reported, then declared. -/
def useName (s : ParserState) (x : Name) : Except String (Name × ParserState) :=
  match s.scopes.lookup x with
  | some name => .ok (name, s)
  | none => (s.addError (.undeclared x)).addVarToScope x

end ParserState

/-! ## Nonterminals -/

/-- The levels of operators, loosest first. -/
inductive Level where
  | or | and | bitwiseOp | equality | relational | addSub | mulDiv | unary
  deriving DecidableEq, Repr

inductive Nonterminal where
  | program | toplevelStmtList | toplevelStatement | stmtList | statement
  | emptyStmt | exprStmt | ifStmt | whileStmt | printStmt | returnStmt
  | expression | assignmentExpr | level (l : Level) | postfixExpr
  | optArgList | argList | primary | inputExpr | blockExpr | functionExpr
  | optParamList | paramList | optFuncName

/-- The binary operators of a level, with the node each builds. -/
def Level.operators : Level → List (Token × BinaryOperators)
  | .or => [(.tokLogOr, .logOr)]
  | .and => [(.tokLogAnd, .logAnd)]
  | .bitwiseOp => [(.tokAnd, .and), (.tokXor, .xor), (.tokOr, .or)]
  | .equality => [(.tokEq, .eq), (.tokNeq, .neq)]
  | .relational =>
      [(.tokLess, .less), (.tokLessOrEq, .lessEq), (.tokGreater, .greater),
        (.tokGreaterOrEq, .greaterEq)]
  | .addSub => [(.tokPlus, .add), (.tokMinus, .sub)]
  | .mulDiv => [(.tokMul, .mul), (.tokDiv, .div), (.tokRemDiv, .remDiv)]
  | .unary => []

/-- The level of the operands. -/
def Level.operand : Level → Option Level
  | .or => some .and
  | .and => some .bitwiseOp
  | .bitwiseOp => some .equality
  | .equality => some .relational
  | .relational => some .addSub
  | .addSub => some .mulDiv
  | .mulDiv => some .unary
  | .unary => none

/-- The prefix operators of `unary`. -/
def unaryOperators : List (Token × UnaryOperators) :=
  [(.tokMinus, .neg), (.tokPlus, .plus), (.tokNot, .not)]

/-- The `%type` declarations. The `Statement *` of a top-level statement may be null: the action for an
    unmatched brace does not set `$$`. -/
abbrev Nonterminal.Value : Nonterminal → Type
  | .program | .toplevelStmtList => List (Option Statement)
  | .toplevelStatement => Option Statement
  | .stmtList => List Statement
  | .statement | .emptyStmt | .exprStmt | .ifStmt | .whileStmt | .printStmt | .returnStmt => Statement
  | .expression | .assignmentExpr | .level _ | .postfixExpr | .primary | .inputExpr | .blockExpr
  | .functionExpr => Expression
  | .optArgList | .argList => List Expression
  | .optParamList | .paramList => List Name
  | .optFuncName => Option Name

/-! ## Derivations -/

/-- What an `error` symbol stands for: tokens dropped by the recovery. It is entered with a report, except
    shortly after another one, so some error has been recorded by its end. The scopes opened by discarded
    symbols are not closed, so nothing is said about them. -/
def Recovers (s s' : ParserState) : Prop := s.errors <+: s'.errors ∧ s'.errors ≠ []

open Nonterminal Token in
/-- The productions, with their actions. -/
inductive Derives (recover : Bool) :
    (N : Nonterminal) → List Token → ParserState → N.Value → ParserState → Prop where
  | program {ts s ss s'} (h : Derives recover toplevelStmtList ts s ss s') :
      Derives recover program (ts ++ [tokEof]) s ss s'
  | toplevelNil {s} : Derives recover toplevelStmtList [] s [] s
  | toplevelSnoc {ts us s ss s1 st s'} (h1 : Derives recover toplevelStmtList ts s ss s1)
      (h2 : Derives recover toplevelStatement us s1 st s') :
      Derives recover toplevelStmtList (ts ++ us) s (ss ++ [st]) s'
  | toplevelStatement {ts s st s'} (h : Derives recover statement ts s st s') :
      Derives recover toplevelStatement ts s (some st) s'
  | toplevelBrace {s} :
      Derives recover toplevelStatement [tokRightBrace] s none (s.addError .unmatchedBrace)
  | stmtNil {s} : Derives recover stmtList [] s [] s
  | stmtSnoc {ts us s ss s1 st s'} (h1 : Derives recover stmtList ts s ss s1)
      (h2 : Derives recover statement us s1 st s') :
      Derives recover stmtList (ts ++ us) s (ss ++ [st]) s'
  -- statement
  | statementIf {ts s st s'} (h : Derives recover ifStmt ts s st s') :
      Derives recover statement ts s st s'
  | statementWhile {ts s st s'} (h : Derives recover whileStmt ts s st s') :
      Derives recover statement ts s st s'
  | statementPrint {ts s st s'} (h : Derives recover printStmt ts s st s') :
      Derives recover statement (ts ++ [tokSemicolon]) s st s'
  | statementReturn {ts s st s'} (h : Derives recover returnStmt ts s st s') :
      Derives recover statement (ts ++ [tokSemicolon]) s st s'
  | statementExpr {ts s st s'} (h : Derives recover exprStmt ts s st s') :
      Derives recover statement ts s st s'
  | statementEmpty {ts s st s'} (h : Derives recover emptyStmt ts s st s') :
      Derives recover statement ts s st s'
  | statementError {ts s s'} (hr : recover = true) (h : Recovers s s') :
      Derives recover statement (ts ++ [tokSemicolon]) s .emptyStmt s'
  | emptyStmt {s} : Derives recover emptyStmt [tokSemicolon] s .emptyStmt s
  | exprStmt {ts s e s'} (h : Derives recover expression ts s e s') :
      Derives recover exprStmt (ts ++ [tokSemicolon]) s (.exprStmt e) s'
  -- if_stmt
  | ifThen {ts us s c s1 t s'} (hc : Derives recover expression ts s c s1)
      (ht : Derives recover blockExpr us s1 t s') :
      Derives recover ifStmt ([tokIf, tokLeftParen] ++ ts ++ [tokRightParen] ++ us) s
        (.ifStmt c t none) s'
  | ifThenElse {ts us vs s c s1 t s2 e s'} (hc : Derives recover expression ts s c s1)
      (ht : Derives recover blockExpr us s1 t s2) (he : Derives recover blockExpr vs s2 e s') :
      Derives recover ifStmt
        ([tokIf, tokLeftParen] ++ ts ++ [tokRightParen] ++ us ++ [tokElse] ++ vs) s
        (.ifStmt c t (some e)) s'
  | ifError {ts us s s1 b s'} (hr : recover = true) (h : Recovers s s1)
      (hb : Derives recover blockExpr us s1 b s') :
      Derives recover ifStmt ([tokIf] ++ ts ++ [tokRightParen] ++ us) s .emptyStmt s'
  | ifParenError {ts us s s1 b s'} (hr : recover = true) (h : Recovers s s1)
      (hb : Derives recover blockExpr us s1 b s') :
      Derives recover ifStmt ([tokIf, tokLeftParen] ++ ts ++ us) s .emptyStmt s'
  -- while_stmt
  | whileStmt {ts us s c s1 b s'} (hc : Derives recover expression ts s c s1)
      (hb : Derives recover blockExpr us s1 b s') :
      Derives recover whileStmt ([tokWhile, tokLeftParen] ++ ts ++ [tokRightParen] ++ us) s
        (.whileStmt c b) s'
  | whileError {ts us s s1 b s'} (hr : recover = true) (h : Recovers s s1)
      (hb : Derives recover blockExpr us s1 b s') :
      Derives recover whileStmt ([tokWhile] ++ ts ++ [tokRightParen] ++ us) s .emptyStmt s'
  | whileParenError {ts us s s1 b s'} (hr : recover = true) (h : Recovers s s1)
      (hb : Derives recover blockExpr us s1 b s') :
      Derives recover whileStmt ([tokWhile, tokLeftParen] ++ ts ++ us) s .emptyStmt s'
  | printStmt {ts s e s'} (h : Derives recover expression ts s e s') :
      Derives recover printStmt ([tokPrint] ++ ts) s (.printStmt e) s'
  | returnNone {s} : Derives recover returnStmt [tokReturn] s (.returnStmt none) s
  | returnSome {ts s e s'} (h : Derives recover expression ts s e s') :
      Derives recover returnStmt ([tokReturn] ++ ts) s (.returnStmt (some e)) s'
  -- expressions
  | expression {ts s e s'} (h : Derives recover assignmentExpr ts s e s') :
      Derives recover expression ts s e s'
  | assignmentOr {ts s e s'} (h : Derives recover (level .or) ts s e s') :
      Derives recover assignmentExpr ts s e s'
  | assignment {x ts s e s1 y s'} (h : Derives recover assignmentExpr ts s e s1)
      (hx : s1.assignName x = .ok (y, s')) :
      Derives recover assignmentExpr ([tokId x, tokAssign] ++ ts) s (.assignmentExpr y e) s'
  | levelOperand {l m ts s e s'} (hm : l.operand = some m) (h : Derives recover (level m) ts s e s') :
      Derives recover (level l) ts s e s'
  | levelOperator {l m ts us s a s1 b s' t op} (hm : l.operand = some m) (hop : (t, op) ∈ l.operators)
      (ha : Derives recover (level l) ts s a s1) (hb : Derives recover (level m) us s1 b s') :
      Derives recover (level l) (ts ++ [t] ++ us) s (.binaryOperator op a b) s'
  | unaryOperator {t op ts s e s'} (hop : (t, op) ∈ unaryOperators)
      (h : Derives recover (level .unary) ts s e s') :
      Derives recover (level .unary) ([t] ++ ts) s (.unaryOperator op e) s'
  | unaryPostfix {ts s e s'} (h : Derives recover postfixExpr ts s e s') :
      Derives recover (level .unary) ts s e s'
  | postfixPrimary {ts s e s'} (h : Derives recover primary ts s e s') :
      Derives recover postfixExpr ts s e s'
  | postfixCall {ts us s e s1 es s'} (h : Derives recover postfixExpr ts s e s1)
      (ha : Derives recover optArgList us s1 es s') :
      Derives recover postfixExpr (ts ++ [tokLeftParen] ++ us ++ [tokRightParen]) s (.call e es) s'
  | optArgNone {s} : Derives recover optArgList [] s [] s
  | optArgSome {ts s es s'} (h : Derives recover argList ts s es s') :
      Derives recover optArgList ts s es s'
  | argOne {ts s e s'} (h : Derives recover expression ts s e s') :
      Derives recover argList ts s [e] s'
  | argSnoc {ts us s es s1 e s'} (h : Derives recover argList ts s es s1)
      (he : Derives recover expression us s1 e s') :
      Derives recover argList (ts ++ [tokComma] ++ us) s (es ++ [e]) s'
  -- primary
  | primaryNumber {n s} : Derives recover primary [tokNumber n] s (.number n) s
  | primaryId {x s y s'} (hx : s.useName x = .ok (y, s')) :
      Derives recover primary [tokId x] s (.var y) s'
  | primaryParen {ts s e s'} (h : Derives recover expression ts s e s') :
      Derives recover primary ([tokLeftParen] ++ ts ++ [tokRightParen]) s e s'
  | primaryFunction {ts s e s'} (h : Derives recover functionExpr ts s e s') :
      Derives recover primary ts s e s'
  | primaryInput {ts s e s'} (h : Derives recover inputExpr ts s e s') :
      Derives recover primary ts s e s'
  | primaryBlock {ts s e s'} (h : Derives recover blockExpr ts s e s') :
      Derives recover primary ts s e s'
  | inputExpr {s} : Derives recover inputExpr [tokInput] s .input s
  | blockExpr {ts s ss s1 s'} (h : Derives recover stmtList ts s.pushScope ss s1)
      (hp : s1.popScope = .ok s') :
      Derives recover blockExpr ([tokLeftBrace] ++ ts ++ [tokRightBrace]) s (.blockExpr ss) s'
  | functionExpr {ts us vs s ps s1 name s2 ss s3 s'}
      (hps : Derives recover optParamList ts s.pushScope ps s1)
      (hn : Derives recover optFuncName us s1 name s2)
      (h : Derives recover stmtList vs s2 ss s3) (hp : s3.popScope = .ok s') :
      Derives recover functionExpr
        ([tokFunc, tokLeftParen] ++ ts ++ [tokRightParen] ++ us ++ [tokLeftBrace] ++ vs
          ++ [tokRightBrace]) s (.func name ps (.blockExpr ss)) s'
  | optParamNone {s} : Derives recover optParamList [] s [] s
  | optParamSome {ts s ps s'} (h : Derives recover paramList ts s ps s') :
      Derives recover optParamList ts s ps s'
  | paramOne {x s y s'} (hx : s.addVarToScope x = .ok (y, s')) :
      Derives recover paramList [tokId x] s [y] s'
  | paramSnoc {x ts s ps s1 y s'} (h : Derives recover paramList ts s ps s1)
      (hx : s1.addVarToScope x = .ok (y, s')) :
      Derives recover paramList (ts ++ [tokComma, tokId x]) s (ps ++ [y]) s'
  | funcNameNone {s} : Derives recover optFuncName [] s none s
  | funcNameSome {x s y s'} (hx : s.addVarToScope x = .ok (y, s')) :
      Derives recover optFuncName [tokColon, tokId x] s (some y) s'

end ParaCL
