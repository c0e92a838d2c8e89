import ParaCL.Lib.Items
import ParaCL.Parser.Grammar

/-!
# `Parser.Productions` — the productions of `parser.y` as a grammar

The symbols are the nonterminals of `Parser.Grammar` and the three that Bison adds: `$accept` and one for
each mid-rule action. A production of `Derives` keeps its name; the operators of a level share one.
-/

namespace ParaCL

open Lib

deriving instance DecidableEq for Nonterminal

/-- The left-hand sides. -/
inductive Lhs where
  | accept
  | blockOpen
  | functionOpen
  | of (N : Nonterminal)
  deriving DecidableEq

/-- The level of a binary operator. -/
def BinaryOperators.level : BinaryOperators → Level
  | .logOr => .or
  | .logAnd => .and
  | .and | .xor | .or => .bitwiseOp
  | .eq | .neq => .equality
  | .less | .lessEq | .greater | .greaterEq => .relational
  | .add | .sub => .addSub
  | .mul | .div | .remDiv => .mulDiv

def BinaryOperators.terminal : BinaryOperators → Terminal
  | .logOr => .tokLogOr | .logAnd => .tokLogAnd
  | .and => .tokAnd | .xor => .tokXor | .or => .tokOr
  | .eq => .tokEq | .neq => .tokNeq
  | .less => .tokLess | .lessEq => .tokLessOrEq | .greater => .tokGreater | .greaterEq => .tokGreaterOrEq
  | .add => .tokPlus | .sub => .tokMinus
  | .mul => .tokMul | .div => .tokDiv | .remDiv => .tokRemDiv

def UnaryOperators.terminal : UnaryOperators → Terminal
  | .neg => .tokMinus | .plus => .tokPlus | .not => .tokNot

/-- What a level falls back to: its operands. -/
def Level.below : Level → Nonterminal
  | .or => .level .and
  | .and => .level .bitwiseOp
  | .bitwiseOp => .level .equality
  | .equality => .level .relational
  | .relational => .level .addSub
  | .addSub => .level .mulDiv
  | .mulDiv => .level .unary
  | .unary => .postfixExpr

/-- The productions. -/
inductive Rule where
  | accept
  | program | toplevelNil | toplevelSnoc | toplevelStatement | toplevelBrace
  | stmtNil | stmtSnoc
  | statementIf | statementWhile | statementPrint | statementReturn | statementExpr | statementEmpty
  | statementError
  | emptyStmt | exprStmt
  | ifThen | ifThenElse | ifError | ifParenError
  | whileStmt | whileError | whileParenError
  | printStmt | returnNone | returnSome
  | expression | assignmentOr | assignment
  | operand (l : Level) | binary (op : BinaryOperators) | unary (op : UnaryOperators)
  | postfixPrimary | postfixCall
  | optArgNone | optArgSome | argOne | argSnoc
  | primaryNumber | primaryId | primaryParen | primaryFunction | primaryInput | primaryBlock
  | inputExpr
  | blockOpen | blockExpr
  | functionOpen | functionExpr
  | optParamNone | optParamSome | paramOne | paramSnoc
  | funcNameNone | funcNameSome
  deriving DecidableEq

namespace Rule

/-- The left-hand side. -/
def lhs : Rule → Lhs
  | accept => .accept
  | program => .of .program
  | toplevelNil | toplevelSnoc => .of .toplevelStmtList
  | toplevelStatement | toplevelBrace => .of .toplevelStatement
  | stmtNil | stmtSnoc => .of .stmtList
  | statementIf | statementWhile | statementPrint | statementReturn | statementExpr | statementEmpty
  | statementError => .of .statement
  | emptyStmt => .of .emptyStmt
  | exprStmt => .of .exprStmt
  | ifThen | ifThenElse | ifError | ifParenError => .of .ifStmt
  | whileStmt | whileError | whileParenError => .of .whileStmt
  | printStmt => .of .printStmt
  | returnNone | returnSome => .of .returnStmt
  | expression => .of .expression
  | assignmentOr | assignment => .of .assignmentExpr
  | operand l => .of (.level l)
  | binary op => .of (.level op.level)
  | unary _ => .of (.level .unary)
  | postfixPrimary | postfixCall => .of .postfixExpr
  | optArgNone | optArgSome => .of .optArgList
  | argOne | argSnoc => .of .argList
  | primaryNumber | primaryId | primaryParen | primaryFunction | primaryInput | primaryBlock =>
      .of .primary
  | inputExpr => .of .inputExpr
  | blockOpen => .blockOpen
  | blockExpr => .of .blockExpr
  | functionOpen => .functionOpen
  | functionExpr => .of .functionExpr
  | optParamNone | optParamSome => .of .optParamList
  | paramOne | paramSnoc => .of .paramList
  | funcNameNone | funcNameSome => .of .optFuncName

/-- A nonterminal in a right-hand side. -/
private def n (N : Nonterminal) : GrammarSymbol Terminal Lhs := .nonterminal (.of N)

private def t (T : Terminal) : GrammarSymbol Terminal Lhs := .terminal T

/-- The right-hand side. -/
def rhs : Rule → List (GrammarSymbol Terminal Lhs)
  | accept => [n .program, t .tokEof]
  | program => [n .toplevelStmtList, t .tokEof]
  | toplevelNil => []
  | toplevelSnoc => [n .toplevelStmtList, n .toplevelStatement]
  | toplevelStatement => [n .statement]
  | toplevelBrace => [t .tokRightBrace]
  | stmtNil => []
  | stmtSnoc => [n .stmtList, n .statement]
  | statementIf => [n .ifStmt]
  | statementWhile => [n .whileStmt]
  | statementPrint => [n .printStmt, t .tokSemicolon]
  | statementReturn => [n .returnStmt, t .tokSemicolon]
  | statementExpr => [n .exprStmt]
  | statementEmpty => [n .emptyStmt]
  | statementError => [t .error, t .tokSemicolon]
  | emptyStmt => [t .tokSemicolon]
  | exprStmt => [n .expression, t .tokSemicolon]
  | ifThen => [t .tokIf, t .tokLeftParen, n .expression, t .tokRightParen, n .blockExpr]
  | ifThenElse =>
      [t .tokIf, t .tokLeftParen, n .expression, t .tokRightParen, n .blockExpr, t .tokElse,
        n .blockExpr]
  | ifError => [t .tokIf, t .error, t .tokRightParen, n .blockExpr]
  | ifParenError => [t .tokIf, t .tokLeftParen, t .error, n .blockExpr]
  | whileStmt => [t .tokWhile, t .tokLeftParen, n .expression, t .tokRightParen, n .blockExpr]
  | whileError => [t .tokWhile, t .error, t .tokRightParen, n .blockExpr]
  | whileParenError => [t .tokWhile, t .tokLeftParen, t .error, n .blockExpr]
  | printStmt => [t .tokPrint, n .expression]
  | returnNone => [t .tokReturn]
  | returnSome => [t .tokReturn, n .expression]
  | expression => [n .assignmentExpr]
  | assignmentOr => [n (.level .or)]
  | assignment => [t .tokId, t .tokAssign, n .assignmentExpr]
  | operand l => [n l.below]
  | binary op => [n (.level op.level), t op.terminal, n op.level.below]
  | unary op => [t op.terminal, n (.level .unary)]
  | postfixPrimary => [n .primary]
  | postfixCall => [n .postfixExpr, t .tokLeftParen, n .optArgList, t .tokRightParen]
  | optArgNone => []
  | optArgSome => [n .argList]
  | argOne => [n .expression]
  | argSnoc => [n .argList, t .tokComma, n .expression]
  | primaryNumber => [t .tokNumber]
  | primaryId => [t .tokId]
  | primaryParen => [t .tokLeftParen, n .expression, t .tokRightParen]
  | primaryFunction => [n .functionExpr]
  | primaryInput => [n .inputExpr]
  | primaryBlock => [n .blockExpr]
  | inputExpr => [t .tokInput]
  | blockOpen => []
  | blockExpr => [t .tokLeftBrace, .nonterminal .blockOpen, n .stmtList, t .tokRightBrace]
  | functionOpen => []
  | functionExpr =>
      [t .tokFunc, .nonterminal .functionOpen, t .tokLeftParen, n .optParamList, t .tokRightParen,
        n .optFuncName, t .tokLeftBrace, n .stmtList, t .tokRightBrace]
  | optParamNone => []
  | optParamSome => [n .paramList]
  | paramOne => [t .tokId]
  | paramSnoc => [n .paramList, t .tokComma, t .tokId]
  | funcNameNone => []
  | funcNameSome => [t .tokColon, t .tokId]

/-- The productions of a nonterminal, in the order of the file. -/
def rules : Lhs → List Rule
  | .accept => [accept]
  | .blockOpen => [blockOpen]
  | .functionOpen => [functionOpen]
  | .of .program => [program]
  | .of .toplevelStmtList => [toplevelNil, toplevelSnoc]
  | .of .toplevelStatement => [toplevelStatement, toplevelBrace]
  | .of .stmtList => [stmtNil, stmtSnoc]
  | .of .statement =>
      [statementIf, statementWhile, statementPrint, statementReturn, statementExpr, statementEmpty,
        statementError]
  | .of .emptyStmt => [emptyStmt]
  | .of .exprStmt => [exprStmt]
  | .of .ifStmt => [ifThen, ifThenElse, ifError, ifParenError]
  | .of .whileStmt => [whileStmt, whileError, whileParenError]
  | .of .printStmt => [printStmt]
  | .of .returnStmt => [returnNone, returnSome]
  | .of .expression => [expression]
  | .of .assignmentExpr => [assignmentOr, assignment]
  | .of (.level .or) => [operand .or, binary .logOr]
  | .of (.level .and) => [operand .and, binary .logAnd]
  | .of (.level .bitwiseOp) => [operand .bitwiseOp, binary .and, binary .xor, binary .or]
  | .of (.level .equality) => [operand .equality, binary .eq, binary .neq]
  | .of (.level .relational) =>
      [operand .relational, binary .less, binary .lessEq, binary .greater, binary .greaterEq]
  | .of (.level .addSub) => [operand .addSub, binary .add, binary .sub]
  | .of (.level .mulDiv) => [operand .mulDiv, binary .mul, binary .div, binary .remDiv]
  | .of (.level .unary) => [unary .neg, unary .plus, unary .not, operand .unary]
  | .of .postfixExpr => [postfixPrimary, postfixCall]
  | .of .optArgList => [optArgNone, optArgSome]
  | .of .argList => [argOne, argSnoc]
  | .of .primary =>
      [primaryNumber, primaryId, primaryParen, primaryFunction, primaryInput, primaryBlock]
  | .of .inputExpr => [inputExpr]
  | .of .blockExpr => [blockExpr]
  | .of .functionExpr => [functionExpr]
  | .of .optParamList => [optParamNone, optParamSome]
  | .of .paramList => [paramOne, paramSnoc]
  | .of .optFuncName => [funcNameNone, funcNameSome]

theorem lhs_of_mem : ∀ a : Lhs, ∀ r ∈ rules a, lhs r = a
  | .accept | .blockOpen | .functionOpen => by decide
  | .of (.level l) => by cases l <;> decide
  | .of .program | .of .toplevelStmtList | .of .toplevelStatement | .of .stmtList | .of .statement
  | .of .emptyStmt | .of .exprStmt | .of .ifStmt | .of .whileStmt | .of .printStmt | .of .returnStmt
  | .of .expression | .of .assignmentExpr | .of .postfixExpr | .of .optArgList | .of .argList
  | .of .primary | .of .inputExpr | .of .blockExpr | .of .functionExpr | .of .optParamList
  | .of .paramList | .of .optFuncName => by decide

theorem mem_rules {a : Lhs} {r : Rule} : r ∈ rules a ↔ lhs r = a := by
  refine ⟨lhs_of_mem a r, ?_⟩
  rintro rfl
  cases r with
  | operand l => cases l <;> simp [rules, lhs]
  | binary op => cases op <;> simp [rules, lhs, BinaryOperators.level]
  | unary op => cases op <;> simp [rules, lhs]
  | _ => simp [rules, lhs]

end Rule

/-! ## The grammar -/

/-- All the left-hand sides. -/
def Lhs.all : List Lhs :=
  [.accept, .blockOpen, .functionOpen, .of .program, .of .toplevelStmtList, .of .toplevelStatement,
    .of .stmtList, .of .statement, .of .emptyStmt, .of .exprStmt, .of .ifStmt, .of .whileStmt,
    .of .printStmt, .of .returnStmt, .of .expression, .of .assignmentExpr, .of (.level .or),
    .of (.level .and), .of (.level .bitwiseOp), .of (.level .equality), .of (.level .relational),
    .of (.level .addSub), .of (.level .mulDiv), .of (.level .unary), .of .postfixExpr, .of .optArgList,
    .of .argList, .of .primary, .of .inputExpr, .of .blockExpr, .of .functionExpr, .of .optParamList,
    .of .paramList, .of .optFuncName]

theorem Lhs.mem_all (a : Lhs) : a ∈ Lhs.all := by
  cases a with
  | of N => cases N with
    | level l => cases l <;> decide
    | _ => decide
  | _ => decide

/-- The nonterminals that begin a production of another. -/
def Lhs.heads (a : Lhs) : List Lhs :=
  (Rule.rules a).filterMap (fun r => match r.rhs.head? with
    | some (.nonterminal b) => some b
    | _ => none)

theorem Lhs.mem_heads {a b : Lhs} :
    b ∈ a.heads ↔ ∃ r, Rule.lhs r = a ∧ (Rule.rhs r).head? = some (.nonterminal b) := by
  simp only [heads, List.mem_filterMap, Rule.mem_rules]
  refine exists_congr (fun r => and_congr_right (fun _ => ?_))
  split
  · rename_i c hc
    simp [hc]
  · rename_i hno
    constructor
    · intro h; cases h
    · intro h; exact absurd h (hno b)

def Lhs.corners (a : Lhs) : List Lhs := search Lhs.heads 200 [a] []

theorem Lhs.corners_closed : ∀ a ∈ Lhs.all, a ∈ a.corners ∧
    ∀ b ∈ a.corners, ∀ c ∈ b.heads, c ∈ a.corners := by decide +kernel

/-- The grammar of `parser.y`. -/
def grammar : Grammar Terminal Lhs Rule where
  lhs := Rule.lhs
  rhs := Rule.rhs
  rules := Rule.rules
  mem_rules := Rule.mem_rules
  start := .accept
  start_fresh := by
    intro r
    cases r <;> simp [Rule.rhs, Rule.lhs, Rule.n, Rule.t]
  corners := Lhs.corners
  mem_corners := by
    intro a b
    have hself : ∀ a, a ∈ Lhs.corners a := fun a => (Lhs.corners_closed a (Lhs.mem_all a)).1
    have hclosed : ∀ a, ∀ b ∈ Lhs.corners a, ∀ c ∈ Lhs.heads b, c ∈ Lhs.corners a :=
      fun a => (Lhs.corners_closed a (Lhs.mem_all a)).2
    have hrel : (fun a b => b ∈ Lhs.heads a) =
        fun a b => ∃ r, Rule.lhs r = a ∧ (Rule.rhs r).head? = some (.nonterminal b) :=
      funext fun _ => funext fun _ => propext Lhs.mem_heads
    rw [← hrel]
    exact mem_search hself hclosed

end ParaCL
