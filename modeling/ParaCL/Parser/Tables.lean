import ParaCL.Lib.Slr
import ParaCL.Parser.Productions

/-!
# `Parser.Tables` — the grammar of `parser.y` leaves no conflict

FIRST and FOLLOW of every nonterminal, and the certificate that no item set has two complete items or a
complete one that a following terminal could pull away from. Bison reports no conflict for the same
reason.
-/

namespace ParaCL

open Lib

/-! ## FIRST and FOLLOW -/

/-- What begins a `primary`. -/
def primaryStart : List Terminal :=
  [.tokNumber, .tokId, .tokLeftParen, .tokFunc, .tokInput, .tokLeftBrace]

def expressionStart : List Terminal := [.tokMinus, .tokPlus, .tokNot] ++ primaryStart

def statementStart : List Terminal :=
  [.tokIf, .tokWhile, .tokPrint, .tokReturn, .tokSemicolon, .error] ++ expressionStart

/-- The operators of a level and of the looser ones. -/
def Level.looser : Level → List Terminal
  | .or => [.tokLogOr]
  | .and => [.tokLogAnd, .tokLogOr]
  | .bitwiseOp => bitwise
  | .equality => equality
  | .relational => relational
  | .addSub => [.tokPlus, .tokMinus] ++ relational
  | .mulDiv | .unary => [.tokMul, .tokDiv, .tokRemDiv, .tokPlus, .tokMinus] ++ relational
where
  bitwise : List Terminal := [.tokAnd, .tokXor, .tokOr, .tokLogAnd, .tokLogOr]
  equality : List Terminal := [.tokEq, .tokNeq] ++ bitwise
  relational : List Terminal :=
    [.tokLess, .tokLessOrEq, .tokGreater, .tokGreaterOrEq] ++ equality

namespace Lhs

def nullable : Lhs → Bool
  | .blockOpen | .functionOpen | .of .toplevelStmtList | .of .stmtList | .of .optArgList
  | .of .optParamList | .of .optFuncName => true
  | _ => false

def first : Lhs → List Terminal
  | .blockOpen | .functionOpen => []
  | .accept | .of .program => .tokEof :: .tokRightBrace :: statementStart
  | .of .toplevelStmtList | .of .toplevelStatement => .tokRightBrace :: statementStart
  | .of .stmtList | .of .statement => statementStart
  | .of .emptyStmt => [.tokSemicolon]
  | .of .ifStmt => [.tokIf]
  | .of .whileStmt => [.tokWhile]
  | .of .printStmt => [.tokPrint]
  | .of .returnStmt => [.tokReturn]
  | .of .exprStmt | .of .expression | .of .assignmentExpr | .of (.level _) | .of .optArgList
  | .of .argList => expressionStart
  | .of .postfixExpr | .of .primary => primaryStart
  | .of .inputExpr => [.tokInput]
  | .of .blockExpr => [.tokLeftBrace]
  | .of .functionExpr => [.tokFunc]
  | .of .optParamList | .of .paramList => [.tokId]
  | .of .optFuncName => [.tokColon]

def followExpression : List Terminal := [.tokSemicolon, .tokRightParen, .tokComma]

def followPrimary : List Terminal := .tokLeftParen :: (Level.unary.looser ++ followExpression)

def followStatement : List Terminal := .tokEof :: .tokRightBrace :: statementStart

def follow : Lhs → List Terminal
  | .accept => []
  | .blockOpen => .tokRightBrace :: statementStart
  | .functionOpen => [.tokLeftParen]
  | .of .program => [.tokEof]
  | .of .toplevelStmtList | .of .toplevelStatement | .of .statement | .of .emptyStmt
  | .of .exprStmt | .of .ifStmt | .of .whileStmt => followStatement
  | .of .stmtList => .tokRightBrace :: statementStart
  | .of .printStmt | .of .returnStmt => [.tokSemicolon]
  | .of .expression | .of .assignmentExpr => followExpression
  | .of (.level l) => l.looser ++ followExpression
  | .of .postfixExpr | .of .primary | .of .inputExpr | .of .functionExpr => followPrimary
  | .of .blockExpr => .tokElse :: (followPrimary ++ followStatement)
  | .of .optArgList | .of .optParamList => [.tokRightParen]
  | .of .argList | .of .paramList => [.tokComma, .tokRightParen]
  | .of .optFuncName => [.tokLeftBrace]

end Lhs

/-- All the productions. -/
def Rule.all : List Rule := Lhs.all.flatMap Rule.rules

theorem Rule.mem_all (r : Rule) : r ∈ Rule.all :=
  List.mem_flatMap.mpr ⟨r.lhs, Lhs.mem_all _, Rule.mem_rules.mpr rfl⟩

/-- What the tables promise of a nonterminal in a production. -/
def Rule.PromisesAt (r : Rule) (d : Nat) (a : Lhs) : Prop :=
  r.rhs[d]? = some (.nonterminal a) →
    (∀ t ∈ Grammar.firstOf Lhs.nullable Lhs.first (r.rhs.drop (d + 1)), t ∈ a.follow) ∧
      (Grammar.allNullable Lhs.nullable (r.rhs.drop (d + 1)) = true → ∀ t ∈ r.lhs.follow, t ∈ a.follow)

instance (r : Rule) (d : Nat) (a : Lhs) : Decidable (r.PromisesAt d a) :=
  inferInstanceAs (Decidable (_ → _))

/-- What the tables promise of one production. -/
def Rule.Promises (r : Rule) : Prop :=
  (Grammar.allNullable Lhs.nullable r.rhs = true → r.lhs.nullable = true) ∧
    (∀ t ∈ Grammar.firstOf Lhs.nullable Lhs.first r.rhs, t ∈ r.lhs.first) ∧
    ∀ d ∈ List.range r.rhs.length, ∀ a ∈ Lhs.all, r.PromisesAt d a

instance (r : Rule) : Decidable r.Promises := inferInstanceAs (Decidable (_ ∧ _))

theorem Rule.promises : ∀ r ∈ Rule.all, r.Promises := by decide +kernel

theorem check_settled : grammar.checkSettled Lhs.follow 2000 = true := by decide +kernel

end ParaCL
