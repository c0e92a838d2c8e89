import ParaCL.Ast.Node

/-!
# `Parser.Token` — the tokens of `parser.y`

`TOK_ID` and `TOK_NUMBER` carry their semantic values; `TOK_EOF` is token number 0.
-/

namespace ParaCL

inductive Token where
  | tokIf | tokElse | tokWhile | tokPrint | tokInput | tokFunc | tokReturn
  | tokPlus | tokMinus | tokMul | tokDiv | tokRemDiv | tokAnd | tokXor | tokOr
  | tokNot | tokLogOr | tokLogAnd
  | tokAssign
  | tokEq | tokNeq | tokLess | tokGreater | tokLessOrEq | tokGreaterOrEq
  | tokLeftParen | tokRightParen | tokLeftBrace | tokRightBrace
  | tokSemicolon | tokComma | tokColon
  | tokId (text : Name)
  | tokNumber (value : Number)
  | tokEof
  deriving DecidableEq, Repr

/-- The kinds of tokens, and the predefined token `error`. -/
inductive Terminal where
  | error
  | tokIf | tokElse | tokWhile | tokPrint | tokInput | tokFunc | tokReturn
  | tokPlus | tokMinus | tokMul | tokDiv | tokRemDiv | tokAnd | tokXor | tokOr
  | tokNot | tokLogOr | tokLogAnd
  | tokAssign
  | tokEq | tokNeq | tokLess | tokGreater | tokLessOrEq | tokGreaterOrEq
  | tokLeftParen | tokRightParen | tokLeftBrace | tokRightBrace
  | tokSemicolon | tokComma | tokColon
  | tokId | tokNumber
  | tokEof
  deriving DecidableEq, Repr

/-- A token without its semantic value. -/
def Token.terminal : Token → Terminal
  | tokIf => .tokIf | tokElse => .tokElse | tokWhile => .tokWhile | tokPrint => .tokPrint
  | tokInput => .tokInput | tokFunc => .tokFunc | tokReturn => .tokReturn
  | tokPlus => .tokPlus | tokMinus => .tokMinus | tokMul => .tokMul | tokDiv => .tokDiv
  | tokRemDiv => .tokRemDiv | tokAnd => .tokAnd | tokXor => .tokXor | tokOr => .tokOr
  | tokNot => .tokNot | tokLogOr => .tokLogOr | tokLogAnd => .tokLogAnd
  | tokAssign => .tokAssign
  | tokEq => .tokEq | tokNeq => .tokNeq | tokLess => .tokLess | tokGreater => .tokGreater
  | tokLessOrEq => .tokLessOrEq | tokGreaterOrEq => .tokGreaterOrEq
  | tokLeftParen => .tokLeftParen | tokRightParen => .tokRightParen
  | tokLeftBrace => .tokLeftBrace | tokRightBrace => .tokRightBrace
  | tokSemicolon => .tokSemicolon | tokComma => .tokComma | tokColon => .tokColon
  | tokId _ => .tokId | tokNumber _ => .tokNumber
  | tokEof => .tokEof

end ParaCL
