import ParaCL.Lib.Regex
import ParaCL.Parser.Token

/-!
# `Parser.Lexer` — the scanner (`lexer.l`, `lexer.hpp`) and the `yylex` of `parser.y`

A text is the list of its characters, one for each byte. `rules` is the rule section of `lexer.l` in its
order; the generated scanner takes the longest match and the first rule on a tie (`Lib.scan`). The rules
keep two counters by hand, `yylineno` and `yycolumn`: a block comment and an unexpected character update
neither. `yylex` reads the line before the scan and the rest after it, and converts the two kinds of
tokens that carry a value; `std::stoi` throws on a value that is no `int`.

What the generated scanner leaves in `yyleng` at the end of the file is a field here, `endLeng`. The
message an unexpected character prints to `std::cerr` is left out.
-/

namespace ParaCL

open Lib

/-! ## The rules -/

/-- What the action of a rule does. -/
inductive LexAction where
  | advance
  | newline
  | skip
  | token (t : Token)
  | number
  | id
  | unknown
  deriving DecidableEq, Repr

/-- The values the generated `yylex` returns: a token number, 0 at the end of the file, or -1. -/
inductive LexCode where
  | token (t : Token)
  | number
  | id
  | unknown
  | eof
  deriving DecidableEq, Repr

/-- The actions without a `return` go on scanning. -/
def LexAction.code : LexAction → Option LexCode
  | .advance | .newline | .skip => none
  | .token t => some (.token t)
  | .number => some .number
  | .id => some .id
  | .unknown => some .unknown

namespace Patterns

open Regex

def any : Char → Bool := fun c => c ≠ '\n'

/-- `[ \t\r\v]+` -/
def whitespace : Regex Char := plus (.char (fun c => c = ' ' || c = '\t' || c = '\r' || c = '\x0b'))

def newline : Regex Char := .char (· = '\n')

/-- `"//".*` -/
def lineComment : Regex Char := .seq (literal ['/', '/']) (.star (.char any))

/-- `"/*"([^*]|\*+[^*/])*\*+"/"` -/
def blockComment : Regex Char :=
  .seq (literal ['/', '*'])
    (.seq
      (.star (.alt (.char (· ≠ '*'))
        (.seq (plus (.char (· = '*'))) (.char (fun c => c ≠ '*' && c ≠ '/')))))
      (.seq (plus (.char (· = '*'))) (.char (· = '/'))))

/-- `[0-9]+` -/
def number : Regex Char := plus (.char Char.isDigit)

/-- `[1-9]+` -/
def number1 : Regex Char := plus (.char (fun c => c.isDigit && c ≠ '0'))

def zero : Regex Char := .char (· = '0')

/-- `[a-zA-Z_][a-zA-Z0-9_]*` -/
def id : Regex Char :=
  .seq (.char (fun c => c.isAlpha || c = '_')) (.star (.char (fun c => c.isAlphanum || c = '_')))

end Patterns

/-- A keyword or an operator. -/
def fixedRule (text : List Char) (t : Token) : ScanRule Char LexAction :=
  ⟨Regex.literal text, .token t⟩

/-- The rules with a fixed text, in the order of the file. -/
def fixedTokens : List (List Char × Token) :=
  [(['i', 'f'], .tokIf), (['e', 'l', 's', 'e'], .tokElse), (['w', 'h', 'i', 'l', 'e'], .tokWhile),
    (['p', 'r', 'i', 'n', 't'], .tokPrint), (['?'], .tokInput), (['f', 'u', 'n', 'c'], .tokFunc),
    (['r', 'e', 't', 'u', 'r', 'n'], .tokReturn),
    (['|', '|'], .tokLogOr), (['&', '&'], .tokLogAnd),
    (['!'], .tokNot), (['=', '='], .tokEq), (['!', '='], .tokNeq), (['<', '='], .tokLessOrEq),
    (['>', '='], .tokGreaterOrEq), (['='], .tokAssign),
    (['+'], .tokPlus), (['-'], .tokMinus), (['*'], .tokMul), (['/'], .tokDiv), (['%'], .tokRemDiv),
    (['&'], .tokAnd), (['^'], .tokXor), (['|'], .tokOr),
    (['<'], .tokLess), (['>'], .tokGreater),
    (['('], .tokLeftParen), ([')'], .tokRightParen), (['\x7b'], .tokLeftBrace),
    (['\x7d'], .tokRightBrace), ([';'], .tokSemicolon), ([','], .tokComma), ([':'], .tokColon)]

/-- The rules of `lexer.l`. -/
def lexerRules : List (ScanRule Char LexAction) :=
  [⟨Patterns.whitespace, .advance⟩, ⟨Patterns.newline, .newline⟩, ⟨Patterns.lineComment, .advance⟩,
    ⟨Patterns.blockComment, .skip⟩]
  ++ fixedTokens.map (fun (text, t) => fixedRule text t)
  ++ [⟨.seq Patterns.number1 (.star Patterns.number), .number⟩, ⟨Patterns.zero, .number⟩,
    ⟨Patterns.id, .id⟩, ⟨.char Patterns.any, .unknown⟩]

/-! ## The scanner -/

/-- One match: what its rule does, and the text matched. -/
structure Piece where
  action : LexAction
  lexeme : List Char
  deriving DecidableEq, Repr

/-- The match at the head of a text, and what is left after it. -/
def nextPiece (text : List Char) : Option (Piece × List Char) :=
  (scan lexerRules text).map (fun (rule, n) => (⟨rule.action, text.take n⟩, text.drop n))

/-- `Lexer`, with what its input still holds. -/
structure Lexer where
  input : List Char
  yytext : List Char
  yyleng : Nat
  yylineno : Nat
  yycolumn : Int
  endLeng : Nat
  deriving DecidableEq, Repr

namespace Lexer

def init (text : List Char) (endLeng : Nat) : Lexer := ⟨text, [], 0, 1, 1, endLeng⟩

/-- The action of the rule that matched. -/
def apply (L : Lexer) (p : Piece) (rest : List Char) : Lexer :=
  let L := { L with input := rest, yytext := p.lexeme, yyleng := p.lexeme.length }
  match p.action with
  | .newline => { L with yylineno := L.yylineno + 1, yycolumn := 1 }
  | .skip | .unknown => L
  | .advance | .token _ | .number | .id => { L with yycolumn := L.yycolumn + L.yyleng }

/-- Match after match until an action returns. Every match takes a character, so that the bound is
    never used up. -/
def yylexLoop : Nat → Lexer → LexCode × Lexer
  | 0, L => (.eof, L)
  | n + 1, L =>
      match nextPiece L.input with
      | none => (.eof, { L with yytext := [], yyleng := L.endLeng })
      | some (p, rest) =>
          match p.action.code with
          | some code => (code, L.apply p rest)
          | none => yylexLoop n (L.apply p rest)

/-- The generated `yylex`. -/
def yylex (L : Lexer) : LexCode × Lexer := yylexLoop (L.input.length + 1) L

end Lexer

/-! ## `yylex` of `parser.y` -/

/-- `yy::location`. -/
structure Location where
  beginLine : Nat
  beginColumn : Int
  endLine : Nat
  endColumn : Int
  deriving DecidableEq, Repr

/-- What `yylex` hands to the parser: a token with its value, or the code -1. -/
inductive Lexed where
  | token (t : Token)
  | unknown
  deriving DecidableEq, Repr

/-- What can leave `parse` other than by its return: the exception of `std::stoi`, those of `Scope`, and
    a semantic value read at the wrong type. -/
inductive Escape where
  | outOfRange
  | underflow (what : String)
  | variant
  deriving DecidableEq, Repr

/-- The value of a digit string. -/
def decimal (text : List Char) : Nat := text.foldl (fun n c => 10 * n + (c.toNat - '0'.toNat)) 0

/-- `INT_MAX`. -/
def intMax : Nat := 2147483647

/-- `std::stoi` on a digit string. -/
def stoi (text : List Char) : Except Escape Number :=
  if decimal text ≤ intMax then .ok (BitVec.ofNat 32 (decimal text)) else .error .outOfRange

/-- `yylex`: the line is read before the scan, the rest of the location after it. -/
def yylex (scanner : Lexer) : Except Escape (Lexed × Location × Lexer) :=
  let lineBefore := scanner.yylineno
  let (tt, scanner) := scanner.yylex
  let loc : Location :=
    ⟨lineBefore, scanner.yycolumn - scanner.yyleng, scanner.yylineno, scanner.yycolumn⟩
  match tt with
  | .number => (stoi scanner.yytext).map (fun n => (.token (.tokNumber n), loc, scanner))
  | .id => .ok (.token (.tokId (String.ofList scanner.yytext)), loc, scanner)
  | .token t => .ok (.token t, loc, scanner)
  | .eof => .ok (.token .tokEof, loc, scanner)
  | .unknown => .ok (.unknown, loc, scanner)

end ParaCL
