import ParaCL.Lib.BisonCorrect
import ParaCL.Parser.Scanning
import ParaCL.Parser.Tables

/-!
# `Parser.Machine` — `My_parser`: the generated parser with the actions of `parser.y`

The parser of `Lib.Bison` over the grammar of `Parser.Tables`. A token's semantic value comes with its
location, which is all the actions use of `@1`; the values of nonterminals carry none. An error is
recorded with its location and with the source line `get_line_content` finds for it; where that index is
out of range there is no line. The text of a syntax error is composed by Bison from the tokens it
expected and the one it got, and is a parameter here.
-/

namespace ParaCL

open Lib

/-- Bison's `variant`, and the location of a token. -/
inductive SemanticValue where
  | none
  | token (t : Token) (loc : Location)
  | of (N : Nonterminal) (v : N.Value)

/-! ## Error collection -/

/-- `Error_info`; the file name is the same for all. -/
structure ErrorInfo where
  loc : Location
  error : ParseError
  lineWithError : Option (List Char)

/-- What the actions use of `My_parser`. -/
structure MyParser where
  scopes : Scope
  errors : List ErrorInfo
  sourceLines : List (List Char)

namespace MyParser

def init (text : List Char) : MyParser := ⟨.init, [], ParaCL.sourceLines text⟩

/-- `source_lines_[num_line - 1]`. -/
def getLineContent (s : MyParser) (numLine : Nat) : Option (List Char) :=
  if numLine = 0 then none else s.sourceLines[numLine - 1]?

/-- `yy::parser::error`. -/
def error (s : MyParser) (loc : Location) (e : ParseError) : MyParser :=
  { s with errors := s.errors ++ [⟨loc, e, s.getLineContent loc.beginLine⟩] }

def hasErrors (s : MyParser) : Bool := !s.errors.isEmpty

/-- The part of the state that `Derives` follows. -/
def core (s : MyParser) : ParserState := ⟨s.scopes, s.errors.map ErrorInfo.error⟩

def pushScope (s : MyParser) : MyParser := { s with scopes := s.scopes.push }

def popScope (s : MyParser) : Except Escape MyParser :=
  match s.scopes.pop with
  | .ok scopes => .ok { s with scopes }
  | .error what => .error (.underflow what)

def addVarToScope (s : MyParser) (x : Name) : Except Escape (Name × MyParser) :=
  match s.scopes.addVariable x with
  | .ok (name, scopes) => .ok (name, { s with scopes })
  | .error what => .error (.underflow what)

/-- The action of `assignment_expr : TOK_ID TOK_ASSIGN assignment_expr` on the name. -/
def assignName (s : MyParser) (x : Name) : Except Escape (Name × MyParser) :=
  match s.scopes.lookup x with
  | some name => .ok (name, s)
  | none => s.addVarToScope x

/-- The action of `primary : TOK_ID`. -/
def useName (s : MyParser) (x : Name) (loc : Location) : Except Escape (Name × MyParser) :=
  match s.scopes.lookup x with
  | some name => .ok (name, s)
  | none => (s.error loc (.undeclared x)).addVarToScope x

end MyParser

/-! ## Actions -/

/-- `$$` from a name the action puts into the scopes. -/
def withName (N : Nonterminal) (f : Name → N.Value) (r : Except Escape (Name × MyParser)) :
    Except Escape (SemanticValue × MyParser) :=
  r.map (fun (y, s) => (.of N (f y), s))

/-- The actions that only build the tree. A value of another type than its symbol's is an error of the
    parser that no run makes. -/
def build (r : Rule) (vs : List SemanticValue) : Except Escape SemanticValue :=
  match r, vs with
  | .program, [.of .toplevelStmtList ss, _] => .ok (.of .program ss)
  | .toplevelNil, [] => .ok (.of .toplevelStmtList [])
  | .toplevelSnoc, [.of .toplevelStmtList ss, .of .toplevelStatement st] =>
      .ok (.of .toplevelStmtList (ss ++ [st]))
  | .toplevelStatement, [.of .statement st] => .ok (.of .toplevelStatement (some st))
  | .stmtNil, [] => .ok (.of .stmtList [])
  | .stmtSnoc, [.of .stmtList ss, .of .statement st] => .ok (.of .stmtList (ss ++ [st]))
  | .statementIf, [.of .ifStmt st] => .ok (.of .statement st)
  | .statementWhile, [.of .whileStmt st] => .ok (.of .statement st)
  | .statementPrint, [.of .printStmt st, _] => .ok (.of .statement st)
  | .statementReturn, [.of .returnStmt st, _] => .ok (.of .statement st)
  | .statementExpr, [.of .exprStmt st] => .ok (.of .statement st)
  | .statementEmpty, [.of .emptyStmt st] => .ok (.of .statement st)
  | .emptyStmt, [_] => .ok (.of .emptyStmt .emptyStmt)
  | .exprStmt, [.of .expression e, _] => .ok (.of .exprStmt (.exprStmt e))
  | .ifThen, [_, _, .of .expression c, _, .of .blockExpr t] =>
      .ok (.of .ifStmt (.ifStmt c t Option.none))
  | .ifThenElse, [_, _, .of .expression c, _, .of .blockExpr t, _, .of .blockExpr e] =>
      .ok (.of .ifStmt (.ifStmt c t (some e)))
  | .whileStmt, [_, _, .of .expression c, _, .of .blockExpr b] => .ok (.of .whileStmt (.whileStmt c b))
  | .printStmt, [_, .of .expression e] => .ok (.of .printStmt (.printStmt e))
  | .returnNone, [_] => .ok (.of .returnStmt (.returnStmt Option.none))
  | .returnSome, [_, .of .expression e] => .ok (.of .returnStmt (.returnStmt (some e)))
  | .expression, [.of .assignmentExpr e] => .ok (.of .expression e)
  | .assignmentOr, [.of (.level _) e] => .ok (.of .assignmentExpr e)
  | .operand l, [.of (.level _) e] => .ok (.of (.level l) e)
  | .operand l, [.of .postfixExpr e] => .ok (.of (.level l) e)
  | .binary op, [.of (.level _) a, _, .of (.level _) b] =>
      .ok (.of (.level op.level) (.binaryOperator op a b))
  | .unary op, [_, .of (.level _) e] => .ok (.of (.level .unary) (.unaryOperator op e))
  | .postfixPrimary, [.of .primary e] => .ok (.of .postfixExpr e)
  | .postfixCall, [.of .postfixExpr e, _, .of .optArgList es, _] => .ok (.of .postfixExpr (.call e es))
  | .optArgNone, [] => .ok (.of .optArgList [])
  | .optArgSome, [.of .argList es] => .ok (.of .optArgList es)
  | .argOne, [.of .expression e] => .ok (.of .argList [e])
  | .argSnoc, [.of .argList es, _, .of .expression e] => .ok (.of .argList (es ++ [e]))
  | .primaryNumber, [.token (.tokNumber n) _] => .ok (.of .primary (.number n))
  | .primaryParen, [_, .of .expression e, _] => .ok (.of .primary e)
  | .primaryFunction, [.of .functionExpr e] => .ok (.of .primary e)
  | .primaryInput, [.of .inputExpr e] => .ok (.of .primary e)
  | .primaryBlock, [.of .blockExpr e] => .ok (.of .primary e)
  | .inputExpr, [_] => .ok (.of .inputExpr .input)
  | .optParamNone, [] => .ok (.of .optParamList [])
  | .optParamSome, [.of .paramList ps] => .ok (.of .optParamList ps)
  | .funcNameNone, [] => .ok (.of .optFuncName Option.none)
  -- the productions that recover from an error
  | .statementError, [_, _] => .ok (.of .statement .emptyStmt)
  | .ifError, [_, _, _, _] => .ok (.of .ifStmt .emptyStmt)
  | .ifParenError, [_, _, _, _] => .ok (.of .ifStmt .emptyStmt)
  | .whileError, [_, _, _, _] => .ok (.of .whileStmt .emptyStmt)
  | .whileParenError, [_, _, _, _] => .ok (.of .whileStmt .emptyStmt)
  | _, _ => .error .variant

/-- The actions of `parser.y`: those that use the scopes or report an error, and the others. -/
def act (r : Rule) (vs : List SemanticValue) (s : MyParser) : Except Escape (SemanticValue × MyParser) :=
  match r with
  | .toplevelBrace =>
      match vs with
      | [.token _ loc] => .ok (.of .toplevelStatement Option.none, s.error loc .unmatchedBrace)
      | _ => .error .variant
  | .assignment =>
      match vs with
      | [.token (.tokId x) _, _, .of .assignmentExpr e] =>
          withName .assignmentExpr (fun y => Expression.assignmentExpr y e) (s.assignName x)
      | _ => .error .variant
  | .primaryId =>
      match vs with
      | [.token (.tokId x) loc] => withName .primary Expression.var (s.useName x loc)
      | _ => .error .variant
  -- the mid-rule actions
  | .blockOpen | .functionOpen => .ok (.none, s.pushScope)
  | .blockExpr =>
      match vs with
      | [_, _, .of .stmtList ss, _] =>
          s.popScope.map (fun s => (.of .blockExpr (.blockExpr ss), s))
      | _ => .error .variant
  | .functionExpr =>
      match vs with
      | [_, _, _, .of .optParamList ps, _, .of .optFuncName f, _, .of .stmtList ss, _] =>
          s.popScope.map (fun s => (.of .functionExpr (.func f ps (.blockExpr ss)), s))
      | _ => .error .variant
  | .paramOne =>
      match vs with
      | [.token (.tokId x) _] => withName .paramList (fun y => [y]) (s.addVarToScope x)
      | _ => .error .variant
  | .paramSnoc =>
      match vs with
      | [.of .paramList ps, _, .token (.tokId x) _] =>
          withName .paramList (fun y => ps ++ [y]) (s.addVarToScope x)
      | _ => .error .variant
  | .funcNameSome =>
      match vs with
      | [_, .token (.tokId x) _] => withName .optFuncName some (s.addVarToScope x)
      | _ => .error .variant
  | r => (build r vs).map (fun v => (v, s))

/-! ### What an action does -/

section Acts

variable {N : Nonterminal} {s s' : MyParser} {r : Rule} {vs : List SemanticValue} {v w : SemanticValue}

/-- What an action that puts a name into the scopes returned. -/
theorem withName_eq {f : Name → N.Value} {r : Except Escape (Name × MyParser)}
    (h : withName N f r = .ok (v, s)) : ∃ y, r = .ok (y, s) ∧ v = .of N (f y) := by
  cases r with
  | error e => cases h
  | ok p =>
      obtain ⟨y, s'⟩ := p
      cases h
      exact ⟨y, rfl, rfl⟩

/-- What an action that closes a scope returned. -/
theorem popped_eq (h : s.popScope.map (fun s => (w, s)) = .ok (v, s')) :
    s.popScope = .ok s' ∧ v = w := by
  cases hp : s.popScope with
  | error e => rw [hp] at h; cases h
  | ok s1 =>
      rw [hp] at h
      cases h
      exact ⟨rfl, rfl⟩

/-- The cases of an action. -/
inductive Acts (s : MyParser) : Rule → List SemanticValue → SemanticValue → MyParser → Prop where
  | build {r : Rule} {vs : List SemanticValue} {v : SemanticValue} (h : build r vs = .ok v) :
      Acts s r vs v s
  | toplevelBrace {t : Token} {loc : Location} :
      Acts s .toplevelBrace [.token t loc] (.of .toplevelStatement Option.none)
        (s.error loc .unmatchedBrace)
  | assignment {x y : Name} {loc : Location} {w : SemanticValue} {e : Expression} {s' : MyParser}
      (h : s.assignName x = .ok (y, s')) :
      Acts s .assignment [.token (.tokId x) loc, w, .of .assignmentExpr e]
        (.of .assignmentExpr (.assignmentExpr y e)) s'
  | primaryId {x y : Name} {loc : Location} {s' : MyParser} (h : s.useName x loc = .ok (y, s')) :
      Acts s .primaryId [.token (.tokId x) loc] (.of .primary (.var y)) s'
  | opens {r : Rule} {vs : List SemanticValue} (h : r = .blockOpen ∨ r = .functionOpen) :
      Acts s r vs .none s.pushScope
  | closes {r : Rule} {vs : List SemanticValue} {N : Nonterminal} {x : N.Value} {s' : MyParser}
      (h : r = .blockExpr ∨ r = .functionExpr) (hp : s.popScope = .ok s') : Acts s r vs (.of N x) s'
  | declares {r : Rule} {vs : List SemanticValue} {N : Nonterminal} {v : N.Value} {x y : Name}
      {s' : MyParser} (h : r = .paramOne ∨ r = .paramSnoc ∨ r = .funcNameSome)
      (hx : s.addVarToScope x = .ok (y, s')) : Acts s r vs (.of N v) s'

/-- **The cases of an action.** -/
theorem act_acts (h : act r vs s = .ok (v, s')) : Acts s r vs v s' := by
  unfold act at h
  split at h
  -- one bullet for each effectful rule, in the order of `act`; other shapes of values throw
  · split at h
    · cases h; exact .toplevelBrace
    · cases h
  · split at h
    · obtain ⟨y, hx, rfl⟩ := withName_eq h
      exact .assignment hx
    · cases h
  · split at h
    · obtain ⟨y, hx, rfl⟩ := withName_eq h
      exact .primaryId hx
    · cases h
  · cases h; exact .opens (.inl rfl)
  · cases h; exact .opens (.inr rfl)
  · split at h
    · obtain ⟨hp, rfl⟩ := popped_eq h
      exact .closes (.inl rfl) hp
    · cases h
  · split at h
    · obtain ⟨hp, rfl⟩ := popped_eq h
      exact .closes (.inr rfl) hp
    · cases h
  · split at h
    · obtain ⟨y, hx, rfl⟩ := withName_eq h
      exact .declares (.inl rfl) hx
    · cases h
  · split at h
    · obtain ⟨y, hx, rfl⟩ := withName_eq h
      exact .declares (.inr (.inl rfl)) hx
    · cases h
  · split at h
    · obtain ⟨y, hx, rfl⟩ := withName_eq h
      exact .declares (.inr (.inr rfl)) hx
    · cases h
  -- the rules without effects
  · cases hb : build r vs with
    | error e => rw [hb] at h; cases h
    | ok w =>
        rw [hb] at h
        cases h
        exact .build hb

end Acts

/-- The location of a token; any other is as `yy::location` is constructed. -/
def SemanticValue.loc : SemanticValue → Location
  | .token _ loc => loc
  | _ => ⟨1, 1, 1, 1⟩

/-- `yytranslate_`: a code less than or equal to 0 is the end of the input. -/
def translate (lexed : Lexed) (loc : Location) : Terminal × SemanticValue :=
  match lexed with
  | .token t => (t.terminal, .token t loc)
  | .unknown => (.tokEof, .token .tokEof loc)

section Parser

variable {L : Type} (lex : L → Except Escape (Lexed × Location × L))
  (describe : List Terminal → Terminal → String)

/-- The productions that recover from an error end the recovery, so that the next error is reported. -/
def yyerrok : Rule → Bool
  | .statementError | .ifError | .ifParenError | .whileError | .whileParenError => true
  | _ => false

/-- What the generated parser calls, over any lexer. -/
def parserActions : Actions Terminal Rule SemanticValue MyParser L Escape where
  lex l := (lex l).map (fun (lexed, loc, l) => (translate lexed loc, l))
  act := act
  yyerrok := yyerrok
  report expected tok s :=
    s.error tok.2.loc (.syntaxError (describe (expected.filter (· ≠ .error)) tok.1))
  eof := .tokEof
  error := .error
  errorValue := .none

/-- A configuration of the generated parser. -/
abbrev Parse (L : Type) := ParseConfig Terminal Lhs SemanticValue MyParser L

/-- One step of the generated parser. -/
def parseStep : Parse L → Parse L ⊕ ParseResult Escape := Bison.step grammar (parserActions lex describe)

variable {lex describe}

/-- What the parser gets of a call of the lexer. -/
theorem parser_lex_eq {l l' : L} {tok : Terminal × SemanticValue} :
    (parserActions lex describe).lex l = .ok (tok, l') ↔
      ∃ lexed loc, lex l = .ok (lexed, loc, l') ∧ translate lexed loc = tok := by
  show (lex l).map _ = _ ↔ _
  cases hcall : lex l with
  | error e =>
      constructor
      · intro h; cases h
      · rintro ⟨_, _, h, _⟩; cases h
  | ok r =>
      obtain ⟨lexed, loc, l1⟩ := r
      constructor
      · intro h
        cases h
        exact ⟨lexed, loc, rfl, rfl⟩
      · rintro ⟨_, _, h, rfl⟩
        cases h
        rfl

/-- The cases of a step that goes on. -/
theorem parseStep_does {c c' : Parse L} (hs : parseStep lex describe c = .inl c') :
    Bison.Does grammar (parserActions lex describe) c (.inl c') := by
  have hd := Bison.step_does (G := grammar) (A := parserActions lex describe) c
  rwa [show Bison.step grammar (parserActions lex describe) c = .inl c' from hs] at hd

theorem parser_lex_error {l : L} {e : Escape} :
    (parserActions lex describe).lex l = .error e ↔ lex l = .error e := by
  show (lex l).map _ = _ ↔ _
  cases lex l with
  | error e' => exact ⟨fun h => (by cases h; rfl), fun h => (by cases h; rfl)⟩
  | ok r => exact ⟨fun h => (by cases h), fun h => (by cases h)⟩

end Parser

/-- `My_parser::parse` on a text, with what the scanner leaves in `yyleng` at its end. -/
def parseStart (text : List Char) (n : Nat) : Parse Lexer := Bison.start (.init text n) (.init text)

end ParaCL
