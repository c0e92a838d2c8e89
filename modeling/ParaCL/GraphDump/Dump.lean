import ParaCL.Ast.Node

/-!
# `GraphDump.Dump` — the graph dump (`graph_dump.cpp`)

A node of the tree is named by its position, the indices of the children on the way to it: the position
stands for the object, and only the text of a line turns it into the object's address. The vectors of an
accepted program hold no null, so the visitors' test for one has no case here.
-/

namespace ParaCL

/-- The position of a node under the root. -/
abbrev Position := List Nat

/-- A piece of a label: text, or a pointer, `none` for `nullptr`. -/
inductive LabelPiece where
  | text (s : String)
  | pointer (node : Option Position)

/-- What one `gv_ << … << "\n"` writes: the record of a node, or an edge. -/
inductive DumpLine where
  | node (here : Position) (fillcolor : String) (label : List LabelPiece)
  | edge (parent child : Position)

/-- `*value_` where `value_` is null. -/
inductive DumpFault where
  | nullDereference
  deriving DecidableEq

open LabelPiece DumpLine

/-! ## The text -/

section Text

variable (address : Position → String)

/-- `gv_ << pointer`. -/
def LabelPiece.write : LabelPiece → String
  | .text s => s
  | .pointer none => "0"
  | .pointer (some p) => address p

/-- The characters of a line. -/
def DumpLine.write : DumpLine → String
  | .node here fillcolor label =>
      "    node_" ++ address here ++ "[shape=Mrecord; style=filled; fillcolor=" ++ fillcolor ++
        "; color=\"#000000\"; fontcolor=\"#000000\"; label=\"" ++
        String.join (label.map (LabelPiece.write address)) ++ "\"];\n"
  | .edge parent child => "    node_" ++ address parent ++ " -> node_" ++ address child ++ ";\n"

end Text

/-! ## The visitors -/

/-- `emit_edge(&node, child)` and the visit of the child number `i`. -/
def childLines (here : Position) (i : Nat) (lines : List DumpLine) : List DumpLine :=
  edge here (here ++ [i]) :: lines

/-- The record of a node: its class, address and parent, and what is behind them. -/
def record (here : Position) (parent : Option Position) (fillcolor name : String)
    (details : List LabelPiece) : DumpLine :=
  node here fillcolor (text ("\x7b " ++ name ++ " | addr: ") :: pointer (some here) :: text " | parent: " ::
    pointer parent :: details)

/-- `stmt_0: … | stmt_1: …`. -/
def stmtPointers (here : Position) (size : Nat) : List LabelPiece :=
  (List.range size).flatMap (fun i =>
    [text ("stmt_" ++ toString i ++ ": "), pointer (some (here ++ [i]))] ++
      if i + 1 < size then [text " | "] else [])

/-- `visit(Number)`. -/
def recordNumber (here : Position) (parent : Option Position) (value : Number) : DumpLine :=
  record here parent "palegreen" "Number" [text (" | value: " ++ toString value.toInt ++ " \x7d")]

/-- `visit(Variable)`. -/
def recordVariable (here : Position) (parent : Option Position) (name : Name) : DumpLine :=
  record here parent "cornflowerblue" "Variable" [text (" | name: " ++ name ++ " \x7d")]

/-- `op_str` of `visit(Binary_operator)`. -/
def BinaryOperators.dumpText : BinaryOperators → String
  | .eq => "=="
  | .neq => "!="
  | .less => "\\<"
  | .lessEq => "\\<="
  | .greater => "\\>"
  | .greaterEq => "\\>="
  | .add => "+"
  | .sub => "-"
  | .mul => "*"
  | .div => "/"
  | .remDiv => "%"
  | .and => "&"
  | .xor => "^"
  | .or => "\\|"
  | .logAnd => "\\&&"
  | .logOr => "\\|\\|"

/-- `op_str` of `visit(Unary_operator)`. -/
def UnaryOperators.dumpText : UnaryOperators → String
  | .neg => "-"
  | .plus => "+"
  | .not => "!"

/-- The label of `visit(Func)` behind the parent. -/
def funcDetails (here : Position) (funcName : Option Name) (params : List Name) : List LabelPiece :=
  let nameStr := if funcName.isSome then "named" else "anonymous"
  let name := (funcName.map (" | name: " ++ ·)).getD ""
  [text (" | " ++ nameStr ++ name ++ " | params: [" ++ String.intercalate ", " params ++ "] | body: "),
    pointer (some (here ++ [0])), text " \x7d"]

mutual

/-- The visitors of expressions. -/
def dumpExpression (here : Position) (parent : Option Position) :
    Expression → Except DumpFault (List DumpLine)
  | .number value => .ok [recordNumber here parent value]
  | .var name => .ok [recordVariable here parent name]
  | .assignmentExpr name value => do
      let var := [recordVariable (here ++ [0]) (some here) name]
      let val ← dumpExpression (here ++ [1]) (some here) value
      return record here parent "plum" "Assignment expr"
          [text "| \x7b left: ", pointer (some (here ++ [0])), text " | right: ",
            pointer (some (here ++ [1])), text " \x7d \x7d"] ::
        (childLines here 0 var ++ childLines here 1 val)
  | .binaryOperator op left right => do
      let l ← dumpExpression (here ++ [0]) (some here) left
      let r ← dumpExpression (here ++ [1]) (some here) right
      return record here parent "lightsteelblue1" "Binary operator"
          [text (" | operator: " ++ op.dumpText ++ " | \x7b left: "), pointer (some (here ++ [0])),
            text " | right: ", pointer (some (here ++ [1])), text " \x7d \x7d"] ::
        (childLines here 0 l ++ childLines here 1 r)
  | .unaryOperator op operand => do
      let opnd ← dumpExpression (here ++ [0]) (some here) operand
      return record here parent "lightsteelblue1" "Unary operator"
          [text (" | operator: " ++ op.dumpText ++ "| operand: "), pointer (some (here ++ [0])),
            text " \x7d"] ::
        childLines here 0 opnd
  | .input => .ok [record here parent "lavenderblush1" "Input" [text "\x7d"]]
  | .blockExpr stmts => do
      let children ← dumpStmts here 0 stmts
      return record here parent "lightgoldenrod1" "Block"
          (text "| \x7b " :: (stmtPointers here stmts.length ++ [text " \x7d \x7d"])) ::
        children
  | .func funcName params body => do
      let lines ← dumpExpression (here ++ [0]) (some here) body
      return record here parent "tomato" "Func" (funcDetails here funcName params) :: childLines here 0 lines
  | .call target args => do
      let t ← dumpExpression (here ++ [0]) (some here) target
      let children ← dumpArgs here 1 args
      return record here parent "gold" "Call"
          [text "|  \x7b target: ", pointer (some (here ++ [0])),
            text (" | argc: " ++ toString args.length ++ "\x7d \x7d")] ::
        (childLines here 0 t ++ children)

/-- The visitors of statements. `visit(Return_stmt)` takes the value without asking `has_value`. -/
def dumpStatement (here : Position) (parent : Option Position) :
    Statement → Except DumpFault (List DumpLine)
  | .emptyStmt => .ok [record here parent "lavenderblush1" "Empty" [text "\x7d"]]
  | .exprStmt expr => do
      let lines ← dumpExpression (here ++ [0]) (some here) expr
      return record here parent "peachpuff" "Expr_stmt"
          [text " | expr: ", pointer (some (here ++ [0])), text "\x7d"] ::
        childLines here 0 lines
  | .ifStmt condition thenBranch none => do
      let cond ← dumpExpression (here ++ [0]) (some here) condition
      let thenB ← dumpExpression (here ++ [1]) (some here) thenBranch
      return record here parent "turquoise" "If"
          [text "| \x7b cond: ", pointer (some (here ++ [0])), text " | then: ", pointer (some (here ++ [1])),
            text " | else: ", pointer none, text " \x7d \x7d"] ::
        (childLines here 0 cond ++ childLines here 1 thenB)
  | .ifStmt condition thenBranch (some elseBranch) => do
      let cond ← dumpExpression (here ++ [0]) (some here) condition
      let thenB ← dumpExpression (here ++ [1]) (some here) thenBranch
      let elseB ← dumpExpression (here ++ [2]) (some here) elseBranch
      return record here parent "turquoise" "If"
          [text "| \x7b cond: ", pointer (some (here ++ [0])), text " | then: ", pointer (some (here ++ [1])),
            text " | else: ", pointer (some (here ++ [2])), text " \x7d \x7d"] ::
        (childLines here 0 cond ++ (childLines here 1 thenB ++ childLines here 2 elseB))
  | .whileStmt condition body => do
      let cond ← dumpExpression (here ++ [0]) (some here) condition
      let lines ← dumpExpression (here ++ [1]) (some here) body
      return record here parent "turquoise" "While"
          [text "| \x7b left: ", pointer (some (here ++ [0])), text " | right: ",
            pointer (some (here ++ [1])), text " \x7d \x7d"] ::
        (childLines here 0 cond ++ childLines here 1 lines)
  | .printStmt value => do
      let val ← dumpExpression (here ++ [0]) (some here) value
      return record here parent "darkorange" "Print"
          [text " | value: ", pointer (some (here ++ [0])), text "\x7d"] ::
        childLines here 0 val
  -- `node.get_value()` dereferences the null pointer of a `return` without a value
  | .returnStmt none => .error .nullDereference
  | .returnStmt (some value) => do
      let val ← dumpExpression (here ++ [0]) (some here) value
      return record here parent "limegreen" "Return"
          [text " | value: ", pointer (some (here ++ [0])), text "\x7d"] ::
        childLines here 0 val

/-- The loop over the statements of a program or a block, from number `i` on. -/
def dumpStmts (here : Position) (i : Nat) : List Statement → Except DumpFault (List DumpLine)
  | [] => .ok []
  | s :: ss => do
      let lines ← dumpStatement (here ++ [i]) (some here) s
      let rest ← dumpStmts here (i + 1) ss
      return childLines here i lines ++ rest

/-- The loop over the arguments of a call. -/
def dumpArgs (here : Position) (i : Nat) : List Expression → Except DumpFault (List DumpLine)
  | [] => .ok []
  | e :: es => do
      let lines ← dumpExpression (here ++ [i]) (some here) e
      let rest ← dumpArgs here (i + 1) es
      return childLines here i lines ++ rest

end

/-- `visit(Program)`, with no parent. -/
def dumpProgram (p : Program) : Except DumpFault (List DumpLine) := do
  let children ← dumpStmts [] 0 p.stmts
  return record [] none "salmon" "Program"
      (text "| \x7b " :: (stmtPointers [] p.stmts.length ++ [text " \x7d \x7d"])) ::
    children

/-- What stands in front of the lines. -/
def graphHeader : String :=
  "digraph G \x7b\n    rankdir=TB;\n    node [style=filled, fontname=\"Helvetica\", " ++
    "fontcolor=darkblue, fillcolor=peachpuff, color=\"#252A34\", penwidth=2.5];\n" ++
    "    bgcolor=\"lemonchiffon\";\n\n"

/-- What stands behind them. -/
def graphFooter : String := "\n\x7d\n"

/-- The text of the lines of a dump. -/
def graphText (address : Position → String) (lines : List DumpLine) : String :=
  graphHeader ++ String.join (lines.map (DumpLine.write address)) ++ graphFooter

/-- `graph_dump`: what it writes. -/
def graphDump (address : Position → String) (p : Program) : Except DumpFault String := do
  let lines ← dumpProgram p
  return graphText address lines

end ParaCL
