import ParaCL.GraphDump.Dump
import ParaCL.Parser.Check
import ParaCL.Lib.Ensures
import Mathlib.Data.List.Nodup

/-!
# `GraphDump.Picture` — the dump is a picture of the tree

`Node.descend` walks from a node down to a position by the children each class has. The lines of a visit are a
tree of lines (`TreeLines`): one record for each position under the node, and in front of every record but
the first the edge that leads to it. It is put together from the children's (`ForestLines`), and fails only
at a `return` without a value. The text that is written is that of these lines (`graphDump_ok_iff`).
-/

namespace ParaCL

open Lib

/-! ## Nodes and their positions -/

/-- Any object of a tree. -/
inductive Node where
  | program (p : Program)
  | stmt (s : Statement)
  | expr (e : Expression)

namespace Node

/-- The nodes a node points to, in the order of the fields. -/
def children : Node → List Node
  | program p => p.stmts.map stmt
  | stmt .emptyStmt => []
  | stmt (.exprStmt e) => [expr e]
  | stmt (.ifStmt c t none) => [expr c, expr t]
  | stmt (.ifStmt c t (some e)) => [expr c, expr t, expr e]
  | stmt (.whileStmt c b) => [expr c, expr b]
  | stmt (.printStmt e) => [expr e]
  | stmt (.returnStmt none) => []
  | stmt (.returnStmt (some e)) => [expr e]
  | expr (.number _) => []
  | expr (.var _) => []
  | expr (.assignmentExpr x e) => [expr (.var x), expr e]
  | expr (.binaryOperator _ a b) => [expr a, expr b]
  | expr (.unaryOperator _ e) => [expr e]
  | expr .input => []
  | expr (.blockExpr ss) => ss.map stmt
  | expr (.func _ _ b) => [expr b]
  | expr (.call t es) => expr t :: es.map expr

/-- The node at a position under this one. -/
def descend (n : Node) : Position → Option Node
  | [] => some n
  | i :: q => n.children[i]?.bind (fun c => c.descend q)

/-- No `return` under the node lacks a value. -/
def ValuedReturns (n : Node) : Prop := ∀ q, n.descend q ≠ some (.stmt (.returnStmt none))

variable {n c : Node}

theorem descend_cons_isSome {i : Nat} {q : Position} :
    (n.descend (i :: q)).isSome ↔ ∃ c, n.children[i]? = some c ∧ (c.descend q).isSome := by
  rw [Node.descend]
  cases n.children[i]? <;> simp

/-- Above a node there are nodes. -/
theorem descend_of_append {q r : Position} (h : (n.descend (q ++ r)).isSome) : (n.descend q).isSome := by
  induction q generalizing n with
  | nil => rfl
  | cons i q ih =>
      obtain ⟨c, hc, h⟩ := descend_cons_isSome.mp h
      exact descend_cons_isSome.mpr ⟨c, hc, ih h⟩

theorem valuedReturns_iff : n.ValuedReturns ↔
    n ≠ .stmt (.returnStmt none) ∧ ∀ c ∈ n.children, c.ValuedReturns := by
  constructor
  · intro h
    refine ⟨fun hn => h [] (congrArg some hn), fun c hc q hq => ?_⟩
    obtain ⟨i, hi, rfl⟩ := List.getElem_of_mem hc
    refine h (i :: q) ?_
    rw [Node.descend, List.getElem?_eq_getElem hi]
    exact hq
  · rintro ⟨hn, h⟩ q hq
    cases q with
    | nil => exact hn (Option.some.inj hq)
    | cons i q =>
        rw [Node.descend] at hq
        obtain ⟨c, hc, hq⟩ := Option.bind_eq_some_iff.mp hq
        exact h c (List.mem_of_getElem? hc) q hq

end Node

/-! ## Trees of lines -/

/-- The positions of the records, in order. -/
def records (lines : List DumpLine) : List Position :=
  lines.filterMap (fun | .node here _ _ => some here | .edge _ _ => none)

/-- The edges, in order. -/
def edges (lines : List DumpLine) : List (Position × Position) :=
  lines.filterMap (fun | .node _ _ _ => none | .edge parent child => some (parent, child))

/-- The edge that leads to a position. -/
def edgeTo (q : Position) : Position × Position := (q.dropLast, q)

/-- The lines of the visit of a node. -/
structure TreeLines (n : Node) (here : Position) (lines : List DumpLine) : Prop where
  head : ∃ rest, records lines = here :: rest ∧ edges lines = rest.map edgeTo
  nodup : (records lines).Nodup
  mem : ∀ q, q ∈ records lines ↔ ∃ r, q = here ++ r ∧ (n.descend r).isSome

/-- The lines of the visits of children, from number `i` on. -/
structure ForestLines (cs : List Node) (here : Position) (i : Nat) (lines : List DumpLine) : Prop where
  edges : edges lines = (records lines).map edgeTo
  nodup : (records lines).Nodup
  mem : ∀ q, q ∈ records lines ↔
    ∃ j c r, cs[j]? = some c ∧ q = here ++ (i + j) :: r ∧ (c.descend r).isSome

section Lines

variable {n c : Node} {cs : List Node} {here : Position} {i : Nat} {lines lines' : List DumpLine}
  {parent : Option Position} {fillcolor name : String} {details : List LabelPiece}

theorem mem_edges {child : Position} {q : Position} : (q, child) ∈ edges lines ↔ .edge q child ∈ lines := by
  simp only [edges, List.mem_filterMap]
  constructor
  · rintro ⟨line, hline, heq⟩
    cases line with
    | node here fillcolor label => cases heq
    | edge a b =>
        obtain ⟨rfl, rfl⟩ := Prod.mk.inj (Option.some.inj heq)
        exact hline
  · intro h
    exact ⟨_, h, rfl⟩

theorem records_append : records (lines ++ lines') = records lines ++ records lines' :=
  List.filterMap_append

theorem edges_append : edges (lines ++ lines') = edges lines ++ edges lines' := List.filterMap_append

theorem records_childLines : records (childLines here i lines) = records lines := rfl

theorem edges_childLines : edges (childLines here i lines) = (here, here ++ [i]) :: edges lines := rfl

theorem records_record : records (record here parent fillcolor name details :: lines) = here :: records lines :=
  rfl

theorem edges_record : edges (record here parent fillcolor name details :: lines) = edges lines := rfl

theorem ForestLines.nil : ForestLines [] here i [] where
  edges := rfl
  nodup := List.nodup_nil
  mem q := by simp [records]

/-- **One more child in front.** -/
theorem ForestLines.cons (h : TreeLines c (here ++ [i]) lines) (hs : ForestLines cs here (i + 1) lines') :
    ForestLines (c :: cs) here i (childLines here i lines ++ lines') where
  edges := by
    obtain ⟨rest, hr, he⟩ := h.head
    rw [records_append, edges_append, records_childLines, edges_childLines, hr, he, hs.edges, List.map_append,
      List.map_cons, edgeTo, List.dropLast_concat]
  nodup := by
    rw [records_append, records_childLines]
    refine List.nodup_append.mpr ⟨h.nodup, hs.nodup, ?_⟩
    rintro q hq q' hq' rfl
    obtain ⟨r, rfl, _⟩ := (h.mem q).mp hq
    obtain ⟨j, _, r', _, heq, _⟩ := (hs.mem _).mp hq'
    rw [List.append_assoc, List.append_cancel_left_eq, List.singleton_append, List.cons.injEq] at heq
    omega
  mem q := by
    rw [records_append, records_childLines, List.mem_append, h.mem, hs.mem]
    constructor
    · rintro (⟨r, rfl, hr⟩ | ⟨j, d, r, hd, rfl, hr⟩)
      · exact ⟨0, c, r, rfl, by simp, hr⟩
      · exact ⟨j + 1, d, r, hd, by rw [Nat.add_right_comm, Nat.add_assoc], hr⟩
    · rintro ⟨j, d, r, hd, rfl, hr⟩
      cases j with
      | zero =>
          cases hd
          exact .inl ⟨r, by simp, hr⟩
      | succ j => exact .inr ⟨j, d, r, hd, by rw [Nat.add_right_comm, Nat.add_assoc], hr⟩

theorem ForestLines.single (h : TreeLines c (here ++ [i]) lines) :
    ForestLines [c] here i (childLines here i lines) := by
  rw [← List.append_nil (childLines here i lines)]
  exact .cons h .nil

/-- **The record on top.** -/
theorem ForestLines.record (h : ForestLines n.children here 0 lines) :
    TreeLines n here (ParaCL.record here parent fillcolor name details :: lines) where
  head := ⟨_, records_record, by rw [edges_record, h.edges]⟩
  nodup := by
    rw [records_record]
    refine List.nodup_cons.mpr ⟨fun hq => ?_, h.nodup⟩
    obtain ⟨j, _, r, _, heq, _⟩ := (h.mem here).mp hq
    have hlen := congrArg List.length heq
    simp at hlen
  mem q := by
    rw [records_record, List.mem_cons, h.mem]
    constructor
    · rintro (rfl | ⟨j, c, r, hc, rfl, hr⟩)
      · exact ⟨[], by simp, rfl⟩
      · exact ⟨j :: r, by simp, Node.descend_cons_isSome.mpr ⟨c, hc, hr⟩⟩
    · rintro ⟨r, rfl, hr⟩
      cases r with
      | nil => exact .inl (List.append_nil _)
      | cons j r =>
          obtain ⟨c, hc, hr⟩ := Node.descend_cons_isSome.mp hr
          exact .inr ⟨j, c, r, hc, by simp, hr⟩

theorem TreeLines.leaf (hn : n.children = []) :
    TreeLines n here [ParaCL.record here parent fillcolor name details] :=
  ForestLines.record (hn ▸ ForestLines.nil)

end Lines

/-! ## The visitors draw trees -/

/-- The visit of a node draws its tree, or meets a `return` without a value. -/
def Draws (n : Node) (here : Position) (r : Except DumpFault (List DumpLine)) : Prop :=
  Ensures r (fun lines => TreeLines n here lines ∧ n.ValuedReturns) (fun _ => ¬ n.ValuedReturns)

/-- The same for the visits of children. -/
def DrawsAll (cs : List Node) (here : Position) (i : Nat) (r : Except DumpFault (List DumpLine)) : Prop :=
  Ensures r (fun lines => ForestLines cs here i lines ∧ ∀ c ∈ cs, c.ValuedReturns)
    (fun _ => ¬ ∀ c ∈ cs, c.ValuedReturns)

section Draws

variable {n c : Node} {cs : List Node} {here here' : Position} {i : Nat}
  {r r' : Except DumpFault (List DumpLine)} {f : List DumpLine → Except DumpFault (List DumpLine)}
  {parent : Option Position} {fillcolor name : String} {details : List LabelPiece} {lines : List DumpLine}

theorem Draws.leaf (hc : n.children = []) (hn : n ≠ .stmt (.returnStmt none)) :
    Draws n here (.ok [record here parent fillcolor name details]) :=
  .ok ⟨.leaf hc, Node.valuedReturns_iff.mpr ⟨hn, by simp [hc]⟩⟩

/-- A child is visited first. -/
theorem Draws.bind (h : Draws c here' r) (hc : c ∈ n.children)
    (hf : ∀ lines, TreeLines c here' lines → c.ValuedReturns → Draws n here (f lines)) :
    Draws n here (r >>= f) := by
  refine Ensures.bind (h.weaken (fun _ h => h) (fun _ hno hn => ?_)) (fun lines h => hf lines h.1 h.2)
  exact hno ((Node.valuedReturns_iff.mp hn).2 c hc)

/-- All the children have been visited. -/
theorem Draws.done (hn : n ≠ .stmt (.returnStmt none)) (h : ForestLines n.children here 0 lines)
    (hv : ∀ c ∈ n.children, c.ValuedReturns) :
    Draws n here (.ok (record here parent fillcolor name details :: lines)) :=
  .ok ⟨ForestLines.record h, Node.valuedReturns_iff.mpr ⟨hn, hv⟩⟩

/-- A node with a loop over all its children. -/
theorem DrawsAll.record (hn : n ≠ .stmt (.returnStmt none)) (h : DrawsAll n.children here 0 r) :
    Draws n here (do return ParaCL.record here parent fillcolor name details :: (← r)) := by
  refine Ensures.bind (h.weaken (fun _ h => h) (fun _ hno hall => ?_)) (fun lines h => ?_)
  · exact hno (Node.valuedReturns_iff.mp hall).2
  · exact Draws.done hn h.1 h.2

theorem DrawsAll.nil : DrawsAll [] here i (.ok []) := .ok ⟨.nil, by simp⟩

/-- The loop goes on. -/
theorem DrawsAll.cons (h : Draws c (here ++ [i]) r) (hs : DrawsAll cs here (i + 1) r') :
    DrawsAll (c :: cs) here i (do return childLines here i (← r) ++ (← r')) := by
  refine Ensures.bind (h.weaken (fun _ h => h) (fun _ hno hall => ?_)) (fun lines h => ?_)
  · exact hno (hall c List.mem_cons_self)
  · refine Ensures.bind (hs.weaken (fun _ h => h) (fun _ hno hall => ?_)) (fun lines' h' => ?_)
    · exact hno (fun d hd => hall d (List.mem_cons_of_mem c hd))
    · exact .ok ⟨.cons h.1 h'.1, List.forall_mem_cons.mpr ⟨h.2, h'.2⟩⟩

/-- A node whose only child has been visited. -/
theorem Draws.one (hn : n ≠ .stmt (.returnStmt none)) (hc : n.children = [c])
    (h : Draws c (here ++ [0]) r) :
    Draws n here (do return record here parent fillcolor name details :: childLines here 0 (← r)) := by
  refine .bind h (by simp [hc]) (fun lines hl hv => .done hn ?_ (by simpa [hc] using hv))
  rw [hc]
  exact .single hl

/-- A node with two children. -/
theorem Draws.two {d : Node} (hn : n ≠ .stmt (.returnStmt none)) (hc : n.children = [c, d])
    (h : Draws c (here ++ [0]) r) (h' : Draws d (here ++ [1]) r') :
    Draws n here (do
      let l ← r
      let l' ← r'
      return record here parent fillcolor name details :: (childLines here 0 l ++ childLines here 1 l')) := by
  refine .bind h (by simp [hc]) (fun l hl hv => .bind h' (by simp [hc]) (fun l' hl' hv' => ?_))
  refine .done hn ?_ (by simpa [hc] using ⟨hv, hv'⟩)
  rw [hc]
  exact .cons hl (.single hl')

end Draws

theorem recordVariable_lines (x : Name) (here : Position) (parent : Option Position) :
    TreeLines (.expr (.var x)) here [recordVariable here parent x] := .leaf rfl

theorem variable_valued (x : Name) : (Node.expr (.var x)).ValuedReturns :=
  Node.valuedReturns_iff.mpr ⟨by simp, by simp [Node.children]⟩

mutual

/-- **Every visitor draws its tree.** -/
theorem dumpExpression_draws : ∀ (e : Expression) (here : Position) (parent : Option Position),
    Draws (.expr e) here (dumpExpression here parent e)
  | .number v, here, parent => by
      rw [dumpExpression]
      exact .leaf rfl (by simp)
  | .var x, here, parent => by
      rw [dumpExpression]
      exact .leaf rfl (by simp)
  | .assignmentExpr x e, here, parent => by
      rw [dumpExpression]
      refine .bind (dumpExpression_draws e (here ++ [1]) (some here)) (by simp [Node.children])
        (fun l hl hv => .done (by simp) ?_ (by simpa [Node.children] using ⟨variable_valued x, hv⟩))
      exact .cons (recordVariable_lines x _ _) (.single hl)
  | .binaryOperator op a b, here, parent => by
      rw [dumpExpression]
      exact .two (by simp) rfl (dumpExpression_draws a (here ++ [0]) (some here))
        (dumpExpression_draws b (here ++ [1]) (some here))
  | .unaryOperator op e, here, parent => by
      rw [dumpExpression]
      exact .one (by simp) rfl (dumpExpression_draws e (here ++ [0]) (some here))
  | .input, here, parent => by
      rw [dumpExpression]
      exact .leaf rfl (by simp)
  | .blockExpr ss, here, parent => by
      rw [dumpExpression]
      exact DrawsAll.record (by simp) (dumpStmts_draws ss here 0)
  | .func f ps b, here, parent => by
      rw [dumpExpression]
      exact .one (by simp) rfl (dumpExpression_draws b (here ++ [0]) (some here))
  | .call t es, here, parent => by
      rw [dumpExpression]
      refine .bind (dumpExpression_draws t (here ++ [0]) (some here)) (by simp [Node.children])
        (fun l hl hv => ?_)
      refine Ensures.bind ((dumpArgs_draws es here 1).weaken (fun _ h => h) (fun _ hno hn => ?_))
        (fun l' h => Draws.done (by simp) (.cons hl h.1) (List.forall_mem_cons.mpr ⟨hv, h.2⟩))
      exact hno (List.forall_mem_cons.mp (Node.valuedReturns_iff.mp hn).2).2

theorem dumpStatement_draws : ∀ (s : Statement) (here : Position) (parent : Option Position),
    Draws (.stmt s) here (dumpStatement here parent s)
  | .emptyStmt, here, parent => by
      rw [dumpStatement]
      exact .leaf rfl (by simp)
  | .exprStmt e, here, parent => by
      rw [dumpStatement]
      exact .one (by simp) rfl (dumpExpression_draws e (here ++ [0]) (some here))
  | .ifStmt c t none, here, parent => by
      rw [dumpStatement]
      exact .two (by simp) rfl (dumpExpression_draws c (here ++ [0]) (some here))
        (dumpExpression_draws t (here ++ [1]) (some here))
  | .ifStmt c t (some e), here, parent => by
      rw [dumpStatement]
      refine .bind (dumpExpression_draws c (here ++ [0]) (some here)) (by simp [Node.children])
        (fun l hl hv => ?_)
      refine .bind (dumpExpression_draws t (here ++ [1]) (some here)) (by simp [Node.children])
        (fun l' hl' hv' => ?_)
      refine .bind (dumpExpression_draws e (here ++ [2]) (some here)) (by simp [Node.children])
        (fun l'' hl'' hv'' => ?_)
      exact .done (by simp) (.cons hl (.cons hl' (.single hl'')))
        (by simpa [Node.children] using ⟨hv, hv', hv''⟩)
  | .whileStmt c b, here, parent => by
      rw [dumpStatement]
      exact .two (by simp) rfl (dumpExpression_draws c (here ++ [0]) (some here))
        (dumpExpression_draws b (here ++ [1]) (some here))
  | .printStmt e, here, parent => by
      rw [dumpStatement]
      exact .one (by simp) rfl (dumpExpression_draws e (here ++ [0]) (some here))
  -- the visitor dereferences the missing value
  | .returnStmt none, here, parent => by
      rw [dumpStatement]
      exact .error (fun h => (Node.valuedReturns_iff.mp h).1 rfl)
  | .returnStmt (some e), here, parent => by
      rw [dumpStatement]
      exact .one (by simp) rfl (dumpExpression_draws e (here ++ [0]) (some here))

theorem dumpStmts_draws : ∀ (ss : List Statement) (here : Position) (i : Nat),
    DrawsAll (ss.map Node.stmt) here i (dumpStmts here i ss)
  | [], here, i => by
      rw [dumpStmts]
      exact .nil
  | s :: ss, here, i => by
      rw [dumpStmts]
      exact .cons (dumpStatement_draws s (here ++ [i]) (some here)) (dumpStmts_draws ss here (i + 1))

theorem dumpArgs_draws : ∀ (es : List Expression) (here : Position) (i : Nat),
    DrawsAll (es.map Node.expr) here i (dumpArgs here i es)
  | [], here, i => by
      rw [dumpArgs]
      exact .nil
  | e :: es, here, i => by
      rw [dumpArgs]
      exact .cons (dumpExpression_draws e (here ++ [i]) (some here)) (dumpArgs_draws es here (i + 1))

end

theorem dumpProgram_draws (p : Program) : Draws (.program p) [] (dumpProgram p) :=
  DrawsAll.record (n := .program p) (by simp) (dumpStmts_draws p.stmts [] 0)

/-! ## The picture -/

/-- The lines show the tree, its nodes under their addresses: one record for each node, one edge for each
    parent and child, and no others. -/
structure Pictured {α : Type} (n : Node) (address : Position → α) (lines : List DumpLine) : Prop where
  records_nodup : ((records lines).map address).Nodup
  records_mem : ∀ a, a ∈ (records lines).map address ↔ ∃ q, (n.descend q).isSome ∧ address q = a
  edges_nodup : ((edges lines).map (Prod.map address address)).Nodup
  edges_mem : ∀ a b, (a, b) ∈ (edges lines).map (Prod.map address address) ↔
    ∃ q i, (n.descend (q ++ [i])).isSome ∧ address q = a ∧ address (q ++ [i]) = b

/-- Where the addresses of the nodes are distinct, the lines of a visit are a picture. -/
theorem TreeLines.pictured {α : Type} {n : Node} {address : Position → α} {lines : List DumpLine}
    (h : TreeLines n [] lines) (haddr : ∀ q r, (n.descend q).isSome → (n.descend r).isSome →
      address q = address r → q = r) : Pictured n address lines := by
  obtain ⟨rest, hr, he⟩ := h.head
  have hmem (q : Position) : q ∈ records lines ↔ (n.descend q).isSome := by
    rw [h.mem]
    constructor
    · rintro ⟨r, rfl, hq⟩
      exact hq
    · intro hq
      exact ⟨q, rfl, hq⟩
  -- all but the root have an edge that leads to them
  have hrest (q : Position) : q ∈ rest ↔ q ≠ [] ∧ (n.descend q).isSome := by
    have hnodup := h.nodup
    rw [hr] at hnodup
    rw [← hmem, hr, List.mem_cons]
    constructor
    · intro hq
      exact ⟨fun hnil => (List.nodup_cons.mp hnodup).1 (hnil ▸ hq), .inr hq⟩
    · rintro ⟨hne, hq⟩
      exact hq.resolve_left hne
  have hparent (q : Position) (i : Nat) (hq : (n.descend (q ++ [i])).isSome) : (n.descend q).isSome :=
    Node.descend_of_append hq
  have hinj : ∀ q ∈ records lines, ∀ r ∈ records lines, address q = address r → q = r :=
    fun q hq r hr => haddr q r ((hmem q).mp hq) ((hmem r).mp hr)
  refine ⟨(List.nodup_map_iff_inj_on h.nodup).mpr hinj, fun a => ?_, ?_, fun a b => ?_⟩
  · simp only [List.mem_map, hmem]
  · have hsub : ∀ q ∈ rest, q ∈ records lines := fun q hq => by
      rw [hr]
      exact List.mem_cons_of_mem _ hq
    have hnodup : rest.Nodup := by
      have hn := h.nodup
      rw [hr] at hn
      exact (List.nodup_cons.mp hn).2
    rw [he, List.map_map]
    refine (List.nodup_map_iff_inj_on hnodup).mpr (fun q hq r hr heq => ?_)
    exact hinj q (hsub q hq) r (hsub r hr) (congrArg Prod.snd heq)
  · rw [he, List.map_map, List.mem_map]
    constructor
    · rintro ⟨q, hq, heq⟩
      obtain ⟨hne, hq⟩ := (hrest q).mp hq
      rw [← List.dropLast_append_getLast hne] at hq
      refine ⟨q.dropLast, q.getLast hne, hq, congrArg Prod.fst heq, ?_⟩
      rw [List.dropLast_append_getLast]
      exact congrArg Prod.snd heq
    · rintro ⟨q, i, hq, rfl, rfl⟩
      refine ⟨q ++ [i], (hrest _).mpr ⟨by simp, hq⟩, ?_⟩
      simp [edgeTo]

/-- **What `graph_dump` writes** is the text of a picture: of the lines of the one dump there is, between
    the opening and the closing of the graph. It writes nothing else, and no text where the dump fails. -/
theorem graphDump_ok_iff (p : Program) (address : Position → String)
    (haddr : ∀ q r, ((Node.program p).descend q).isSome → ((Node.program p).descend r).isSome →
      address q = address r → q = r) (text : String) :
    graphDump address p = .ok text ↔ ∃ lines, dumpProgram p = .ok lines ∧
      Pictured (.program p) address lines ∧ text = graphText address lines := by
  constructor
  · intro h
    obtain ⟨lines, hlines, htext⟩ := bind_ok_iff.mp h
    exact ⟨lines, hlines, ((dumpProgram_draws p).of_ok hlines).1.pictured haddr, (Except.ok.inj htext).symm⟩
  · rintro ⟨lines, hlines, _, rfl⟩
    rw [graphDump, hlines]
    rfl

/-- A line of the dump stands whole in the text. -/
theorem write_infix_graphText {address : Position → String} {lines : List DumpLine} {line : DumpLine}
    (h : line ∈ lines) : (line.write address).toList <:+: (graphText address lines).toList := by
  obtain ⟨before, after, rfl⟩ := List.append_of_mem h
  refine ⟨graphHeader.toList ++ (String.join (before.map (DumpLine.write address))).toList,
    (String.join (after.map (DumpLine.write address))).toList ++ graphFooter.toList, ?_⟩
  simp only [graphText, List.map_append, List.map_cons, String.join_append, String.join_cons, String.toList_append,
    List.append_assoc]

/-- Every edge of the tree can be read in the text, under the addresses of its ends. -/
theorem graphDump_edge {p : Program} {address : Position → String} {text : String}
    (h : graphDump address p = .ok text) {q : Position} {i : Nat}
    (hq : ((Node.program p).descend (q ++ [i])).isSome) :
    ("    node_" ++ address q ++ " -> node_" ++ address (q ++ [i]) ++ ";\n").toList <:+: text.toList := by
  obtain ⟨lines, hlines, htext⟩ := bind_ok_iff.mp h
  obtain rfl : graphText address lines = text := Except.ok.inj htext
  have hpicture : Pictured (.program p) id lines :=
    ((dumpProgram_draws p).of_ok hlines).1.pictured (fun _ _ _ _ heq => heq)
  have hedge : (q, q ++ [i]) ∈ edges lines := by
    simpa using (hpicture.edges_mem q (q ++ [i])).mpr ⟨q, i, hq, rfl, rfl⟩
  have hwritten : (DumpLine.write address (.edge q (q ++ [i]))).toList <:+: (graphText address lines).toList :=
    write_infix_graphText (mem_edges.mp hedge)
  rw [DumpLine.write] at hwritten
  exact hwritten

/-- A return without a value is accepted, and its dump takes the value that is not there. -/
theorem return_not_dumped : Accepted ⟨[.returnStmt none]⟩ ∧
    ¬ ∃ lines, dumpProgram ⟨[.returnStmt none]⟩ = .ok lines ∧
      Pictured (.program ⟨[.returnStmt none]⟩) id lines := by
  refine ⟨by decide, ?_⟩
  rintro ⟨lines, h, _⟩
  have hd : dumpProgram ⟨[.returnStmt none]⟩ = .error .nullDereference := rfl
  rw [hd] at h
  cases h

/-- **The dump completes and is a picture of the tree** exactly when every `return` has a value. -/
theorem graph_dump_iff {α : Type} (p : Program) (address : Position → α)
    (haddr : ∀ q r, ((Node.program p).descend q).isSome → ((Node.program p).descend r).isSome →
      address q = address r → q = r) :
    (∃ lines, dumpProgram p = .ok lines ∧ Pictured (.program p) address lines) ↔
      ∀ q, (Node.program p).descend q ≠ some (.stmt (.returnStmt none)) := by
  have hdraws := dumpProgram_draws p
  constructor
  · rintro ⟨lines, h, _⟩
    exact (hdraws.of_ok h).2
  · intro h
    cases hr : dumpProgram p with
    | ok lines => exact ⟨lines, rfl, (hdraws.of_ok hr).1.pictured haddr⟩
    | error e => exact absurd h (hdraws.of_error hr)

/-- `print 0; return 1;` -/
def printReturn : Program where
  stmts := [.printStmt (.number 0), .returnStmt (some (.number 1))]

theorem graph_dump_print :
    ∃ lines, dumpProgram printReturn = .ok lines ∧ Pictured (.program printReturn) id lines := by
  have hvalues : ∀ q, (Node.program printReturn).descend q ≠ some (.stmt (.returnStmt none)) :=
    ((dumpProgram_draws printReturn).of_ok rfl).2
  exact (graph_dump_iff printReturn id (fun _ _ _ _ h => h)).mpr hvalues

end ParaCL
