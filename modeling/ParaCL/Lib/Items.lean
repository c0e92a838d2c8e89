import Mathlib.Data.List.Dedup
import Mathlib.Logic.Relation

/-!
# `Lib.Items` — grammars and the items of their viable prefixes

A grammar is a type of productions with left- and right-hand sides. An item is a production with a dot in
its right-hand side. `items γ` is the set an LR(0) automaton keeps for the stack of symbols `γ` (top
first): the items that may be under way when the parser has read `γ`. No automaton is built; the items are
a function of the stack.

`items_split` reads an item back: what stands before its dot is the top of the stack, and below it the
production was about to begin. A stack with an item is a viable prefix (`Viable`), and so is everything
under its top.
-/

namespace Lib

inductive GrammarSymbol (T N : Type) where
  | terminal (t : T)
  | nonterminal (a : N)
  deriving DecidableEq

/-- Productions with their sides, grouped by the left one, and for every nonterminal the nonterminals
    that can begin it. `start` is the production of the whole input; its left side is used nowhere. -/
structure Grammar (T N R : Type) where
  lhs : R → N
  rhs : R → List (GrammarSymbol T N)
  rules : N → List R
  mem_rules : ∀ {a : N} {r : R}, r ∈ rules a ↔ lhs r = a
  start : R
  start_fresh : ∀ r, .nonterminal (lhs start) ∉ rhs r
  corners : N → List N
  mem_corners : ∀ {a b : N}, b ∈ corners a ↔
    Relation.ReflTransGen (fun a b => ∃ r, lhs r = a ∧ (rhs r).head? = some (.nonterminal b)) a b

/-! ## Computing left corners -/

section Search

variable {N : Type} [DecidableEq N] {heads : N → List N} {a b : N}

/-- The nonterminals met from a worklist, each once. -/
def search (heads : N → List N) : Nat → List N → List N → List N
  | 0, _, found => found
  | _ + 1, [], found => found
  | n + 1, a :: work, found =>
      if a ∈ found then search heads n work found
      else search heads n (heads a ++ work) (a :: found)

theorem search_sound {n : Nat} {work found : List N} (h : b ∈ search heads n work found) :
    b ∈ found ∨ ∃ a ∈ work, Relation.ReflTransGen (fun a b => b ∈ heads a) a b := by
  induction n generalizing work found with
  | zero => exact .inl h
  | succ n ih =>
      cases work with
      | nil => exact .inl h
      | cons a work =>
          rw [search] at h
          split at h
          · rcases ih h with hf | ⟨c, hc, hr⟩
            · exact .inl hf
            · exact .inr ⟨c, List.mem_cons_of_mem _ hc, hr⟩
          · rcases ih h with hf | ⟨c, hc, hr⟩
            · rcases List.mem_cons.mp hf with rfl | hf
              · exact .inr ⟨b, List.mem_cons_self .., .refl⟩
              · exact .inl hf
            · rcases List.mem_append.mp hc with hc | hc
              · exact .inr ⟨a, List.mem_cons_self .., hr.head hc⟩
              · exact .inr ⟨c, List.mem_cons_of_mem _ hc, hr⟩

/-- A search that is closed has found everything there is. -/
theorem mem_search {n : Nat} (hself : ∀ a, a ∈ search heads n [a] [])
    (hclosed : ∀ a, ∀ b ∈ search heads n [a] [], ∀ c ∈ heads b, c ∈ search heads n [a] []) :
    b ∈ search heads n [a] [] ↔ Relation.ReflTransGen (fun a b => b ∈ heads a) a b := by
  constructor
  · intro h
    rcases search_sound h with hn | ⟨c, hc, hr⟩
    · cases hn
    · exact List.mem_singleton.mp hc ▸ hr
  · intro h
    induction h with
    | refl => exact hself a
    | tail _ hc ih => exact hclosed a _ ih _ hc

end Search

/-! ## Items -/

/-- A production with a dot before the symbol at `dot`. -/
structure Item (R : Type) where
  rule : R
  dot : Nat
  deriving DecidableEq

def Item.advance {R : Type} (it : Item R) : Item R := ⟨it.rule, it.dot + 1⟩

namespace Grammar

variable {T N R : Type} [DecidableEq T] [DecidableEq N] (G : Grammar T N R)

/-- The symbol after the dot. -/
def next (it : Item R) : Option (GrammarSymbol T N) := (G.rhs it.rule)[it.dot]?

def nextNonterminal (it : Item R) : Option N :=
  match G.next it with
  | some (.nonterminal a) => some a
  | _ => none

/-- Add the productions that can begin what comes after a dot. -/
def closure (kernel : List (Item R)) : List (Item R) :=
  kernel ++ ((kernel.filterMap G.nextNonterminal).flatMap G.corners).dedup.flatMap
    (fun a => (G.rules a).map (fun r => ⟨r, 0⟩))

/-- Move the dot over a symbol. -/
def goto (its : List (Item R)) (x : GrammarSymbol T N) : List (Item R) :=
  (its.filter (fun it => G.next it = some x)).map Item.advance

/-- The items with the top of the stack before their dot. -/
def kernel : List (GrammarSymbol T N) → List (Item R)
  | [] => [⟨G.start, 0⟩]
  | x :: γ => G.goto (G.closure (kernel γ)) x

/-- The items under way on a stack of symbols, the top one first. -/
def items (γ : List (GrammarSymbol T N)) : List (Item R) := G.closure (G.kernel γ)

/-- Some item goes on with the terminal. -/
def shifts (γ : List (GrammarSymbol T N)) (t : T) : Bool :=
  (G.items γ).any (fun it => G.next it = some (.terminal t))

/-- An item with nothing after its dot. -/
def complete (γ : List (GrammarSymbol T N)) : Option (Item R) :=
  (G.items γ).find? (fun it => G.next it = none)

def nextTerminal (it : Item R) : Option T :=
  match G.next it with
  | some (.terminal t) => some t
  | _ => none

/-- The terminals that can be shifted. -/
def expected (γ : List (GrammarSymbol T N)) : List T := ((G.items γ).filterMap G.nextTerminal).dedup

/-! ## Membership -/

section Membership

variable {G} {it : Item R} {its k : List (Item R)} {x : GrammarSymbol T N} {γ : List (GrammarSymbol T N)}
  {a b : N} {r : R} {t : T}

omit [DecidableEq T] [DecidableEq N] in
theorem nextNonterminal_eq : G.nextNonterminal it = some a ↔ G.next it = some (.nonterminal a) := by
  unfold nextNonterminal
  split
  · rename_i b hb
    rw [hb, Option.some.injEq, Option.some.injEq, GrammarSymbol.nonterminal.injEq]
  · rename_i hne
    constructor
    · intro h; cases h
    · intro h; exact absurd h (hne a)

omit [DecidableEq T] [DecidableEq N] in
theorem nextTerminal_eq : G.nextTerminal it = some t ↔ G.next it = some (.terminal t) := by
  unfold nextTerminal
  split
  · rename_i b hb
    rw [hb, Option.some.injEq, Option.some.injEq, GrammarSymbol.terminal.injEq]
  · rename_i hne
    constructor
    · intro h; cases h
    · intro h; exact absurd h (hne t)

theorem mem_goto : it ∈ G.goto its x ↔ ∃ i ∈ its, G.next i = some x ∧ i.advance = it := by
  simp [goto, and_assoc]

omit [DecidableEq T] in
theorem mem_closure : it ∈ G.closure k ↔ it ∈ k ∨
    (it.dot = 0 ∧ ∃ i ∈ k, ∃ b, G.next i = some (.nonterminal b) ∧ G.lhs it.rule ∈ G.corners b) := by
  obtain ⟨r, d⟩ := it
  simp only [closure, List.mem_append, List.mem_flatMap, List.mem_dedup, List.mem_filterMap,
    nextNonterminal_eq, List.mem_map, Item.mk.injEq, G.mem_rules]
  constructor
  · rintro (h | ⟨a, ⟨b, ⟨i, hi, hb⟩, ha⟩, r', hr, rfl, rfl⟩)
    · exact .inl h
    · exact .inr ⟨rfl, i, hi, b, hb, hr ▸ ha⟩
  · rintro (h | ⟨rfl, i, hi, b, hb, ha⟩)
    · exact .inl h
    · exact .inr ⟨_, ⟨b, ⟨i, hi, hb⟩, ha⟩, r, rfl, rfl, rfl⟩

theorem mem_items_of_kernel (h : it ∈ G.kernel γ) : it ∈ G.items γ := mem_closure.mpr (.inl h)

/-- **Reading on.** -/
theorem advance_mem (h : it ∈ G.items γ) (hx : G.next it = some x) : it.advance ∈ G.items (x :: γ) :=
  mem_items_of_kernel (mem_goto.mpr ⟨it, h, hx, rfl⟩)

/-- **Beginning** a production of what comes next. -/
theorem begin_mem (h : it ∈ G.items γ) (ha : G.next it = some (.nonterminal (G.lhs r))) :
    ⟨r, 0⟩ ∈ G.items γ := by
  refine mem_closure.mpr (.inr ⟨rfl, ?_⟩)
  rcases mem_closure.mp h with hk | ⟨hd, i, hi, b, hb, hc⟩
  · exact ⟨it, hk, _, ha, G.mem_corners.mpr .refl⟩
  · refine ⟨i, hi, b, hb, G.mem_corners.mpr ((G.mem_corners.mp hc).tail ⟨it.rule, rfl, ?_⟩)⟩
    rw [next, hd] at ha
    rw [List.head?_eq_getElem?]
    exact ha

/-- Only the production of the whole input begins by itself. -/
theorem dot_pos_of_kernel (h : it ∈ G.kernel γ) : it = ⟨G.start, 0⟩ ∧ γ = [] ∨ 0 < it.dot := by
  cases γ with
  | nil => exact .inl ⟨List.mem_singleton.mp h, rfl⟩
  | cons x γ =>
      obtain ⟨i, _, _, rfl⟩ := mem_goto.mp h
      exact .inr (Nat.succ_pos _)

theorem eq_nil_of_start (h : ⟨G.start, 0⟩ ∈ G.items γ) : γ = [] := by
  rcases mem_closure.mp h with hk | ⟨_, i, _, b, hb, hc⟩
  · rcases dot_pos_of_kernel hk with ⟨_, hγ⟩ | hpos
    · exact hγ
    · exact absurd hpos (Nat.lt_irrefl 0)
  · exfalso
    rcases (G.mem_corners.mp hc).cases_tail with rfl | ⟨c, _, r', _, hh⟩
    · exact G.start_fresh i.rule (List.mem_of_getElem? hb)
    · exact G.start_fresh r' (List.mem_of_mem_head? hh)

/-- An item with the dot further on was one before the top of the stack. -/
theorem mem_items_succ {d : Nat} (h : ⟨r, d + 1⟩ ∈ G.items γ) :
    ∃ x γ', γ = x :: γ' ∧ (G.rhs r)[d]? = some x ∧ ⟨r, d⟩ ∈ G.items γ' := by
  rcases mem_closure.mp h with hk | ⟨hd, _⟩
  · cases γ with
    | nil => simp [kernel] at hk
    | cons x γ' =>
        obtain ⟨⟨r', d'⟩, hi, hx, he⟩ := mem_goto.mp hk
        cases he
        exact ⟨x, γ', rfl, hx, hi⟩
  · cases hd

/-- **What an item says about the stack.** The symbols before its dot are on top, and under them the
    production was about to begin. -/
theorem items_split {d : Nat} (h : ⟨r, d⟩ ∈ G.items γ) :
    d ≤ (G.rhs r).length ∧
      ∃ γ', γ = ((G.rhs r).take d).reverse ++ γ' ∧ ⟨r, 0⟩ ∈ G.items γ' := by
  induction d generalizing γ with
  | zero => exact ⟨Nat.zero_le _, γ, rfl, h⟩
  | succ d ih =>
      obtain ⟨x, γ1, rfl, hx, h1⟩ := mem_items_succ h
      obtain ⟨_, γ', rfl, h0⟩ := ih h1
      obtain ⟨hlt, _⟩ := List.getElem?_eq_some_iff.mp hx
      refine ⟨hlt, γ', ?_, h0⟩
      rw [List.take_add_one, hx, List.reverse_append]
      rfl

/-- Where a production begins, its left-hand side is awaited. -/
theorem awaited (h : ⟨r, 0⟩ ∈ G.items γ) (hr : r ≠ G.start) :
    ∃ it ∈ G.items γ, G.next it = some (.nonterminal (G.lhs r)) := by
  rcases mem_closure.mp h with hk | ⟨_, i, hi, b, hb, hc⟩
  · rcases dot_pos_of_kernel hk with ⟨he, _⟩ | hpos
    · cases he
      exact absurd rfl hr
    · exact absurd hpos (Nat.lt_irrefl 0)
  · rcases (G.mem_corners.mp hc).cases_tail with rfl | ⟨c, hbc, r', hr', hh⟩
    · exact ⟨i, mem_items_of_kernel hi, hb⟩
    · refine ⟨⟨r', 0⟩, mem_closure.mpr (.inr ⟨rfl, i, hi, b, hb, ?_⟩), ?_⟩
      · rw [hr']
        exact G.mem_corners.mpr hbc
      · rw [next, ← List.head?_eq_getElem?]
        exact hh

theorem shifts_iff : G.shifts γ t = true ↔ ∃ it ∈ G.items γ, G.next it = some (.terminal t) := by
  simp [shifts]

theorem mem_expected : t ∈ G.expected γ ↔ G.shifts γ t = true := by
  rw [shifts_iff, expected, List.mem_dedup, List.mem_filterMap]
  exact exists_congr (fun it => and_congr_right (fun _ => nextTerminal_eq))

theorem complete_some (h : G.complete γ = some it) : it ∈ G.items γ ∧ G.next it = none :=
  ⟨List.mem_of_find?_eq_some h, by simpa using List.find?_some h⟩

theorem complete_none : G.complete γ = none ↔ ∀ it ∈ G.items γ, G.next it ≠ none := by
  simp [complete]

/-- A complete item has its whole right-hand side on the stack. -/
theorem complete_split (h : G.complete γ = some it) :
    it.dot = (G.rhs it.rule).length ∧
      ∃ γ', γ = (G.rhs it.rule).reverse ++ γ' ∧ ⟨it.rule, 0⟩ ∈ G.items γ' := by
  obtain ⟨hm, hn⟩ := complete_some h
  obtain ⟨hle, γ', hγ, h0⟩ := items_split (r := it.rule) (d := it.dot) hm
  have hdot : it.dot = (G.rhs it.rule).length :=
    Nat.le_antisymm hle (List.getElem?_eq_none_iff.mp hn)
  rw [hdot, List.take_length] at hγ
  exact ⟨hdot, γ', hγ, h0⟩

/-! ## Viable prefixes -/

variable (G) in
/-- Some item is under way. -/
def Viable (γ : List (GrammarSymbol T N)) : Prop := ∃ it, it ∈ G.items γ

theorem viable_nil : G.Viable [] := ⟨_, mem_items_of_kernel (List.mem_singleton.mpr rfl)⟩

theorem viable_cons (h : it ∈ G.items γ) (hx : G.next it = some x) : G.Viable (x :: γ) :=
  ⟨_, advance_mem h hx⟩

theorem Viable.kernel (h : G.Viable γ) : ∃ i, i ∈ G.kernel γ := by
  obtain ⟨it, h⟩ := h
  rcases mem_closure.mp h with hk | ⟨_, i, hi, _⟩
  · exact ⟨it, hk⟩
  · exact ⟨i, hi⟩

/-- The top of a viable prefix was awaited. -/
theorem Viable.top (h : G.Viable (x :: γ)) : ∃ it ∈ G.items γ, G.next it = some x := by
  obtain ⟨_, hi⟩ := h.kernel
  obtain ⟨i, hi, hx, _⟩ := mem_goto.mp hi
  exact ⟨i, hi, hx⟩

theorem Viable.tail (h : G.Viable (x :: γ)) : G.Viable γ :=
  have ⟨it, hit, _⟩ := h.top
  ⟨it, hit⟩

theorem complete_ne_none (h : it ∈ G.items γ) (hn : G.next it = none) : G.complete γ ≠ none :=
  fun hc => complete_none.mp hc it h hn

end Membership

end Grammar

end Lib
