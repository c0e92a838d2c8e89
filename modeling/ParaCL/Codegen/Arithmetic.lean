import ParaCL.Codegen.Evaluation

/-!
# `Codegen.Arithmetic` — the operators as `codegen.cpp` lowers them

What the emitted instructions compute on integers is an interpretation of its own,
`Interpretation.generated`: arithmetic wraps around, and as the case of `>=` has no `break`, its result is
the sum that the next case emits. Emitted code evaluates an expression under this interpretation exactly; where
the interpretation is undefined it gets stuck or comes to poison, which no operator turns back into an integer.
-/

namespace ParaCL

open Lib

open CodeGenerator (emit visit)

/-! ## What the instructions compute -/

/-- The operators on integers. The case of `>=` runs on into that of `+`. -/
def generatedBinary : BinaryOperators → Number → Number → Option Number
  | .greaterEq, a, b => some (a + b)
  | .add, a, b => some (a + b)
  | .sub, a, b => some (a - b)
  | .mul, a, b => some (a * b)
  | op, a, b => cppBinary op a b

/-- The unary operators. A minus is a subtraction from zero. -/
def generatedUnary : UnaryOperators → Number → Option Number
  | .neg, a => some (0 - a)
  | op, a => cppUnary op a

/-- The operators as the generated code computes them. -/
def Interpretation.generated : Interpretation := ⟨generatedBinary, generatedUnary⟩

/-- `icmp`, then `zext`. -/
def evalCompare (p : Predicate) (a b : Constant) : Option Constant :=
  (Opcode.evalLlvm (.icmp p) [a, b]).bind (fun c => Opcode.evalLlvm .zext [c])

/-- Both sides compared with zero, then the connective on the bits, then `zext`. -/
def evalLogical (opcode : Opcode) (a b : Constant) : Option Constant :=
  (Opcode.evalLlvm (.icmp .ne) [a, .int 0]).bind (fun l =>
    (Opcode.evalLlvm (.icmp .ne) [b, .int 0]).bind (fun r =>
      (opcode.evalLlvm [l, r]).bind (fun c => Opcode.evalLlvm .zext [c])))

/-- The instructions of an operator, on integers and poison. -/
def evalBinary : BinaryOperators → Constant → Constant → Option Constant
  | .eq, a, b => evalCompare .eq a b
  | .neq, a, b => evalCompare .ne a b
  | .less, a, b => evalCompare .slt a b
  | .lessEq, a, b => evalCompare .sle a b
  | .greater, a, b => evalCompare .sgt a b
  | .greaterEq, a, b => Opcode.evalLlvm .add [a, b]
  | .add, a, b => Opcode.evalLlvm .add [a, b]
  | .sub, a, b => Opcode.evalLlvm .sub [a, b]
  | .mul, a, b => Opcode.evalLlvm .mul [a, b]
  | .div, a, b => Opcode.evalLlvm .sdiv [a, b]
  | .remDiv, a, b => Opcode.evalLlvm .srem [a, b]
  | .and, a, b => Opcode.evalLlvm .and [a, b]
  | .xor, a, b => Opcode.evalLlvm .xor [a, b]
  | .or, a, b => Opcode.evalLlvm .or [a, b]
  | .logOr, a, b => evalLogical .or a b
  | .logAnd, a, b => evalLogical .and a b

/-- The instructions of a unary operator. -/
def evalUnary : UnaryOperators → Constant → Option Constant
  | .neg, a => Opcode.evalLlvm .sub [.int 0, a]
  | .plus, a => some a
  | .not, a => evalCompare .eq a (.int 0)

/-- On integers the instructions compute the interpretation. -/
theorem evalBinary_int (op : BinaryOperators) (a b : Number) :
    evalBinary op (.int a) (.int b) = (generatedBinary op a b).map .int := by
  cases op with
  | div | remDiv =>
      simp only [evalBinary, Opcode.evalLlvm, Opcode.evalInt, generatedBinary, cppBinary, unlessOverflow]
      cases divisible a b <;> rfl
  | _ => rfl

/-- On integers they compute the interpretation too. -/
theorem evalUnary_int (op : UnaryOperators) (a : Number) :
    evalUnary op (.int a) = (generatedUnary op a).map .int := by
  cases op <;> rfl

/-- Operands that are not both integers give poison, or are undefined to divide by. -/
theorem evalBinary_cases (op : BinaryOperators) {a b : Constant} (ha : a.Fits .i32) (hb : b.Fits .i32) :
    (∃ m k, a = .int m ∧ b = .int k) ∨ ((∀ m k, ¬(a = .int m ∧ b = .int k)) ∧
      (evalBinary op a b = some (.poison .i32) ∨ evalBinary op a b = none)) := by
  rcases Constant.fits_i32 ha with ⟨m, rfl⟩ | rfl
  · rcases Constant.fits_i32 hb with ⟨k, rfl⟩ | rfl
    · exact .inl ⟨m, k, rfl, rfl⟩
    · refine .inr ⟨by simp, ?_⟩
      cases op with
      | div | remDiv => exact .inr rfl
      | _ => exact .inl rfl
  · refine .inr ⟨by simp, ?_⟩
    rcases Constant.fits_i32 hb with ⟨k, rfl⟩ | rfl
    · cases op <;> exact .inl rfl
    · cases op with
      | div | remDiv => exact .inr rfl
      | _ => exact .inl rfl

/-- They turn poison into poison. -/
theorem evalUnary_poison (op : UnaryOperators) : evalUnary op (.poison .i32) = some (.poison .i32) := by
  cases op <;> rfl

/-- The result is an integer exactly if the operands are and the interpretation is defined on them. -/
theorem evalBinary_eq_int {op : BinaryOperators} {a b : Constant} (ha : a.Fits .i32) (hb : b.Fits .i32)
    (n : Number) : evalBinary op a b = some (.int n) ↔
      ∃ m k, a = .int m ∧ b = .int k ∧ generatedBinary op m k = some n := by
  rcases evalBinary_cases op ha hb with ⟨m, k, rfl, rfl⟩ | ⟨hne, h⟩
  · rw [evalBinary_int]
    simp
  · constructor
    · intro hn
      rcases h with h | h <;> rw [h] at hn <;> cases hn
    · rintro ⟨m, k, hm, hk, _⟩
      exact absurd ⟨hm, hk⟩ (hne m k)

/-- **An integer comes out only of an integer**, and by the interpretation. -/
theorem evalUnary_eq_int {op : UnaryOperators} {a : Constant} (ha : a.Fits .i32) (n : Number) :
    evalUnary op a = some (.int n) ↔ ∃ m, a = .int m ∧ generatedUnary op m = some n := by
  rcases Constant.fits_i32 ha with ⟨m, rfl⟩ | rfl
  · rw [evalUnary_int]
    simp
  · rw [evalUnary_poison]
    simp

/-- Whatever comes out is an integer or poison. -/
theorem evalBinary_fits (op : BinaryOperators) {a b w : Constant} (ha : a.Fits .i32) (hb : b.Fits .i32)
    (h : evalBinary op a b = some w) : w.Fits .i32 := by
  rcases evalBinary_cases op ha hb with ⟨m, k, rfl, rfl⟩ | ⟨_, hp | hp⟩
  · rw [evalBinary_int] at h
    obtain ⟨n, _, rfl⟩ := Option.map_eq_some_iff.mp h
    exact ⟨rfl, rfl⟩
  · rw [hp] at h
    cases h
    exact ⟨rfl, rfl⟩
  · rw [hp] at h
    cases h

theorem evalUnary_fits (op : UnaryOperators) {a w : Constant} (ha : a.Fits .i32) (h : evalUnary op a = some w) :
    w.Fits .i32 := by
  rcases Constant.fits_i32 ha with ⟨m, rfl⟩ | rfl
  · rw [evalUnary_int] at h
    obtain ⟨n, _, rfl⟩ := Option.map_eq_some_iff.mp h
    exact ⟨rfl, rfl⟩
  · rw [evalUnary_poison] at h
    cases h
    exact ⟨rfl, rfl⟩

/-! ## Sequences of calls -/

variable {M : Llvm} {gf g g' g1 : CodeGenerator} {E : Env} {fuel : Nat} {c c' c1 : Config} {s : SimState}
  {l r : Value} {a b u w : Constant}

/-- The calls of two steps, one after the other. -/
theorem emit_bind {α β : Type} (m : Emit α) (f : α → Emit β) (g : CodeGenerator) :
    emit M (m >>= f) g = emit M (f (emit M m g).1) (emit M m g).2 := by
  induction m generalizing g with
  | pure x => rfl
  | create opcode args next ih =>
      have hbind : Emit.create opcode args next >>= f = .create opcode args (fun v => next v >>= f) := rfl
      rw [hbind, CodeGenerator.emit, CodeGenerator.emit]
      cases CodeGenerator.foldValue M opcode args with
      | some k => exact ih _ g
      | none => exact ih _ _

/-- A later point, with what had been computed before. -/
structure Later (gf : CodeGenerator) (E : Env) (g : CodeGenerator) (c : Config) (g1 : CodeGenerator)
    (c1 : Config) : Prop where
  ready : g1.Ready
  ids : g.nextId ≤ g1.nextId
  computes : Computes gf E g.nextId g1 c c1

/-- A value that is known stays known. -/
theorem Known.later {v : Value} (h : Known g c v w) (hl : Later gf E g c g1 c1) : Known g1 c1 v w :=
  ⟨(hl.computes.value h.below).trans h.value, h.ty, h.below.mono hl.ids⟩

/-- A later point of a later point. -/
theorem Later.trans {g2 : CodeGenerator} {c2 : Config} (h1 : Later gf E g c g1 c1)
    (h2 : Later gf E g1 c1 g2 c2) : Later gf E g c g2 c2 :=
  ⟨h2.ready, Nat.le_trans h1.ids h2.ids, h1.computes.trans h2.computes h1.ids⟩

/-- The calls come to a value. -/
def Runs (M : Llvm) (gf : CodeGenerator) (E : Env) (m : Emit Value) (g : CodeGenerator) (c : Config)
    (w : Constant) : Prop :=
  Extends (emit M m g).2 gf → Finds gf E g (emit M m g).2 c (emit M m g).1 w

/-- **Sequencing.** -/
theorem Runs.bind {m : Emit Value} {f : Value → Emit Value} (hr : g.Ready) (h1 : Runs M gf E m g c u)
    (h2 : ∀ g1 c1 v, Later gf E g c g1 c1 → Known g1 c1 v u → Runs M gf E (f v) g1 c1 w) :
    Runs M gf E (m >>= f) g c w := by
  intro hext
  rw [emit_bind] at hext ⊢
  have hg1 := CodeGenerator.Grown.emit (M := M) m hr
  have hg2 := CodeGenerator.Grown.emit (M := M) (f (emit M m g).1) hg1.ready
  obtain ⟨c1, hc1, hk1⟩ := h1 (hg2.frame.extends.trans hext)
  obtain ⟨c2, hc2, hk2⟩ := h2 _ c1 _ ⟨hg1.ready, hg1.frame.ids, hc1⟩ hk1 hext
  exact ⟨c2, hc1.trans hc2 hg1.frame.ids, hk2⟩

/-- Without calls there is nothing to run. -/
theorem Runs.pure {v : Value} (hat : At gf g c) (h : Known g c v w) : Runs M gf E (pure v) g c w :=
  fun _ => ⟨c, .refl hat, h⟩

/-- **One call.** It is folded, or its instruction computes the value. -/
theorem Runs.call {opcode : Opcode} {args : List Value} {vs : List Constant} (hs : M.Sound) (hr : g.Ready)
    (hat : At gf g c) (hargs : args.mapM c.value = some vs) (hscalar : ∀ d ∈ vs, d.isScalar)
    (hw : opcode.eval E.ops vs = some w) (hty : opcode.resultTy args = w.ty) :
    Runs M gf E (.call opcode args) g c w := fun hext => call_finds hs hat hr hext hargs hscalar hw hty

theorem scalar_two (ha : a.isScalar) (hb : b.isScalar) : ∀ d ∈ [a, b], d.isScalar := by
  simp [ha, hb]

/-- A bit is widened. -/
theorem zext_runs {v : Value} (hs : M.Sound) (hr : g.Ready) (hat : At gf g c) (hv : Known g c v u)
    (hu : u.Fits .i1) (hw : Opcode.evalLlvm .zext [u] = some w) (hty : w.ty = .i32) :
    Runs M gf E (createZExt v) g c w := by
  have hne : v.ty ≠ .i32 := by
    rw [hv.ty, hu.2]
    decide
  rw [createZExt, if_neg hne]
  exact Runs.call hs hr hat hv.mapM_one (by simp [hu.1]) hw hty.symm

/-- A comparison and its widening. -/
theorem compare_runs {p : Predicate} (hs : M.Sound) (hr : g.Ready) (hat : At gf g c) (hl : Known g c l a)
    (hr' : Known g c r b) (ha : a.isScalar) (hb : b.isScalar) (hu : Opcode.evalLlvm (.icmp p) [a, b] = some u)
    (huf : u.Fits .i1) (hw : Opcode.evalLlvm .zext [u] = some w) (hty : w.ty = .i32) :
    Runs M gf E (lowerCompare p l r) g c w := by
  refine Runs.bind hr (Runs.call hs hr hat (hl.mapM_pair hr') (scalar_two ha hb) hu huf.2.symm) ?_
  intro g1 c1 v hlater hv
  exact zext_runs hs hlater.ready hlater.computes.arrives hv huf hw hty

/-- The three comparisons of a connective. -/
theorem logical_runs {opcode : Opcode} {x y : Constant} (hs : M.Sound) (hr : g.Ready) (hat : At gf g c)
    (hl : Known g c l a) (hr' : Known g c r b) (ha : a.Fits .i32) (hb : b.Fits .i32)
    (hx : Opcode.evalLlvm (.icmp .ne) [a, .int 0] = some x) (hy : Opcode.evalLlvm (.icmp .ne) [b, .int 0] = some y)
    (hxf : x.Fits .i1) (hyf : y.Fits .i1) (hu : opcode.eval E.ops [x, y] = some u)
    (hop : ∀ v vs, opcode.resultTy (v :: vs) = v.ty) (huf : u.Fits .i1)
    (hw : Opcode.evalLlvm .zext [u] = some w) (hty : w.ty = .i32) :
    Runs M gf E (lowerLogical opcode l r) g c w := by
  have hzero (v : Value) (hv : v.ty = .i32) : zeroOf v.ty = .const (.int 0) := by
    rw [hv]
    rfl
  have hknown (g : CodeGenerator) (c : Config) : Known g c (.const (.int 0)) (.int 0) := ⟨rfl, rfl, trivial⟩
  unfold lowerLogical
  rw [hzero l (hl.ty.trans ha.2), hzero r (hr'.ty.trans hb.2)]
  refine Runs.bind hr (Runs.call hs hr hat (hl.mapM_pair (hknown g c)) (scalar_two ha.1 rfl) hx hxf.2.symm) ?_
  intro g1 c1 v1 h1 hv1
  refine Runs.bind h1.ready (Runs.call hs h1.ready h1.computes.arrives
    ((hr'.later h1).mapM_pair (hknown g1 c1)) (scalar_two hb.1 rfl) hy hyf.2.symm) ?_
  intro g2 c2 v2 h2 hv2
  have hres : opcode.resultTy [v1, v2] = u.ty := by
    rw [hop, huf.2]
    exact hv1.ty.trans hxf.2
  refine Runs.bind h2.ready (Runs.call hs h2.ready h2.computes.arrives
    ((hv1.later h2).mapM_pair hv2) (scalar_two hxf.1 hyf.1) hu hres) ?_
  intro g3 c3 v3 h3 hv3
  exact zext_runs hs h3.ready h3.computes.arrives hv3 huf hw hty

/-- What the calls come to: the value, or nothing that is an integer. -/
def Settles (M : Llvm) (gf : CodeGenerator) (E : Env) (m : Emit Value) (g : CodeGenerator) (c : Config) :
    Option Constant → Prop
  | some w => Runs M gf E m g c w
  | none => Extends (emit M m g).2 gf →
      (∃ opcode vs, step gf E c = .inr (.undefined opcode vs)) ∨
        Finds gf E g (emit M m g).2 c (emit M m g).1 (.poison .i32)

/-- One call on two operands. -/
theorem call_settles {opcode : Opcode} (hs : M.Sound) (hr : g.Ready) (hat : At gf g c) (hl : Known g c l a)
    (hr' : Known g c r b) (ha : a.Fits .i32) (hb : b.Fits .i32)
    (heval : ∀ I, opcode.eval I [a, b] = opcode.evalLlvm [a, b])
    (hop : ∀ v vs, opcode.resultTy (v :: vs) = v.ty)
    (hfits : ∀ w, opcode.evalLlvm [a, b] = some w → w.ty = .i32) :
    Settles M gf E (createBinOp opcode l r) g c (opcode.evalLlvm [a, b]) := by
  have hty : opcode.resultTy [l, r] = .i32 := by
    rw [hop]
    exact hl.ty.trans ha.2
  cases hw : opcode.evalLlvm [a, b] with
  | some w =>
      exact Runs.call hs hr hat (hl.mapM_pair hr') (scalar_two ha.1 hb.1) ((heval E.ops).trans hw)
        (hty.trans (hfits w hw).symm)
  | none =>
      intro hext
      unfold createBinOp Emit.call emit at hext ⊢
      cases hf : CodeGenerator.foldValue M opcode [l, r] with
      | some k =>
          -- the folder may only make poison of it
          obtain ⟨_, hfold, _⟩ := foldValue_some hf (hl.mapM_pair hr')
          rcases hs opcode [a, b] k (scalar_two ha.1 hb.1) hfold with hk | ⟨_, hk⟩
          · rw [hw] at hk
            cases hk
          · have hpoison : k = .poison .i32 := by
              rw [hk]
              exact congrArg Constant.poison ((hop (.const a) [.const b]).trans ha.2)
            subst hpoison
            exact .inr ⟨c, .refl hat, rfl, rfl, trivial⟩
      | none =>
          simp only [hf] at hext
          obtain ⟨_, hstuck⟩ := op_step (E := E) opcode (opcode.resultTy [l, r]) hat hr hext (hl.mapM_pair hr')
          exact .inl ⟨opcode, [a, b], hstuck ((heval E.ops).trans hw)⟩

section Operators

variable (hs : M.Sound) (hr : g.Ready) (hat : At gf g c) (hl : Known g c l a) (ha : a.Fits .i32)

include hs hr hat hl ha

/-- A comparison comes to its value, or is undefined. -/
theorem compare_settles (p : Predicate) (hr' : Known g c r b) (hb : b.Fits .i32) :
    Settles M gf E (lowerCompare p l r) g c (evalCompare p a b) := by
  rcases Constant.fits_i32 ha with ⟨m, rfl⟩ | rfl
  · rcases Constant.fits_i32 hb with ⟨k, rfl⟩ | rfl
    · exact compare_runs (u := .bit (p.eval m k)) hs hr hat hl hr' rfl rfl rfl ⟨rfl, rfl⟩ rfl rfl
    · exact compare_runs (u := .poison .i1) hs hr hat hl hr' rfl rfl rfl ⟨rfl, rfl⟩ rfl rfl
  · rcases Constant.fits_i32 hb with ⟨k, rfl⟩ | rfl
    · exact compare_runs (u := .poison .i1) hs hr hat hl hr' rfl rfl rfl ⟨rfl, rfl⟩ rfl rfl
    · exact compare_runs (u := .poison .i1) hs hr hat hl hr' rfl rfl rfl ⟨rfl, rfl⟩ rfl rfl

/-- So does a connective. -/
theorem logical_settles {opcode : Opcode} (hop : opcode = .or ∨ opcode = .and) (hr' : Known g c r b)
    (hb : b.Fits .i32) : Settles M gf E (lowerLogical opcode l r) g c (evalLogical opcode a b) := by
  rcases hop with rfl | rfl <;> rcases Constant.fits_i32 ha with ⟨m, rfl⟩ | rfl <;>
    rcases Constant.fits_i32 hb with ⟨k, rfl⟩ | rfl <;>
    exact logical_runs hs hr hat hl hr' ha hb rfl rfl ⟨rfl, rfl⟩ ⟨rfl, rfl⟩ rfl (fun _ _ => rfl) ⟨rfl, rfl⟩ rfl rfl

/-- The comparison is made and its result not used. -/
theorem greaterEq_settles (hr' : Known g c r b) (hb : b.Fits .i32) :
    Settles M gf E (lowerBinary .greaterEq l r) g c (evalBinary .greaterEq a b) := by
  have htotal : (∃ u, evalCompare .sge a b = some u) ∧ ∃ w, Opcode.evalLlvm .add [a, b] = some w := by
    rcases Constant.fits_i32 ha with ⟨m, rfl⟩ | rfl <;> rcases Constant.fits_i32 hb with ⟨k, rfl⟩ | rfl <;>
      exact ⟨⟨_, rfl⟩, _, rfl⟩
  obtain ⟨⟨u, hu⟩, w, hw⟩ := htotal
  have hcompare := compare_settles (M := M) (E := E) hs hr hat hl ha .sge hr' hb
  rw [hu] at hcompare
  show Settles M gf E (lowerCompare .sge l r >>= fun _ => createBinOp .add l r) g c (Opcode.evalLlvm .add [a, b])
  rw [hw]
  refine Runs.bind hr hcompare ?_
  intro g1 c1 v h1 _
  have hadd : Settles M gf E (createBinOp .add l r) g1 c1 (Opcode.evalLlvm .add [a, b]) :=
    call_settles hs h1.ready h1.computes.arrives (hl.later h1) (hr'.later h1) ha hb (fun _ => rfl)
      (fun _ _ => rfl) (fun w h => (evalBinary_fits .add ha hb h).2)
  rw [hw] at hadd
  exact hadd

/-- **Binary operators.** -/
theorem binary_settles (op : BinaryOperators) (hr' : Known g c r b) (hb : b.Fits .i32) :
    Settles M gf E (lowerBinary op l r) g c (evalBinary op a b) := by
  have hfits (w : Constant) (h : evalBinary op a b = some w) : w.ty = .i32 := (evalBinary_fits op ha hb h).2
  cases op with
  | eq | neq | less | lessEq | greater => exact compare_settles hs hr hat hl ha _ hr' hb
  | logOr => exact logical_settles hs hr hat hl ha (.inl rfl) hr' hb
  | logAnd => exact logical_settles hs hr hat hl ha (.inr rfl) hr' hb
  | add | sub | mul | div | remDiv | and | xor | or =>
      exact call_settles hs hr hat hl hr' ha hb (fun _ => rfl) (fun _ _ => rfl) hfits
  | greaterEq => exact greaterEq_settles hs hr hat hl ha hr' hb

/-- **Unary operators.** -/
theorem unary_settles (op : UnaryOperators) : Settles M gf E (lowerUnary op l) g c (evalUnary op a) := by
  have hty : l.ty = .i32 := hl.ty.trans ha.2
  have hzero : zeroOf l.ty = .const (.int 0) := by
    rw [hty]
    rfl
  have hknown : Known g c (.const (.int 0)) (.int 0) := ⟨rfl, rfl, trivial⟩
  cases op with
  | neg =>
      have hsub : Settles M gf E (createBinOp .sub (.const (.int 0)) l) g c (evalUnary .neg a) :=
        call_settles hs hr hat hknown hl ⟨rfl, rfl⟩ ha (fun _ => rfl) (fun _ _ => rfl)
          (fun w h => (evalUnary_fits .neg ha h).2)
      rw [lowerUnary, createNeg, hzero]
      exact hsub
  | plus => exact Runs.pure hat hl
  | not =>
      rw [lowerUnary, hzero]
      exact compare_settles hs hr hat hl ha .eq hknown ⟨rfl, rfl⟩

end Operators

/-! ## Runs of the evaluator that are done -/

section Done

variable {F : Env} {s' : SimState} {n : Number} {x : Name} {e e1 e2 : Expression}

/-- The evaluator's value of a variable is in its table. -/
theorem visitVariable_done : visitVariable x s = .done n s' ↔ s.nametable x = some n ∧ s = s' := by
  rw [visitVariable, Prog.gets_bind]
  cases s.nametable x with
  | none => simp [Prog.raise_run]
  | some m => simp [Prog.pure_run]

/-- An operator comes through exactly where it is defined. -/
theorem applyBinary_done {I : Interpretation} {op : BinaryOperators} {m k : Number} :
    (applyBinary I op m k : Prog Fault SimState Number) s = .done n s' ↔ I.binary op m k = some n ∧ s = s' := by
  unfold applyBinary
  cases I.binary op m k with
  | none => simp [Prog.raise_run]
  | some v => simp [Prog.pure_run]

theorem applyUnary_done {I : Interpretation} {op : UnaryOperators} {m : Number} :
    (applyUnary I op m : Prog Fault SimState Number) s = .done n s' ↔ I.unary op m = some n ∧ s = s' := by
  unfold applyUnary
  cases I.unary op m with
  | none => simp [Prog.raise_run]
  | some v => simp [Prog.pure_run]

/-- An assignment evaluates, then stores. -/
theorem assignment_done : ExpressionEvaluator.visit F fuel (.assignmentExpr x e) s = .done n s' ↔
    ∃ s1, ExpressionEvaluator.visit F fuel e s = .done n s1 ∧ s1.store x n = s' := by
  rw [ExpressionEvaluator.visit, Prog.bind_eq_done]
  constructor
  · rintro ⟨m, s1, h, hm⟩
    cases hm
    exact ⟨s1, h, rfl⟩
  · rintro ⟨s1, h, rfl⟩
    exact ⟨n, s1, h, rfl⟩

/-- An operator evaluates from left to right. -/
theorem binary_done {op : BinaryOperators} :
    ExpressionEvaluator.visit F fuel (.binaryOperator op e1 e2) s = .done n s' ↔
      ∃ m s1 k, ExpressionEvaluator.visit F fuel e1 s = .done m s1 ∧
        ExpressionEvaluator.visit F fuel e2 s1 = .done k s' ∧ F.ops.binary op m k = some n := by
  rw [ExpressionEvaluator.visit, Prog.bind_eq_done]
  constructor
  · rintro ⟨m, s1, h1, h⟩
    obtain ⟨k, s2, h2, h⟩ := Prog.bind_eq_done.mp h
    obtain ⟨hn, rfl⟩ := applyBinary_done.mp h
    exact ⟨m, s1, k, h1, h2, hn⟩
  · rintro ⟨m, s1, k, h1, h2, hn⟩
    exact ⟨m, s1, h1, Prog.bind_eq_done.mpr ⟨k, s', h2, applyBinary_done.mpr ⟨hn, rfl⟩⟩⟩

/-- Or its one operand. -/
theorem unary_done {op : UnaryOperators} :
    ExpressionEvaluator.visit F fuel (.unaryOperator op e) s = .done n s' ↔
      ∃ m, ExpressionEvaluator.visit F fuel e s = .done m s' ∧ F.ops.unary op m = some n := by
  rw [ExpressionEvaluator.visit, Prog.bind_eq_done]
  constructor
  · rintro ⟨m, s1, h1, h⟩
    obtain ⟨hn, rfl⟩ := applyUnary_done.mp h
    exact ⟨m, h1, hn⟩
  · rintro ⟨m, h1, hn⟩
    exact ⟨m, s', h1, applyUnary_done.mpr ⟨hn, rfl⟩⟩

end Done

/-! ## The generator does not throw -/

/-- Every variable with a value has a slot. -/
def Binds (g : CodeGenerator) (t : SimState) : Prop := ∀ x, (t.nametable x).isSome → (g.lookup x).isSome

/-- A name in scope stays in scope. -/
theorem Binds.frame {t : SimState} (h : Binds g t) (hf : CodeGenerator.Frame g g') : Binds g' t := by
  intro x hx
  obtain ⟨a, ha⟩ := Option.isSome_iff_exists.mp (h x hx)
  rw [hf.lookup x a ha]
  rfl

/-- Where the evaluator comes through, so does the generator. -/
def Generates (M : Llvm) (L : Lowering) (F : Env) (fuel : Nat) (e : Expression) : Prop :=
  ∀ g t v t', g.Ready → Binds g t → ExpressionEvaluator.visit F fuel e t = .done v t' →
    ∃ g', visit M L e g = .ok g' ∧ Binds g' t'

section Generation

variable {L : Lowering} {F : Env} {e e1 e2 : Expression}

/-- A variable with a value has a slot, so it does not throw. -/
theorem var_generates (x : Name) : Generates M L F fuel (.var x) := by
  intro g t v t' hr hb h
  rw [ExpressionEvaluator.visit] at h
  obtain ⟨hx, rfl⟩ := visitVariable_done.mp h
  obtain ⟨a, ha⟩ := Option.isSome_iff_exists.mp (hb x (by rw [hx]; rfl))
  refine ⟨g.createLoad a, ?_, hb⟩
  rw [visit, CodeGenerator.visitVariable, ha]

/-- After an assignment the name has a slot and a value. -/
theorem assignment_generates (x : Name) (ih : Generates M L F fuel e) :
    Generates M L F fuel (.assignmentExpr x e) := by
  intro g t v t' hr hb h
  obtain ⟨t1, h1, rfl⟩ := assignment_done.mp h
  obtain ⟨g1, hg1, hb1⟩ := ih g t v t1 hr hb h1
  have hr1 := ((CodeGenerator.visit_grows e hr).of_ok hg1).ready
  obtain ⟨a, g2, hslot, hg2, hl⟩ := CodeGenerator.Grown.slotFor x g1.lastValue.ty hr1
  refine ⟨g2.createStore g1.lastValue a, bind_ok_iff.mpr ⟨g1, hg1, ?_⟩, fun y hy => ?_⟩
  · rw [CodeGenerator.assign, hslot]
    rfl
  · by_cases hyx : y = x
    · subst hyx
      show (g2.lookup y).isSome = true
      rw [hl]
      rfl
    · have hy' : (t1.nametable y).isSome := by simpa [SimState.store, hyx] using hy
      exact hb1.frame hg2.frame y hy'

theorem binary_generates (op : BinaryOperators) (ih1 : Generates M L F fuel e1) (ih2 : Generates M L F fuel e2) :
    Generates M L F fuel (.binaryOperator op e1 e2) := by
  intro g t v t' hr hb h
  obtain ⟨m, t1, k, h1, h2, _⟩ := binary_done.mp h
  obtain ⟨g1, hg1, hb1⟩ := ih1 g t m t1 hr hb h1
  have hr1 := ((CodeGenerator.visit_grows e1 hr).of_ok hg1).ready
  obtain ⟨g2, hg2, hb2⟩ := ih2 g1 t1 k t' hr1 hb1 h2
  have hr2 := ((CodeGenerator.visit_grows e2 hr1).of_ok hg2).ready
  exact ⟨_, bind_ok_iff.mpr ⟨g1, hg1, bind_ok_iff.mpr ⟨g2, hg2, rfl⟩⟩,
    hb2.frame (CodeGenerator.Grown.emitLast _ hr2).frame⟩

theorem unary_generates (op : UnaryOperators) (ih : Generates M L F fuel e) :
    Generates M L F fuel (.unaryOperator op e) := by
  intro g t v t' hr hb h
  obtain ⟨m, h1, _⟩ := unary_done.mp h
  obtain ⟨g1, hg1, hb1⟩ := ih g t m t' hr hb h1
  have hr1 := ((CodeGenerator.visit_grows e hr).of_ok hg1).ready
  exact ⟨_, bind_ok_iff.mpr ⟨g1, hg1, rfl⟩, hb1.frame (CodeGenerator.Grown.emitLast _ hr1).frame⟩

/-- **What the evaluator comes through the generator comes through.** -/
theorem plain_generates : ∀ e : Expression, e.isPlain → Generates M L F fuel e
  | .number n, _ => by
      intro g t v t' hr hb h
      cases h
      exact ⟨g.visitNumber n, rfl, hb⟩
  | .var x, _ => var_generates x
  | .assignmentExpr x e, hp => assignment_generates x (plain_generates e hp)
  | .binaryOperator op a b, hp =>
      binary_generates op (plain_generates a (Bool.and_eq_true_iff.mp hp).1)
        (plain_generates b (Bool.and_eq_true_iff.mp hp).2)
  | .unaryOperator op e, hp => unary_generates op (plain_generates e hp)

/-- The state the generator comes to has the slots of the state the evaluator comes to. -/
theorem binds_after (hp : e.isPlain) {t t' : SimState} {v : Number} (hr : g.Ready) (hb : Binds g t)
    (h : ExpressionEvaluator.visit F fuel e t = .done v t') (hv : visit M L e g = .ok g') : Binds g' t' := by
  obtain ⟨g1, hg1, hb1⟩ := plain_generates (M := M) (L := L) e hp g t v t' hr hb h
  rw [hv] at hg1
  cases hg1
  exact hb1

end Generation

/-! ## Expressions -/

/-- The machine comes to an operator that is undefined. -/
def Stuck (gf : CodeGenerator) (E : Env) (c : Config) : Prop :=
  ∃ c' opcode vs, Star (step gf E) c c' ∧ step gf E c' = .inr (.undefined opcode vs)

/-- Stuck later on is stuck. -/
theorem Stuck.of_star (hs : Star (step gf E) c c1) (h : Stuck gf E c1) : Stuck gf E c := by
  obtain ⟨c', opcode, vs, hs', hstep⟩ := h
  exact ⟨c', opcode, vs, hs.trans hs', hstep⟩

/-- The code comes to an integer exactly if the evaluator `run` does, and then to the same memory; else it is
    stuck or comes to poison. -/
def Decides (gf : CodeGenerator) (E : Env) (g g' : CodeGenerator) (c : Config)
    (run : Outcome Fault SimState Number) : Prop :=
  (∃ c' w s', Star (step gf E) c c' ∧ Evaluated gf g g' c w s' c' ∧ w.Fits .i32 ∧
      ∀ n t, run = .done n t ↔ w = .int n ∧ s' = t) ∨
    (Stuck gf E c ∧ ∀ n t, run ≠ .done n t)

/-- The code of the expression decides what the evaluator does under `F`, wherever some run of the evaluator
    comes through. -/
def DecidedBy (M : Llvm) (gf : CodeGenerator) (E E0 F : Env) (fuel : Nat) (e : Expression) : Prop :=
  ∀ g g' s t v t' c, visit M .source e g = .ok g' → g.Ready → Binds g t →
    ExpressionEvaluator.visit E0 fuel e t = .done v t' → Extends g' gf → At gf g c → Corresponds gf s c →
    Declares g s → Decides gf E g g' c (ExpressionEvaluator.visit F fuel e s)

section Decisions

variable {E0 F : Env} {e e1 e2 : Expression} (hs : M.Sound) (hgf : gf.Ready)
  (hops : F.ops = .generated)

theorem number_decided (n : Number) : DecidedBy M gf E E0 F fuel (.number n) := by
  intro g g' s t v t' c hv hr hb hrun hext hat hmem hn
  cases hv
  refine .inl ⟨c, .int n, s, .refl c, ⟨hat, hmem, ⟨rfl, rfl, trivial⟩, hn.same rfl rfl, rfl, fun _ _ => rfl⟩,
    ⟨rfl, rfl⟩, fun m u => ?_⟩
  rw [ExpressionEvaluator.visit, Prog.pure_run]
  simp

/-- A variable is loaded. -/
theorem var_decided (x : Name) : DecidedBy M gf E E0 F fuel (.var x) := by
  intro g g' s t v t' c hv hr hb hrun hext hat hmem hn
  rw [ExpressionEvaluator.visit] at hrun
  obtain ⟨hx, _⟩ := visitVariable_done.mp hrun
  obtain ⟨a, ha⟩ := Option.isSome_iff_exists.mp (hb x (by rw [hx]; rfl))
  rw [visit, CodeGenerator.visitVariable, ha] at hv
  cases hv
  obtain ⟨c', hs', he⟩ := load_steps (E := E) ha hr hext hat hmem hn
  refine .inl ⟨c', _, s, hs', he, ?_, fun n u => ?_⟩
  · cases s.nametable x <;> exact ⟨rfl, rfl⟩
  · rw [ExpressionEvaluator.visit, visitVariable_done]
    cases s.nametable x <;> simp [cell]

include hgf in
/-- An assignment stores what its operand came to. -/
theorem assignment_decided (x : Name) (ih : DecidedBy M gf E E0 F fuel e) :
    DecidedBy M gf E E0 F fuel (.assignmentExpr x e) := by
  intro g g' s t v t' c hv hr hb hrun hext hat hmem hn
  obtain ⟨g1, h1, h2⟩ := bind_ok_iff.mp hv
  obtain ⟨t1, hrun1, _⟩ := assignment_done.mp hrun
  have hg1 := (CodeGenerator.visit_grows e hr).of_ok h1
  have hg2 := (CodeGenerator.assign_grows x hg1.ready).of_ok h2
  rcases ih g g1 s t v t1 c h1 hr hb hrun1 (hg2.frame.extends.trans hext) hat hmem hn with
    ⟨c1, w, s1, hs1, he, hw, hiff⟩ | ⟨hstuck, hnot⟩
  · obtain ⟨c', hs', he'⟩ := assign_steps (E := E) hgf x h2 hg1.ready hext he hw
    refine .inl ⟨c', w, _, hs1.trans hs', he', hw, fun n u => ?_⟩
    rw [assignment_done]
    constructor
    · rintro ⟨s2, hdone, rfl⟩
      obtain ⟨rfl, rfl⟩ := (hiff n s2).mp hdone
      exact ⟨rfl, rfl⟩
    · rintro ⟨rfl, rfl⟩
      exact ⟨s1, (hiff n s1).mpr ⟨rfl, rfl⟩, rfl⟩
  · refine .inr ⟨hstuck, fun n u hdone => ?_⟩
    obtain ⟨s2, hdone, _⟩ := assignment_done.mp hdone
    exact hnot n s2 hdone

/-- The result of an operator, from what its calls settle. -/
theorem settled_decides {m : Emit Value} {o : Option Constant} {g1 : CodeGenerator} {s1 : SimState}
    {run : Outcome Fault SimState Number} (hg1 : g.nextId ≤ g1.nextId) (hext : Extends (g1.emitLast M m) gf)
    (hstar : Star (step gf E) c c1) (he : Evaluated gf g g1 c u s1 c1) (h : Settles M gf E m g1 c1 o)
    (hfits : ∀ w, o = some w → w.Fits .i32)
    (hiff : ∀ n t, run = .done n t ↔ o = some (.int n) ∧ s1 = t) :
    Decides gf E g (g1.emitLast M m) c run := by
  have hext1 : Extends (emit M m g1).2 gf := hext.of_setLast
  have hfound (w : Constant) (hfinds : Finds gf E g1 (emit M m g1).2 c1 (emit M m g1).1 w) :
      ∃ c', Star (step gf E) c c' ∧ Evaluated gf g (g1.emitLast M m) c w s1 c' := by
    obtain ⟨c', hs', he'⟩ := hfinds.setLast.evaluated hg1 he.memory he.names.emitLast he.args he.regs rfl
    exact ⟨c', hstar.trans hs', he'⟩
  cases o with
  | some w =>
      obtain ⟨c', hs', he'⟩ := hfound w (h hext1)
      refine .inl ⟨c', w, s1, hs', he', hfits w rfl, fun n t => ?_⟩
      rw [hiff, Option.some.injEq]
  | none =>
      have hnot (n : Number) (t : SimState) : run ≠ .done n t := by
        intro hdone
        obtain ⟨ho, _⟩ := (hiff n t).mp hdone
        cases ho
      rcases h hext1 with ⟨opcode, vs, hstep⟩ | hfinds
      · exact .inr ⟨⟨c1, opcode, vs, hstar, hstep⟩, hnot⟩
      · obtain ⟨c', hs', he'⟩ := hfound _ hfinds
        refine .inl ⟨c', _, s1, hs', he', ⟨rfl, rfl⟩, fun n t => ?_⟩
        exact ⟨fun hdone => absurd hdone (hnot n t), fun hp => by cases hp.1⟩

include hs hops in
/-- An operator is decided where its operand is. -/
theorem unary_decided (op : UnaryOperators) (ih : DecidedBy M gf E E0 F fuel e) :
    DecidedBy M gf E E0 F fuel (.unaryOperator op e) := by
  intro g g' s t v t' c hv hr hb hrun hext hat hmem hn
  obtain ⟨g1, h1, hv⟩ := bind_ok_iff.mp hv
  cases hv
  obtain ⟨m0, hrun1, _⟩ := unary_done.mp hrun
  have hg1 := (CodeGenerator.visit_grows e hr).of_ok h1
  have hextg1 := (CodeGenerator.Grown.emitLast (M := M) (lowerUnary op g1.lastValue) hg1.ready).frame.extends.trans
    hext
  rcases ih g g1 s t m0 t' c h1 hr hb hrun1 hextg1 hat hmem hn with
    ⟨c1, w, s1, hs1, he, hw, hiff⟩ | ⟨hstuck, hnot⟩
  · refine settled_decides hg1.frame.ids hext hs1 he
      (unary_settles hs hg1.ready he.arrives he.result hw op) (fun _ => evalUnary_fits op hw) (fun n u => ?_)
    rw [unary_done, evalUnary_eq_int hw, hops]
    constructor
    · rintro ⟨m, hdone, hn⟩
      obtain ⟨rfl, rfl⟩ := (hiff m u).mp hdone
      exact ⟨⟨m, rfl, hn⟩, rfl⟩
    · rintro ⟨⟨m, hm, hn⟩, rfl⟩
      exact ⟨m, (hiff m s1).mpr ⟨hm, rfl⟩, hn⟩
  · refine .inr ⟨hstuck, fun n u hdone => ?_⟩
    obtain ⟨m, hdone, _⟩ := unary_done.mp hdone
    exact hnot m u hdone

include hs hops in
/-- Two operands are decided from left to right: the first value is kept while the second is computed. -/
theorem binary_decided (op : BinaryOperators) (ih1 : DecidedBy M gf E E0 F fuel e1)
    (ih2 : DecidedBy M gf E E0 F fuel e2) (hp1 : e1.isPlain) :
    DecidedBy M gf E E0 F fuel (.binaryOperator op e1 e2) := by
  intro g g' s t v t' c hv hr hb hrun hext hat hmem hn
  obtain ⟨g1, h1, hv⟩ := bind_ok_iff.mp hv
  obtain ⟨g2, h2, hv⟩ := bind_ok_iff.mp hv
  cases hv
  obtain ⟨m0, t1, k0, hrun1, hrun2, _⟩ := binary_done.mp hrun
  have hg1 := (CodeGenerator.visit_grows e1 hr).of_ok h1
  have hg2 := (CodeGenerator.visit_grows e2 hg1.ready).of_ok h2
  have hextg2 := (CodeGenerator.Grown.emitLast (M := M) (lowerBinary op g1.lastValue g2.lastValue)
    hg2.ready).frame.extends.trans hext
  have hb1 := binds_after hp1 hr hb hrun1 h1
  -- either operand may be where the code gets stuck; else the operator itself decides
  rcases ih1 g g1 s t m0 t1 c h1 hr hb hrun1 (hg2.frame.extends.trans hextg2) hat hmem hn with
    ⟨c1, w1, s1, hs1, he1, hw1, hiff1⟩ | ⟨hstuck, hnot⟩
  · rcases ih2 g1 g2 s1 t1 k0 t' c1 h2 hg1.ready hb1 hrun2 hextg2 he1.arrives he1.memory he1.names with
      ⟨c2, w2, s2, hs2, he2, hw2, hiff2⟩ | ⟨hstuck, hnot⟩
    · have hleft := he1.result.mono he2 hg2.frame.ids
      have he : Evaluated gf g g2 c w2 s2 c2 :=
        { he2 with
          args := he2.args.trans he1.args
          regs := fun id hlt =>
            (he2.regs id (Nat.lt_of_lt_of_le hlt hg1.frame.ids)).trans (he1.regs id hlt) }
      refine settled_decides (Nat.le_trans hg1.frame.ids hg2.frame.ids) hext (hs1.trans hs2) he
        (binary_settles hs hg2.ready he2.arrives hleft hw1 op he2.result hw2)
        (fun _ => evalBinary_fits op hw1 hw2) (fun n u => ?_)
      rw [binary_done, evalBinary_eq_int hw1 hw2, hops]
      constructor
      · rintro ⟨m, s1', k, hd1, hd2, hn⟩
        obtain ⟨rfl, rfl⟩ := (hiff1 m s1').mp hd1
        obtain ⟨rfl, rfl⟩ := (hiff2 k u).mp hd2
        exact ⟨⟨m, k, rfl, rfl, hn⟩, rfl⟩
      · rintro ⟨⟨m, k, hm, hk, hn⟩, rfl⟩
        exact ⟨m, s1, k, (hiff1 m s1).mpr ⟨hm, rfl⟩, (hiff2 k s2).mpr ⟨hk, rfl⟩, hn⟩
    · refine .inr ⟨hstuck.of_star hs1, fun n u hdone => ?_⟩
      obtain ⟨m, s1', k, hd1, hd2, _⟩ := binary_done.mp hdone
      obtain ⟨_, rfl⟩ := (hiff1 m s1').mp hd1
      exact hnot k u hd2
  · refine .inr ⟨hstuck, fun n u hdone => ?_⟩
    obtain ⟨m, s1', _, hd1, _⟩ := binary_done.mp hdone
    exact hnot m s1' hd1

include hs hgf hops in
/-- **Expressions.** The code decides what the evaluator does when operators mean what is generated. -/
theorem plain_decided : ∀ e : Expression, e.isPlain → DecidedBy M gf E E0 F fuel e
  | .number n, _ => number_decided n
  | .var x, _ => var_decided x
  | .assignmentExpr x e, hp => assignment_decided hgf x (plain_decided e hp)
  | .binaryOperator op a b, hp =>
      have hab := Bool.and_eq_true_iff.mp hp
      binary_decided hs hops op (plain_decided a hab.1) (plain_decided b hab.2) hab.1
  | .unaryOperator op e, hp => unary_decided hs hops op (plain_decided e hp)

end Decisions

/-! ## Agreement with the interpreter -/

/-- Run from `c`, the code of `g'` comes to its end with an integer in `last_value_` and the variables in their
    slots. -/
def Computed (g' : CodeGenerator) (E : Env) (c : Config) (v : Number) (vars : Name → Option Number) : Prop :=
  ∃ c', Star (step g' E) c c' ∧ At g' g' c' ∧ c'.value g'.lastValue = some (.int v) ∧ g'.variables c' = vars

/-- At the end of the module no instruction is left. -/
theorem At.end_code (h : At g g c) : c.top.code = [] := by
  rw [h]
  exact List.drop_length

/-- What has been decided at the end of the code is what is computed. -/
theorem Decides.computed_iff {s' : SimState} {v : Number} {run : Outcome Fault SimState Number}
    (h : Decides g' E g g' c run) :
    Computed g' E c v s'.nametable ↔ ∃ t, run = .done v t ∧ t.nametable = s'.nametable := by
  constructor
  · rintro ⟨c', hs', hend, hval, hvars⟩
    have hends : Ends (step g' E) c c' .invalid := ⟨hs', step_nil hend.end_code⟩
    rcases h with ⟨c2, w, s2, hs2, he, _, hiff⟩ | ⟨⟨c2, opcode, vs, hs2, hstep⟩, _⟩
    · obtain ⟨rfl, _⟩ := hends.unique ⟨hs2, step_nil he.arrives.end_code⟩
      have hw : w = .int v := by
        have hvalue := he.result.value
        rw [hval] at hvalue
        injection hvalue with hvalue
        exact hvalue.symm
      exact ⟨s2, (hiff v s2).mpr ⟨hw, rfl⟩, he.memory.variables.symm.trans hvars⟩
    · obtain ⟨_, hinvalid⟩ := hends.unique ⟨hs2, hstep⟩
      cases hinvalid
  · rintro ⟨t, hdone, hvars⟩
    rcases h with ⟨c2, w, s2, hs2, he, _, hiff⟩ | ⟨_, hnot⟩
    · obtain ⟨rfl, rfl⟩ := (hiff v t).mp hdone
      exact ⟨c2, hs2, he.arrives, he.result.value, he.memory.variables.trans hvars⟩
    · exact absurd hdone (hnot v t)

/-! ### Without `>=` -/

/-- No `>=` in a plain expression. -/
def Expression.avoidsGreaterEq : Expression → Bool
  | .assignmentExpr _ value => value.avoidsGreaterEq
  | .binaryOperator op left right => op != .greaterEq && left.avoidsGreaterEq && right.avoidsGreaterEq
  | .unaryOperator _ operand => operand.avoidsGreaterEq
  | _ => true

theorem unlessOverflow_some {o : Bool} {m n : Number} (h : unlessOverflow o m = some n) : m = n := by
  unfold unlessOverflow at h
  split at h
  · cases h
  · cases h
    rfl

/-- Where C++ defines the result, the generated code has it, but for `>=`. -/
theorem generatedBinary_of_cpp {op : BinaryOperators} {m k n : Number} (hop : op ≠ .greaterEq)
    (h : cppBinary op m k = some n) : generatedBinary op m k = some n := by
  cases op with
  | greaterEq => exact absurd rfl hop
  | add | sub | mul => exact congrArg some (unlessOverflow_some h)
  | _ => exact h

/-- Where the program's own operator is defined, the generated one agrees. -/
theorem generatedUnary_of_cpp {op : UnaryOperators} {m n : Number} (h : cppUnary op m = some n) :
    generatedUnary op m = some n := by
  cases op with
  | neg =>
      have hneg : -m = n := unlessOverflow_some h
      rw [generatedUnary, ← hneg]
      simp
  | plus | not => exact h

/-- So do whole expressions, if no `>=` is among them. -/
theorem generated_of_cpp {input : Nat → Number} : ∀ (e : Expression) {s t : SimState} {n : Number}, e.isPlain →
    e.avoidsGreaterEq → ExpressionEvaluator.visit ⟨.cpp, input⟩ fuel e s = .done n t →
    ExpressionEvaluator.visit ⟨.generated, input⟩ fuel e s = .done n t
  | .number m, s, t, n, _, _, h => h
  | .var x, s, t, n, _, _, h => h
  | .assignmentExpr x e, s, t, n, hp, ha, h => by
      obtain ⟨s1, h1, ht⟩ := assignment_done.mp h
      exact assignment_done.mpr ⟨s1, generated_of_cpp e hp ha h1, ht⟩
  | .binaryOperator op a b, s, t, n, hp, ha, h => by
      obtain ⟨hpa, hpb⟩ := Bool.and_eq_true_iff.mp hp
      obtain ⟨hoa, hb⟩ := Bool.and_eq_true_iff.mp ha
      obtain ⟨ho, ha⟩ := Bool.and_eq_true_iff.mp hoa
      obtain ⟨m, s1, k, h1, h2, hn⟩ := binary_done.mp h
      exact binary_done.mpr ⟨m, s1, k, generated_of_cpp a hpa ha h1, generated_of_cpp b hpb hb h2,
        generatedBinary_of_cpp (by simpa using ho) hn⟩
  | .unaryOperator op e, s, t, n, hp, ha, h => by
      obtain ⟨m, h1, hn⟩ := unary_done.mp h
      exact unary_done.mpr ⟨m, generated_of_cpp e hp ha h1, generatedUnary_of_cpp hn⟩

section Agreement

variable {e : Expression} {input : Nat → Number} {s' : SimState} {v : Number}

/-- The generator makes code that decides what the evaluator does under `Interpretation.generated`. -/
theorem code_decides (hs : M.Sound) (hp : e.isPlain) (hr : g.Ready) (hi : ∀ a ∈ g.slots, a.ty = .i32)
    (hb : Binds g s) (hrun : ExpressionEvaluator.visit ⟨.cpp, input⟩ fuel e s = .done v s') :
    ∃ g', visit M .source e g = .ok g' ∧ ∀ E c, At g' g c → Corresponds g' s c →
      Decides g' E g g' c (ExpressionEvaluator.visit ⟨.generated, input⟩ fuel e s) := by
  obtain ⟨g', hv, _⟩ := plain_generates (M := M) (L := .source) e hp g s v s' hr hb hrun
  have hnames : Declares g s := by
    refine ⟨fun x n hx => .inl (hb x (by rw [hx]; rfl)), fun x a hx => ?_⟩
    obtain ⟨l, hl, ha⟩ := Tables.mem_of_lookup hx
    exact hi a (CodeGenerator.mem_slots hl ha)
  have hready := ((CodeGenerator.visit_grows e hr).of_ok hv).ready
  refine ⟨g', hv, fun E c hat hmem => ?_⟩
  exact plain_decided hs hready rfl e hp g g' s s v s' c hv hr hb hrun (.refl g') hat hmem hnames

/-- **Without `>=` the lowering is right.** -/
theorem lowering_agrees (hs : M.Sound) (hp : e.isPlain) (ha : e.avoidsGreaterEq) (hr : g.Ready)
    (hi : ∀ a ∈ g.slots, a.ty = .i32) (hb : Binds g s)
    (hrun : ExpressionEvaluator.visit ⟨.cpp, input⟩ fuel e s = .done v s') :
    ∃ g', visit M .source e g = .ok g' ∧ ∀ E c, At g' g c → Corresponds g' s c →
      Computed g' E c v s'.nametable := by
  obtain ⟨g', hv, h⟩ := code_decides hs hp hr hi hb hrun
  refine ⟨g', hv, fun E c hat hmem => ?_⟩
  exact (h E c hat hmem).computed_iff.mpr ⟨s', generated_of_cpp e hp ha hrun, rfl⟩

/-- **When the lowering of an expression agrees with the interpreter.** Where the evaluator finishes without
    overflow and zero divisors, the generated code comes to the same value and the same variables exactly if
    reading every `>=` as a sum makes no difference. -/
theorem lowering_agrees_iff (hs : M.Sound) (hp : e.isPlain) (hr : g.Ready) (hi : ∀ a ∈ g.slots, a.ty = .i32)
    (hb : Binds g s) (hrun : ExpressionEvaluator.visit ⟨.cpp, input⟩ fuel e s = .done v s') :
    ∃ g', visit M .source e g = .ok g' ∧ ∀ E c, At g' g c → Corresponds g' s c →
      (Computed g' E c v s'.nametable ↔
        ∃ t, ExpressionEvaluator.visit ⟨.generated, input⟩ fuel e s = .done v t ∧
          t.nametable = s'.nametable) := by
  obtain ⟨g', hv, h⟩ := code_decides hs hp hr hi hb hrun
  exact ⟨g', hv, fun E c hat hmem => (h E c hat hmem).computed_iff⟩

/-- `(x = 7) * (1 >= 0) - -x % 4` -/
def mixedOperators : Expression :=
  .binaryOperator .sub
    (.binaryOperator .mul (.assignmentExpr "x" (.number 7)) (.binaryOperator .greaterEq (.number 1) (.number 0)))
    (.binaryOperator .remDiv (.unaryOperator .neg (.var "x")) (.number 4))

/-- The comparison `1 >= 0` comes to 1 also where it is read as a sum. -/
theorem lowering_agrees_iff_mixedOperators :
    ∃ g', visit .standard .source mixedOperators (CodeGenerator.enterMain .standard) = .ok g' ∧
      ∀ E c, At g' (CodeGenerator.enterMain .standard) c → Corresponds g' .init c →
        Computed g' E c 10 (SimState.init.store "x" 7).nametable := by
  have hrun : ExpressionEvaluator.visit ⟨.cpp, fun _ => 0⟩ 0 mixedOperators .init =
      .done 10 (SimState.init.store "x" 7) := by rfl
  obtain ⟨g', hv, hiff⟩ := lowering_agrees_iff Llvm.standard_sound (by decide) CodeGenerator.enterMain_ready
    (by intro a ha; cases ha) (by intro x hx; cases hx) hrun
  exact ⟨g', hv, fun E c hat hmem => (hiff E c hat hmem).mpr ⟨_, by rfl, rfl⟩⟩

/-- `2 >= 1` is 1 for the interpreter, and 3 for the generated code. -/
theorem lowering_agrees_comparison : ¬ ∀ (e : Expression) (g : CodeGenerator) (s s' : SimState) (v : Number),
    e.isPlain → g.Ready → (∀ a ∈ g.slots, a.ty = .i32) → Binds g s →
    ExpressionEvaluator.visit ⟨.cpp, fun _ => 0⟩ 0 e s = .done v s' →
    ∃ g', visit .standard .source e g = .ok g' ∧ ∀ E c, At g' g c → Corresponds g' s c →
      Computed g' E c v s'.nametable := by
  intro h
  obtain ⟨g', hv, h⟩ := h (.binaryOperator .greaterEq (.number 2) (.number 1))
    (CodeGenerator.enterMain .standard) .init .init 1 rfl CodeGenerator.enterMain_ready
    (by intro a ha; cases ha) (by intro x hx; cases hx) rfl
  cases hv
  have hcomputed := h ⟨.cpp, fun _ => 0⟩ ⟨⟨[], [], fun _ => none, fun _ => none⟩, [], [], 0⟩ rfl
    ⟨(by intro x a hx; cases hx), (by intro x v hx; cases hx), rfl, rfl⟩
  obtain ⟨c', _, _, hval, _⟩ := hcomputed
  cases hval

end Agreement

end ParaCL
