import TraceLogic.Proofs.Interpretation
import TraceLogic.Proofs.Location

/-!
# What terms and formulas say about stores

An interpretation gives every variable a value at each moment, and so it gives every moment a store.
The term of an integer expression at a point of time has the value of the expression in the store of
that point (`eval_intTerm_point`), and the formula of a Boolean expression says what the expression
tests in it (`holds_boolFormula_point`). When there are two traces, the store is that of the current
one. Nothing is assumed about the point: whatever its term stands for is passed on to the variables.
`holds_boolFormula` is the case of a term that stands for a moment.
-/

namespace TraceLogic

open Construction Interpreted

variable {τ : SortSymbol → Type}

/-- An equation that has been checked is the plain one. -/
theorem Formula.equal?_eq_ok {s t : Term} {f : Formula} (h : Formula.equal? s t = .ok f) :
    f = .equal s t := by
  unfold equal? at h
  split at h
  · cases h
    rfl
  · cases h

/-- A disequation that has been checked is the plain one. -/
theorem Formula.distinct?_eq_ok {s t : Term} {f : Formula} (h : Formula.distinct? s t = .ok f) :
    f = .distinct s t := by
  unfold distinct? at h
  split at h
  · cases h
    rfl
  · cases h

/-- A predicate that has been checked is the plain one. -/
theorem Formula.predicate?_eq_ok {p : Symbol} {ts : List Term} {f : Formula}
    (h : Formula.predicate? p ts = .ok f) : f = .predicate p ts := by
  unfold predicate? at h
  split at h
  · split at h
    · cases h
      rfl
    · cases h
  · cases h

/-- A literal is printed as its decimal text, since no operator has a number for its name. -/
theorem Interpreted.printedName_literalSymbol (n : Int) :
    (literalSymbol n).printedName = decimal n := by
  have hname : Symbol.operator? (decimal n) = none := by
    have hne (word : String) (hword : numeral? word = none) : decimal n ≠ word := by
      intro heq
      rw [← heq, numeral?_decimal] at hword
      cases hword
    unfold Symbol.operator?
    split <;> first | rfl | exact absurd ‹decimal n = _› (hne _ (by decide))
  simp [Symbol.printedName, literalSymbol, interpreted, hname]

namespace Interpretation

variable (M : Interpretation τ)

/-! ## Interpreted symbols -/

/-- The symbols of arithmetic stand for the operations. -/
@[simp]
theorem apply_arith (op : ArithOp) (a b : Int) :
    M.apply (arithSymbol op) [.int a, .int b] = .int (op.eval a b) := by
  cases op <;> rfl

/-- A numeral without arguments stands for its integer. -/
theorem operation_of_numeral {text : String} {n : Int} (h : numeral? text = some n) :
    M.operation text [] = some (.int n) := by
  have hne (word : String) (hword : numeral? word = none) : text ≠ word := by
    rintro rfl
    rw [h] at hword
    cases hword
  -- The three words that stand for a value without arguments come before the numerals.
  have htrue : text ≠ "true" := hne "true" (by decide)
  have hfalse : text ≠ "false" := hne "false" (by decide)
  have hzero : text ≠ "zero" := hne "zero" (by decide)
  simp [operation, h]

/-- A literal stands for the integer that it is the decimal text of. -/
@[simp]
theorem apply_literal (n : Int) : M.apply (literalSymbol n) [] = .int n :=
  M.apply_of_operation rfl
    (printedName_literalSymbol n ▸ M.operation_of_numeral (numeral?_decimal n))

/-! ## Stores and expressions -/

/-- The arguments of a variable that stand for the time. -/
def timeValues (x : Variable) (n : Nat) : List (Value τ) :=
  if x.isConstant then [] else [.time n]

/-- The store at a moment, where a list of further arguments stands for the trace. -/
def storeAt (tail : List (Value τ)) (n : Nat) : Store where
  scalar x := M.int x.name (timeValues x n ++ tail)
  array a i := M.int a.name (timeValues a n ++ [.int i] ++ tail)

/-- The trace that an assignment gives, if there are two. -/
def traceValues (mode : TraceMode) (ρ : Assignment τ) : List (Value τ) :=
  match mode with
  | .one => []
  | .two => [ρ "tr"]

/-- The store at a point of time, in the trace that an assignment gives. A constant has its value
without the time. -/
def pointStore (mode : TraceMode) (ρ : Assignment τ) (t : Term) : Store where
  scalar x := M.int x.name ((if x.isConstant then [] else [M.eval ρ t]) ++ traceValues mode ρ)
  array a i :=
    M.int a.name ((if a.isConstant then [] else [M.eval ρ t]) ++ [.int i] ++ traceValues mode ρ)

section

variable {M} {mode : TraceMode} {ρ : Assignment τ} {tail : List (Value τ)} {t : Term} {n : Nat}

/-- A variable is read at the point of time, unless it is a constant. -/
theorem evalAll_timeArgs (x : Variable) :
    M.evalAll ρ (TraceMode.timeArgs x t) = if x.isConstant then [] else [M.eval ρ t] := by
  unfold TraceMode.timeArgs
  split <;> rfl

/-- A variable is read in the trace that the assignment gives, if there are two. -/
theorem evalAll_traceArgs : M.evalAll ρ mode.traceArgs = traceValues mode ρ := by
  cases mode <;> rfl

/-- The store at a point of time that stands for a moment is the store at that moment. -/
theorem pointStore_eq (htail : M.evalAll ρ mode.traceArgs = tail) (ht : M.eval ρ t = .time n) :
    M.pointStore mode ρ t = M.storeAt tail n := by
  simp only [pointStore, storeAt, timeValues, ht, ← htail, evalAll_traceArgs]

/-- The term of a scalar has the scalar's value in the store at the point. -/
theorem eval_value (mode : TraceMode) (x : Variable) :
    M.eval ρ (.app (mode.variableSymbol x) (TraceMode.timeArgs x t ++ mode.traceArgs)) =
      .int ((M.pointStore mode ρ t).scalar x) := by
  rw [eval, evalAll_append, evalAll_timeArgs, evalAll_traceArgs]
  exact M.apply_int rfl rfl _

/-- The term of an element has the element's value in the store at the point. -/
theorem eval_element (mode : TraceMode) (a : Variable) {index : Term} {i : Int}
    (hindex : M.eval ρ index = .int i) :
    M.eval ρ (.app (mode.variableSymbol a) (TraceMode.timeArgs a t ++ [index] ++ mode.traceArgs)) =
      .int ((M.pointStore mode ρ t).array a i) := by
  rw [eval, evalAll_append, evalAll_append, evalAll_timeArgs, evalAll_traceArgs, evalAll, evalAll,
    hindex]
  exact M.apply_int rfl rfl _

/-- What is built for a scalar has its value in the store at the point. -/
theorem eval_valueAt_point {x : Variable} {u : Term} (h : (mode.valueAt x t).outcome = .ok u) :
    M.eval ρ u = .int ((M.pointStore mode ρ t).scalar x) := by
  obtain rfl := Term.app?_eq_ok h
  exact eval_value mode x

/-- What is built for an element has its value in the store at the point. -/
theorem eval_elementAt_point {a : Variable} {index u : Term} {i : Int}
    (hindex : M.eval ρ index = .int i) (h : (mode.elementAt a t index).outcome = .ok u) :
    M.eval ρ u = .int ((M.pointStore mode ρ t).array a i) := by
  obtain rfl := Term.app?_eq_ok h
  exact eval_element mode a hindex

/-- The term of an integer expression has the value of the expression. -/
theorem eval_intTerm_point : {e : IntExpr Variable} → {u : Term} →
    (mode.intTerm t e).outcome = .ok u → M.eval ρ u = .int ((M.pointStore mode ρ t).int e)
  | .literal k, u, h => by
    obtain rfl : u = .app (literalSymbol k) [] := Term.app?_eq_ok h
    rw [eval, evalAll]
    exact M.apply_literal k
  | .variable _, _, h => eval_valueAt_point h
  | .element _ _, u, h => by
    simp only [TraceMode.intTerm, outcome_bind_eq_ok] at h
    obtain ⟨index, hindex, helement⟩ := h
    exact eval_elementAt_point (eval_intTerm_point hindex) helement
  | .arith op _ _, u, h => by
    simp only [TraceMode.intTerm, outcome_bind_eq_ok] at h
    obtain ⟨l, hl, r, hr, happly⟩ := h
    obtain rfl := Term.app?_eq_ok happly
    simp only [eval, evalAll, eval_intTerm_point hl, eval_intTerm_point hr, apply_arith, Store.int]
  | .negate _, u, h => by
    simp only [TraceMode.intTerm, outcome_bind_eq_ok] at h
    obtain ⟨o, ho, happly⟩ := h
    obtain rfl := Term.app?_eq_ok happly
    simp only [eval, evalAll, eval_intTerm_point ho, apply_negate, Store.int]

/-- The formula of a comparison says what the comparison tests. -/
theorem holds_compare {op : Comparison} {l r : Term} {a b : Int} (hl : M.eval ρ l = .int a)
    (hr : M.eval ρ r = .int b) {f : Formula} (h : (compare op l r).outcome = .ok f) :
    M.Holds ρ f ↔ op.test a b = true := by
  have horder : ∀ {p : Symbol} {value : Bool}, M.apply p [.int a, .int b] = .truth value →
      (Construction.holds p [l, r]).outcome = .ok f → (M.Holds ρ f ↔ value = true) := by
    intro p value happly hp
    obtain rfl := Formula.predicate?_eq_ok hp
    rw [Holds, evalAll, evalAll, evalAll, hl, hr, happly, Value.truth.injEq]
  cases op with
  | less => exact horder rfl h
  | lessEq => exact horder rfl h
  | greater => exact horder rfl h
  | greaterEq => exact horder rfl h
  | equal =>
    obtain rfl := Formula.equal?_eq_ok h
    simp [Holds, hl, hr, Comparison.test]
  | notEqual =>
    obtain rfl := Formula.distinct?_eq_ok h
    simp [Holds, hl, hr, Comparison.test]

mutual

/-- The formula of a Boolean expression says what the expression tests. -/
theorem holds_boolFormula_point : {b : BoolExpr Variable} → {f : Formula} →
    (mode.boolFormula t b).outcome = .ok f →
      (M.Holds ρ f ↔ (M.pointStore mode ρ t).test b = true)
  | .constant value, f, h => by
    obtain rfl := Formula.predicate?_eq_ok h
    rw [Holds, evalAll, apply_truth, Value.truth.injEq, Store.test]
  | .compare op _ _, f, h => by
    simp only [TraceMode.boolFormula, outcome_bind_eq_ok] at h
    obtain ⟨l, hl, r, hr, hcompare⟩ := h
    exact holds_compare (eval_intTerm_point hl) (eval_intTerm_point hr) hcompare
  | .junction .all _, f, h => by
    simp only [TraceMode.boolFormula, outcome_bind_eq_ok, outcome_pure] at h
    obtain ⟨fs, hfs, hf⟩ := h
    cases hf
    rw [Holds, Store.test]
    exact (holds_boolFormulas_point hfs).1
  | .junction .any _, f, h => by
    simp only [TraceMode.boolFormula, outcome_bind_eq_ok, outcome_pure] at h
    obtain ⟨fs, hfs, hf⟩ := h
    cases hf
    rw [Holds, Store.test]
    exact (holds_boolFormulas_point hfs).2
  | .not _, f, h => by
    simp only [TraceMode.boolFormula, outcome_bind_eq_ok, outcome_pure] at h
    obtain ⟨g, hg, hf⟩ := h
    cases hf
    rw [Holds, Store.test, holds_boolFormula_point hg, Bool.not_eq_true']
    simp

/-- The formulas of Boolean expressions say what the expressions test. -/
theorem holds_boolFormulas_point : {bs : List (BoolExpr Variable)} → {fs : List Formula} →
    (mode.boolFormulas t bs).outcome = .ok fs →
      (M.AllHold ρ fs ↔ (M.pointStore mode ρ t).testAll bs = true) ∧
        (M.SomeHolds ρ fs ↔ (M.pointStore mode ρ t).testAny bs = true)
  | [], fs, h => by
    cases h
    simp [AllHold, SomeHolds, Store.testAll, Store.testAny]
  | b :: bs, fs, h => by
    simp only [TraceMode.boolFormulas, outcome_bind_eq_ok, outcome_pure] at h
    obtain ⟨g, hg, gs, hgs, hfs⟩ := h
    cases hfs
    have hfirst := holds_boolFormula_point hg
    obtain ⟨hall, hany⟩ := holds_boolFormulas_point hgs
    simp [AllHold, SomeHolds, Store.testAll, Store.testAny, hfirst, hall, hany]

end

/-- The formula of a condition at a moment is true if and only if the condition is true in the store
of the moment. -/
theorem holds_boolFormula (htail : M.evalAll ρ mode.traceArgs = tail) (ht : M.eval ρ t = .time n)
    {b : BoolExpr Variable} {f : Formula} (h : (mode.boolFormula t b).outcome = .ok f) :
    M.Holds ρ f ↔ (M.storeAt tail n).test b = true := by
  rw [holds_boolFormula_point h, pointStore_eq htail ht]

end

end Interpretation

end TraceLogic
