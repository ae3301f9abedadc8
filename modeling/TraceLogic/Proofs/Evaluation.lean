import TraceLogic.Proofs.Expression
import TraceLogic.Proofs.Script
import TraceLogic.Proofs.Vocabulary

/-!
# Expressions keep their meaning

An expression of a program is evaluated over a store, and the term that is built for it over an
interpretation. The main statement, `Interpretation.eval_run_expression`, compares the two at every
point of time, from every vocabulary: the store is the one that the interpretation gives to the
point.

An interpretation takes a literal from its name, while the solver gets it as a text in which a
negative number is a negation. `Symbol.printsInteger_iff` says that the two readings agree.
-/

namespace TraceLogic

open Construction Interpreted Sexp

/-! ## Literals as texts -/

/-- The integer that an S-expression is the literal of. A negative one is the negation of a
numeral. -/
def Sexp.integer? : Sexp → Option Int
  | .atom text => (digits? text.toList).map fun n => (n : Int)
  | .list [.atom "-", .atom text] => (digits? text.toList).map fun n => -(n : Int)
  | _ => none

/-- Whether the text of a symbol without arguments is read as the literal of an integer. -/
def Symbol.PrintsInteger (f : Symbol) (n : Int) : Prop :=
  ∃ e, readAll (Term.print (.app f [])) = some [e] ∧ e.integer? = some n

/-- The text of an interpreted symbol is a literal where its name is one. -/
theorem Term.integer?_constantSexp {f : Symbol} (h : f.interpreted = true) :
    (Term.constantSexp f).integer? = numeral? f.printedName := by
  unfold Term.constantSexp numeral?
  split
  · rename_i d ds _ hminus
    rw [hminus]
    simp [integer?]
  · rename_i hother
    rw [integer?]
    split
    · -- a single minus sign is neither
      rename_i ds hminus
      cases ds with
      | nil =>
        rw [hminus]
        rfl
      | cons d ds => exact absurd hminus (hother d ds h)
    · rfl

namespace Symbol

/-- An interpreted symbol prints an integer if and only if its printed name is the numeral of it. -/
theorem printsInteger_iff {f : Symbol} (hf : f.interpreted = true) (hname : IsWord f.name)
    (n : Int) : f.PrintsInteger n ↔ numeral? f.printedName = some n := by
  have hread : readAll (Term.print (.app f [])) = some [Term.constantSexp f] := by
    refine readAll_of_tokens ?_
    simpa [Term.print, tokensOf] using (Term.reads_printConstant hname).tokensFrom_eq
  unfold PrintsInteger
  rw [hread, ← Term.integer?_constantSexp hf]
  simp

/-- The symbol of a literal has a word for its name. -/
theorem isWord_literalSymbol (n : Int) : IsWord (literalSymbol n).name := by
  cases n with
  | ofNat n => exact isWord_repr n
  | negSucc n => exact .append (by decide) (isWord_repr (n + 1))

/-- The text of every literal is read as its integer. -/
theorem printsInteger_literalSymbol (n : Int) : (literalSymbol n).PrintsInteger n := by
  rw [printsInteger_iff rfl (isWord_literalSymbol n), printedName_literalSymbol, numeral?_decimal]

end Symbol

namespace Interpretation

variable {τ : SortSymbol → Type} (M : Interpretation τ)

/-- An interpretation takes a literal for the integer that its text is read as. -/
theorem apply_of_printsInteger {f : Symbol} (hf : f.interpreted = true) (hname : IsWord f.name)
    {n : Int} (h : f.PrintsInteger n) : M.apply f [] = .int n :=
  M.apply_of_operation hf
    (M.operation_of_numeral ((Symbol.printsInteger_iff hf hname n).mp h))

/-- Expressions keep their meaning, whatever the point of time and the vocabulary are. -/
theorem eval_run_expression (mode : TraceMode) (t : Term) (v : Vocabulary) (ρ : Assignment τ) :
    (∀ e u w, (mode.intTerm t e).run v = (.ok u, w) →
      M.eval ρ u = .int ((M.pointStore mode ρ t).int e)) ∧
    (∀ b f w, (mode.boolFormula t b).run v = (.ok f, w) →
      (M.Holds ρ f ↔ (M.pointStore mode ρ t).test b = true)) ∧
    (∀ n, (literalSymbol n).PrintsInteger n) ∧
    ∀ f n, f.interpreted = true → IsWord f.name → f.PrintsInteger n → M.apply f [] = .int n := by
  refine ⟨fun e u w hrun => ?_, fun b f w hrun => ?_, Symbol.printsInteger_literalSymbol,
    fun f n hf hname h => M.apply_of_printsInteger hf hname h⟩
  · exact eval_intTerm_point (run_eq_ok.mp hrun).1
  · exact holds_boolFormula_point (run_eq_ok.mp hrun).1

end Interpretation

/-- An element whose position is read from the array, less the negation of a constant. -/
def IntExpr.nested : IntExpr Variable :=
  .arith .sub
    (.element ⟨"a", true, false⟩ (.element ⟨"a", true, false⟩ (.literal (-9223372036854775808))))
    (.negate (.variable ⟨"c", false, true⟩))

/-- A comparison inside of junctions with one part and with none. -/
def BoolExpr.nested : BoolExpr Variable :=
  .junction .all [.junction .any [.compare .less .nested (.variable ⟨"x", false, false⟩)],
    .not (.junction .any [])]

/-- With two traces, the comparison is about the elements in the current one. -/
theorem Interpretation.eval_run_expression_nested :
    let t := Term.point "l1" []
    ∃ f w, (TraceMode.two.boolFormula t .nested).run .initial = (.ok f, w) ∧
      ∀ (M : Interpretation fun _ => Unit) (ρ : Assignment fun _ => Unit),
        let a (i : Int) : Int := M.int "a" [.time (M.time "l1" []), .int i, ρ "tr"]
        let c : Int := M.int "c" [ρ "tr"]
        let x : Int := M.int "x" [.time (M.time "l1" []), ρ "tr"]
        M.Holds ρ f ↔ a (a (-9223372036854775808)) - -c < x := by
  intro t
  have hok : ((TraceMode.two.boolFormula t .nested).run .initial).1.isOk = true := by
    decide +kernel
  obtain ⟨f, w, hrun⟩ := exists_run_eq_ok hok
  refine ⟨f, w, hrun, ?_⟩
  intro M ρ
  rw [(M.eval_run_expression .two t .initial ρ).2.1 .nested f w hrun]
  have ht : M.eval ρ t = .time (M.time "l1" []) := M.apply_time rfl rfl []
  simp [BoolExpr.nested, IntExpr.nested, Store.test, Store.testAll, Store.testAny, Comparison.test,
    Store.int, ArithOp.eval, Interpretation.pointStore, Interpretation.traceValues, ht]

end TraceLogic
