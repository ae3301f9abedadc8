import TraceLogic.Logic.Interpreted
import TraceLogic.Data.Decimal
import Mathlib.Logic.Function.Basic

/-!
# Interpretations of the logic

An interpretation says what the free symbols of a problem stand for. The sorts `Int`, `Bool` and
`Time` are the integers, the truth values and the natural numbers; every other sort has the elements
that it is given. An interpreted symbol is read by the operator that is printed for it, and a
literal by its printed digits.

`Interpretation.eval` and `Interpretation.Holds` give the value of a term and the truth of a formula
under an assignment of values to bound names.
-/

namespace TraceLogic

/-- A value of a term. The last constructor holds the elements of sorts without structure. -/
inductive Value (τ : SortSymbol → Type)
  | int (n : Int)
  | truth (b : Bool)
  | time (n : Nat)
  | element (sort : SortSymbol) (e : τ sort)

/-- Whether a value belongs to a sort. -/
def Value.HasSort {τ : SortSymbol → Type} : Value τ → SortSymbol → Prop
  | int _, s => s = .int
  | truth _, s => s = .bool
  | time _, s => s = .time
  | element t _, s => s = t ∧ s.isBuiltin = false ∧ s ≠ .time

section

variable {τ : SortSymbol → Type} {v : Value τ}

/-- The values of the sort of integers are the integers. -/
theorem Value.hasSort_int : v.HasSort .int ↔ ∃ n, v = .int n := by
  cases v <;> simp [HasSort, SortSymbol.int, SortSymbol.bool, SortSymbol.time,
    SortSymbol.isBuiltin]

/-- The values of the sort of time are the moments. -/
theorem Value.hasSort_time : v.HasSort .time ↔ ∃ n, v = .time n := by
  cases v <;> simp [HasSort, SortSymbol.int, SortSymbol.bool, SortSymbol.time]

/-- The values of the sort of traces are the elements that are given for it. -/
theorem Value.hasSort_trace : v.HasSort .trace ↔ ∃ t, v = .element .trace t := by
  constructor
  · intro h
    cases v with
    | element s e =>
      obtain ⟨rfl, _, _⟩ := h
      exact ⟨e, rfl⟩
    | int n => exact absurd (show SortSymbol.trace = .int from h) (by decide)
    | truth b => exact absurd (show SortSymbol.trace = .bool from h) (by decide)
    | time n => exact absurd (show SortSymbol.trace = .time from h) (by decide)
  · rintro ⟨t, rfl⟩
    exact ⟨rfl, by decide, by decide⟩

end

/-- The number that a list of digits stands for. -/
def digits? (ds : List Char) : Option Nat :=
  if ds ≠ [] ∧ ds.all Char.isDigit then some (digitsValue ds) else none

/-- The integer that a decimal text stands for. -/
def numeral? (text : String) : Option Int :=
  match text.toList with
  | '-' :: ds => (digits? ds).map (fun n => -(n : Int))
  | ds => (digits? ds).map (fun n => (n : Int))

/-- The decimal digits of a number stand for that number. -/
theorem digits?_toDigits (n : Nat) : digits? (Nat.toDigits 10 n) = some n := by
  have hall : (Nat.toDigits 10 n).all Char.isDigit = true := by
    rw [List.all_eq_true]
    intro c hc
    exact Nat.isDigit_of_mem_toDigits (by decide) (by decide) hc
  have hvalue : digitsValue (Nat.toDigits 10 n) = n :=
    Nat.ofDigitChars_toDigits (by decide) (by decide)
  rw [digits?, if_pos ⟨Nat.toDigits_ne_nil, hall⟩, hvalue]

/-- The decimal text of an integer stands for that integer. -/
theorem numeral?_decimal (n : Int) : numeral? (Interpreted.decimal n) = some n := by
  cases n with
  | ofNat n =>
    have htext : (Interpreted.decimal (.ofNat n)).toList = Nat.toDigits 10 n := by
      simp [Interpreted.decimal]
    unfold numeral?
    rw [htext]
    split
    · rename_i ds hminus
      have hdigit : ('-').isDigit = true :=
        Nat.isDigit_of_mem_toDigits (by decide) (by decide) (hminus ▸ List.mem_cons_self)
      exact absurd hdigit (by decide)
    · rw [digits?_toDigits]
      rfl
  | negSucc n =>
    have htext : (Interpreted.decimal (.negSucc n)).toList = '-' :: Nat.toDigits 10 (n + 1) := by
      simp [Interpreted.decimal]
    unfold numeral?
    rw [htext]
    simp only [digits?_toDigits]
    rfl

/-- What the symbols of a problem stand for. Every sort has an element, since a symbol of the sort
has a value. -/
structure Interpretation (τ : SortSymbol → Type) where
  /-- The values of the free symbols with range `Int`. -/
  int : String → List (Value τ) → Int
  /-- The values of the free symbols with range `Bool`. -/
  truth : String → List (Value τ) → Bool
  /-- The values of the free symbols with range `Time`. -/
  time : String → List (Value τ) → Nat
  /-- The values of the free symbols with any other range. -/
  element : (s : SortSymbol) → String → List (Value τ) → τ s
  /-- The selector `p` of the datatype. Its value at `zero` is left open. -/
  pred : Nat → Nat
  pred_succ : ∀ n, pred (n + 1) = n
  /-- The relation `Sub`, of which only the recursive definition is known. -/
  before : Nat → Nat → Bool
  before_iff : ∀ a b, before a b = true ↔ b ≠ 0 ∧ (a = pred b ∨ before a (pred b) = true)

/-- The interpretation with given values of the free symbols, in which every other sort has one
element. -/
def Interpretation.ofValues (int : String → List (Value fun _ => Unit) → Int)
    (time : String → List (Value fun _ => Unit) → Nat) : Interpretation fun _ => Unit where
  int := int
  truth _ _ := false
  time := time
  element _ _ _ := ()
  pred n := n - 1
  pred_succ _ := rfl
  before a b := decide (a < b)
  before_iff a b := by
    simp only [decide_eq_true_eq]
    omega

/-- Values of bound variables, by name. -/
abbrev Assignment (τ : SortSymbol → Type) := String → Value τ

namespace Interpretation

variable {τ : SortSymbol → Type} (M : Interpretation τ)

/-- The definition of `Sub` has one solution on the natural numbers. -/
theorem before_eq_true_iff (a b : Nat) : M.before a b = true ↔ a < b := by
  induction b with
  | zero => simp [M.before_iff a 0]
  | succ b ih =>
    rw [M.before_iff, M.pred_succ, ih]
    omega

/-- The value of an operator of the solver, where it has one. -/
def operation : String → List (Value τ) → Option (Value τ)
  | "+", [.int a, .int b] => some (.int (a + b))
  | "-", [.int a, .int b] => some (.int (a - b))
  | "-", [.int a] => some (.int (-a))
  | "*", [.int a, .int b] => some (.int (a * b))
  | "<", [.int a, .int b] => some (.truth (a < b))
  | "<=", [.int a, .int b] => some (.truth (a ≤ b))
  | ">", [.int a, .int b] => some (.truth (a > b))
  | ">=", [.int a, .int b] => some (.truth (a ≥ b))
  | "true", [] => some (.truth true)
  | "false", [] => some (.truth false)
  | "zero", [] => some (.time 0)
  | "s", [.time n] => some (.time (n + 1))
  | "p", [.time n] => some (.time (M.pred n))
  | "Sub", [.time a, .time b] => some (.truth (M.before a b))
  | text, [] => (numeral? text).map .int
  | _, _ => none

/-- The value of a free symbol, which always has the symbol's range. -/
def free (f : Symbol) (args : List (Value τ)) : Value τ :=
  if f.range = .int then .int (M.int f.name args)
  else if f.range = .bool then .truth (M.truth f.name args)
  else if f.range = .time then .time (M.time f.name args)
  else .element f.range (M.element f.range f.name args)

/-- The value of a symbol at arguments. -/
def apply (f : Symbol) (args : List (Value τ)) : Value τ :=
  if f.interpreted then (M.operation f.printedName args).getD (M.free f args) else M.free f args

mutual

/-- The value of a term. -/
def eval (ρ : Assignment τ) : Term → Value τ
  | .var f => ρ f.name
  | .app f ts => M.apply f (evalAll ρ ts)

/-- The values of terms. -/
def evalAll (ρ : Assignment τ) : List Term → List (Value τ)
  | [] => []
  | t :: ts => eval ρ t :: evalAll ρ ts

end

/-- Binds variables one after the other to all values of their sorts. -/
def ForAll (P : Assignment τ → Prop) : List Symbol → Assignment τ → Prop
  | [], ρ => P ρ
  | b :: bs, ρ => ∀ v : Value τ, v.HasSort b.range → ForAll P bs (Function.update ρ b.name v)

/-- Binds variables one after the other to some value of their sorts. -/
def ForSome (P : Assignment τ → Prop) : List Symbol → Assignment τ → Prop
  | [], ρ => P ρ
  | b :: bs, ρ => ∃ v : Value τ, v.HasSort b.range ∧ ForSome P bs (Function.update ρ b.name v)

mutual

/-- Whether a formula is true. -/
def Holds (ρ : Assignment τ) : Formula → Prop
  | .equal s t => M.eval ρ s = M.eval ρ t
  | .distinct s t => M.eval ρ s ≠ M.eval ρ t
  | .predicate p ts => M.apply p (M.evalAll ρ ts) = .truth true
  | .negation f => ¬ Holds ρ f
  | .implication f g => Holds ρ f → Holds ρ g
  | .junction .all fs => AllHold ρ fs
  | .junction .any fs => SomeHolds ρ fs
  | .quantified .all binders f => ForAll (fun ρ => Holds ρ f) binders ρ
  | .quantified .some binders f => ForSome (fun ρ => Holds ρ f) binders ρ
  | .labelled _ f => Holds ρ f

/-- Whether all formulas of a list are true. -/
def AllHold (ρ : Assignment τ) : List Formula → Prop
  | [] => True
  | f :: fs => Holds ρ f ∧ AllHold ρ fs

/-- Whether some formula of a list is true. -/
def SomeHolds (ρ : Assignment τ) : List Formula → Prop
  | [] => False
  | f :: fs => Holds ρ f ∨ SomeHolds ρ fs

end

/-- Whether a formula is true under every assignment. -/
def Satisfies (f : Formula) : Prop := ∀ ρ, M.Holds ρ f

variable (ρ : Assignment τ)

/-- Terms are evaluated one by one. -/
theorem evalAll_eq_map (ts : List Term) : M.evalAll ρ ts = ts.map (M.eval ρ) := by
  induction ts with
  | nil => rfl
  | cons t ts ih => rw [evalAll, ih, List.map_cons]

/-- Two lists of terms are evaluated one after the other. -/
@[simp]
theorem evalAll_append (ts us : List Term) :
    M.evalAll ρ (ts ++ us) = M.evalAll ρ ts ++ M.evalAll ρ us := by
  simp only [evalAll_eq_map, List.map_append]

/-- Formulas hold together if each one does. -/
theorem allHold_iff (fs : List Formula) : M.AllHold ρ fs ↔ ∀ f ∈ fs, M.Holds ρ f := by
  induction fs with
  | nil => simp [AllHold]
  | cons f fs ih => simp [AllHold, ih]

/-- A conjunction holds if all of its parts do. -/
@[simp]
theorem holds_conjunction (fs : List Formula) :
    M.Holds ρ (Formula.conjunction fs) ↔ ∀ f ∈ fs, M.Holds ρ f := by
  rw [Formula.conjunction, Holds, allHold_iff]

/-- A negation holds if the formula does not. -/
@[simp]
theorem holds_negation (f : Formula) : M.Holds ρ (.negation f) ↔ ¬ M.Holds ρ f := by
  rw [Holds]

/-- An implication holds if its conclusion does whenever its premise does. -/
@[simp]
theorem holds_implication (f g : Formula) :
    M.Holds ρ (.implication f g) ↔ (M.Holds ρ f → M.Holds ρ g) := by
  rw [Holds]

/-- A label says nothing. -/
@[simp]
theorem holds_withLabel (f : Formula) (text : String) :
    M.Holds ρ (f.withLabel text) ↔ M.Holds ρ f := by
  have hunlabelled : ∀ g : Formula, M.Holds ρ g.unlabelled ↔ M.Holds ρ g := by
    intro g
    fun_induction Formula.unlabelled g with
    | case1 text body ih => rw [ih, Holds]
    | case2 g _ => rfl
  rw [Formula.withLabel, Holds, hunlabelled]

/-- A variable of sort `Int` ranges over the integers. -/
theorem holds_forall_int (name : String) (f : Formula) :
    M.Holds ρ (.quantified .all [.bound name .int] f) ↔
      ∀ n : Int, M.Holds (Function.update ρ name (.int n)) f := by
  simp only [Holds, ForAll, Symbol.bound, Value.hasSort_int]
  exact ⟨fun h n => h _ ⟨n, rfl⟩, fun h v ⟨n, hv⟩ => hv ▸ h n⟩

/-- A variable of sort `Time` ranges over the natural numbers. -/
theorem holds_forall_time (name : String) (f : Formula) :
    M.Holds ρ (.quantified .all [.bound name .time] f) ↔
      ∀ n : Nat, M.Holds (Function.update ρ name (.time n)) f := by
  simp only [Holds, ForAll, Symbol.bound, Value.hasSort_time]
  exact ⟨fun h n => h _ ⟨n, rfl⟩, fun h v ⟨n, hv⟩ => hv ▸ h n⟩

/-- A variable of sort `Trace` ranges over the elements of that sort. -/
theorem holds_forall_trace (name : String) (f : Formula) :
    M.Holds ρ (.quantified .all [.bound name .trace] f) ↔
      ∀ t : τ .trace, M.Holds (Function.update ρ name (.element .trace t)) f := by
  simp only [Holds, ForAll, Symbol.bound, Value.hasSort_trace]
  exact ⟨fun h t => h _ ⟨t, rfl⟩, fun h v ⟨t, hv⟩ => hv ▸ h t⟩

/-! ## Symbols -/

/-- A symbol that is not interpreted has the value that the interpretation is free to give. -/
theorem apply_of_free {f : Symbol} (h : f.interpreted = false) (args : List (Value τ)) :
    M.apply f args = M.free f args := by
  rw [apply, h]
  rfl

/-- An interpreted symbol has the value of its operation, if it has one at the arguments. -/
theorem apply_of_operation {f : Symbol} {args : List (Value τ)} {v : Value τ}
    (hf : f.interpreted = true) (hv : M.operation f.printedName args = some v) :
    M.apply f args = v := by
  rw [apply, if_pos hf, hv, Option.getD_some]

/-- A free symbol with range `Time` gives a point of time. -/
theorem apply_time {f : Symbol} (h : f.interpreted = false) (hrange : f.range = .time)
    (args : List (Value τ)) : M.apply f args = .time (M.time f.name args) := by
  rw [M.apply_of_free h, free, hrange]
  rfl

/-- A free symbol with range `Int` gives an integer. -/
theorem apply_int {f : Symbol} (h : f.interpreted = false) (hrange : f.range = .int)
    (args : List (Value τ)) : M.apply f args = .int (M.int f.name args) := by
  rw [M.apply_of_free h, free, hrange]
  rfl

/-- The symbol for zero stands for the first moment. -/
@[simp]
theorem apply_zero : M.apply Interpreted.zeroSymbol [] = .time 0 := rfl

/-- The symbol for the successor stands for the next moment. -/
@[simp]
theorem apply_succ (n : Nat) : M.apply Interpreted.succSymbol [.time n] = .time (n + 1) := rfl

/-- The symbol for the opposite stands for it. -/
@[simp]
theorem apply_negate (a : Int) : M.apply Interpreted.negateSymbol [.int a] = .int (-a) := rfl

/-- The order symbol stands for the order that the interpretation has. -/
@[simp]
theorem apply_before (a b : Nat) :
    M.apply Interpreted.beforeSymbol [.time a, .time b] = .truth (M.before a b) := rfl

/-- The symbols for the truth values stand for them. -/
@[simp]
theorem apply_truth (b : Bool) : M.apply (Interpreted.truthSymbol b) [] = .truth b := by
  cases b <;> rfl

end Interpretation

end TraceLogic
