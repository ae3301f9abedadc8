import TraceLogic.Program.Statement
import Mathlib.Logic.Function.Basic

/-!
# Stores

A store gives every scalar an integer and every array an integer at each position. Expressions are
evaluated over unbounded integers, and an assignment changes one variable.

A function speaks only about the variables that it declares. `Store.merge` takes the values of given
variables from one store and all others from a second one; what is in the scope of the given
variables does not see the second store.
-/

namespace TraceLogic

/-- The result of an arithmetic operation. -/
def ArithOp.eval : ArithOp → Int → Int → Int
  | add, a, b => a + b
  | sub, a, b => a - b
  | mul, a, b => a * b

/-- The result of a comparison. -/
def Comparison.test : Comparison → Int → Int → Bool
  | less, a, b => a < b
  | lessEq, a, b => a ≤ b
  | greater, a, b => a > b
  | greaterEq, a, b => a ≥ b
  | equal, a, b => a = b
  | notEqual, a, b => a ≠ b

/-- The values of all variables. -/
@[ext]
structure Store where
  /-- The values of scalars. -/
  scalar : Variable → Int
  /-- The elements of arrays. -/
  array : Variable → Int → Int

namespace Store

/-- The store in which everything is zero. -/
def zero : Store := ⟨fun _ => 0, fun _ _ => 0⟩

/-- The value of an integer expression. -/
def int (σ : Store) : IntExpr Variable → Int
  | .literal n => n
  | .variable x => σ.scalar x
  | .element a index => σ.array a (σ.int index)
  | .arith op lhs rhs => op.eval (σ.int lhs) (σ.int rhs)
  | .negate operand => -σ.int operand

mutual

/-- The truth of a Boolean expression. -/
def test (σ : Store) : BoolExpr Variable → Bool
  | .constant b => b
  | .compare op lhs rhs => op.test (σ.int lhs) (σ.int rhs)
  | .junction .all parts => σ.testAll parts
  | .junction .any parts => σ.testAny parts
  | .not operand => !σ.test operand

/-- Whether all Boolean expressions of a list are true. -/
def testAll (σ : Store) : List (BoolExpr Variable) → Bool
  | [] => true
  | b :: rest => σ.test b && σ.testAll rest

/-- Whether some Boolean expression of a list is true. -/
def testAny (σ : Store) : List (BoolExpr Variable) → Bool
  | [] => false
  | b :: rest => σ.test b || σ.testAny rest

end

/-- The store after an assignment. -/
def assign (σ : Store) (target : Target Variable) (value : IntExpr Variable) : Store :=
  match target with
  | .scalar x => { σ with scalar := Function.update σ.scalar x (σ.int value) }
  | .element a index =>
    { σ with
      array := Function.update σ.array a
        (Function.update (σ.array a) (σ.int index) (σ.int value)) }

/-- Whether two stores give a variable the same value. -/
def AgreeAt (x : Variable) (σ τ : Store) : Prop :=
  if x.isArray then σ.array x = τ.array x else σ.scalar x = τ.scalar x

/-- Agreement of two stores at a variable has no direction. -/
theorem AgreeAt.symm {x : Variable} {σ τ : Store} (h : AgreeAt x σ τ) : AgreeAt x τ σ := by
  unfold AgreeAt at h ⊢
  split at h <;> simp_all

/-- Agreement of stores at a variable is transitive. -/
theorem AgreeAt.trans {x : Variable} {σ τ υ : Store} (h : AgreeAt x σ τ) (h' : AgreeAt x τ υ) :
    AgreeAt x σ υ := by
  unfold AgreeAt at h h' ⊢
  split at h <;> simp_all

/-- The values of the given variables in one store, and all other values of a second one. A scalar
is not given as an array, nor an array as a scalar. -/
def merge (vars : List Variable) (σ τ : Store) : Store where
  scalar x := if x ∈ vars ∧ x.isArray = false then σ.scalar x else τ.scalar x
  array x := if x ∈ vars ∧ x.isArray = true then σ.array x else τ.array x

/-- The values of the given variables, and zero for all others. -/
def restrict (vars : List Variable) (σ : Store) : Store := merge vars σ zero

/-- Two stores look the same through some variables if and only if they agree at each of them. -/
theorem merge_eq_merge_iff {vars : List Variable} {σ σ' τ : Store} :
    merge vars σ τ = merge vars σ' τ ↔ ∀ x ∈ vars, AgreeAt x σ σ' := by
  constructor
  · intro h x hx
    have hscalar := congrFun (congrArg scalar h) x
    have harray := congrFun (congrArg array h) x
    cases hshape : x.isArray with
    | true => simpa [merge, AgreeAt, hx, hshape] using harray
    | false => simpa [merge, AgreeAt, hx, hshape] using hscalar
  · intro h
    ext x
    · by_cases hx : x ∈ vars ∧ x.isArray = false
      · have := h x hx.1
        simpa [merge, AgreeAt, hx] using this
      · simp [merge, hx]
    · by_cases hx : x ∈ vars ∧ x.isArray = true
      · have := h x hx.1
        simp only [AgreeAt, hx.2, if_true] at this
        simp [merge, hx, this]
      · simp [merge, hx]

/-- A store merged with itself does not change. -/
@[simp]
theorem merge_self (vars : List Variable) (σ : Store) : merge vars σ σ = σ := by
  ext <;> simp [merge]

/-- Merging twice through the same variables keeps only the first store there. -/
@[simp]
theorem merge_merge (vars : List Variable) (σ τ τ' : Store) :
    merge vars (merge vars σ τ) τ' = merge vars σ τ' := by
  ext x
  · by_cases hx : x ∈ vars ∧ x.isArray = false <;> simp [merge, hx]
  · by_cases hx : x ∈ vars ∧ x.isArray = true <;> simp [merge, hx]

end Store

/-! ## Scope -/

/-- Whether an integer expression uses declared variables only, scalars as scalars and arrays as
arrays. -/
def IntExpr.Scoped (vars : List Variable) : IntExpr Variable → Prop
  | .literal _ => True
  | .variable x => x ∈ vars ∧ x.isArray = false
  | .element a index => (a ∈ vars ∧ a.isArray = true) ∧ index.Scoped vars
  | .arith _ lhs rhs => lhs.Scoped vars ∧ rhs.Scoped vars
  | .negate operand => operand.Scoped vars

mutual

/-- Whether a Boolean expression uses declared variables only, each as what it is. -/
def BoolExpr.Scoped (vars : List Variable) : BoolExpr Variable → Prop
  | .constant _ => True
  | .compare _ lhs rhs => lhs.Scoped vars ∧ rhs.Scoped vars
  | .junction _ parts => BoolExpr.AllScoped vars parts
  | .not operand => operand.Scoped vars

/-- Whether all Boolean expressions of a list use declared variables only. -/
def BoolExpr.AllScoped (vars : List Variable) : List (BoolExpr Variable) → Prop
  | [] => True
  | b :: rest => b.Scoped vars ∧ BoolExpr.AllScoped vars rest

end

/-- Whether the target of an assignment is a declared variable that may change. -/
def Target.Scoped (vars : List Variable) : Target Variable → Prop
  | .scalar x => x ∈ vars ∧ x.isArray = false ∧ x.isConstant = false
  | .element a index =>
    (a ∈ vars ∧ a.isArray = true ∧ a.isConstant = false) ∧ index.Scoped vars

/-- The variable that a scoped target writes to is one of those in scope. -/
theorem Target.Scoped.written_mem {vars : List Variable} {target : Target Variable}
    (h : target.Scoped vars) : target.written ∈ vars := by
  cases target with
  | scalar x => exact h.1
  | element a index => exact h.1.1

namespace Store

variable {vars : List Variable}

/-- The value of an expression depends only on the variables in its scope. -/
theorem int_merge (σ τ : Store) :
    {e : IntExpr Variable} → e.Scoped vars → (merge vars σ τ).int e = σ.int e
  | .literal _, _ => rfl
  | .variable _, he => by simp [int, merge, he.1, he.2]
  | .element _ _, he => by
    rw [int, int, int_merge σ τ he.2]
    simp [merge, he.1.1, he.1.2]
  | .arith _ _ _, he => by rw [int, int, int_merge σ τ he.1, int_merge σ τ he.2]
  | .negate e, he => by rw [int, int, int_merge σ τ (e := e) he]

mutual

/-- The truth of a condition depends only on the variables in its scope. -/
theorem test_merge (σ τ : Store) :
    {b : BoolExpr Variable} → b.Scoped vars → (merge vars σ τ).test b = σ.test b
  | .constant _, _ => rfl
  | .compare _ _ _, hb => by rw [test, test, int_merge σ τ hb.1, int_merge σ τ hb.2]
  | .junction .all _, hb => testAll_merge σ τ hb
  | .junction .any _, hb => testAny_merge σ τ hb
  | .not b, hb => by rw [test, test, test_merge σ τ (b := b) hb]

/-- Whether all conditions hold depends only on the variables in their scope. -/
theorem testAll_merge (σ τ : Store) :
    {bs : List (BoolExpr Variable)} → BoolExpr.AllScoped vars bs →
      (merge vars σ τ).testAll bs = σ.testAll bs
  | [], _ => rfl
  | _ :: _, hb => by rw [testAll, testAll, test_merge σ τ hb.1, testAll_merge σ τ hb.2]

/-- Whether some condition holds depends only on the variables in their scope. -/
theorem testAny_merge (σ τ : Store) :
    {bs : List (BoolExpr Variable)} → BoolExpr.AllScoped vars bs →
      (merge vars σ τ).testAny bs = σ.testAny bs
  | [], _ => rfl
  | _ :: _, hb => by rw [testAny, testAny, test_merge σ τ hb.1, testAny_merge σ τ hb.2]

end

/-- An assignment in scope changes nothing outside of it. -/
theorem assign_merge (σ τ : Store) {target : Target Variable} {value : IntExpr Variable}
    (ht : target.Scoped vars) (hv : value.Scoped vars) :
    (merge vars σ τ).assign target value = merge vars (σ.assign target value) τ := by
  cases target with
  | scalar x =>
    ext y
    · simp only [assign, int_merge σ τ hv]
      by_cases hy : y = x
      · subst hy
        simp [merge, ht.1, ht.2.1]
      · simp [merge, Function.update_of_ne hy]
    · rfl
  | element a index =>
    ext y i
    · rfl
    · simp only [assign, int_merge σ τ hv, int_merge σ τ ht.2]
      by_cases hy : y = a
      · subst hy
        simp [merge, ht.1.1, ht.1.2.1]
      · simp [merge, Function.update_of_ne hy]

/-- An assignment leaves every variable but its target as it was. -/
theorem agreeAt_assign_of_ne (σ : Store) (target : Target Variable) (value : IntExpr Variable)
    {x : Variable} (hx : x ≠ target.written) : AgreeAt x (σ.assign target value) σ := by
  cases target with
  | scalar y =>
    have hxy : x ≠ y := hx
    simp [AgreeAt, assign, Function.update_of_ne hxy]
  | element a index =>
    have hxa : x ≠ a := hx
    simp [AgreeAt, assign, Function.update_of_ne hxa]

end Store

end TraceLogic
