import TraceLogic.Proofs.Expression

/-!
# What updates and frames say

An assignment updates its target and keeps other variables. What its conjuncts say is stated here
for arbitrary points of time: the stores at the two points are related, for the target by
`Target.conditions` and for a variable that is kept by `Store.AgreeAt`. `TraceMode.frame` is the
conjunct that keeps a variable.

Some conjuncts bind a position, so that a point must not depend on the position that is bound around
it (`Interpretation.Steady`).
-/

namespace TraceLogic

open Construction

/-- What an update says about the stores before and after it, with one condition per conjunct: the
target has the value of the right-hand side, and the other elements of an array are kept. -/
def Target.conditions (target : Target Variable) (value : IntExpr Variable) (before after : Store) :
    List Prop :=
  match target with
  | .scalar x => [after.scalar x = before.int value]
  | .element a index =>
    [after.array a (before.int index) = before.int value,
      ∀ i, i ≠ before.int index → after.array a i = before.array a i]

/-- A target of its own shape is updated as an assignment does. -/
theorem Target.conditions_iff {vars : List Variable} {target : Target Variable}
    (h : target.Scoped vars) (value : IntExpr Variable) (before after : Store) :
    (∀ P ∈ target.conditions value before after, P) ↔
      Store.AgreeAt target.written after (before.assign target value) := by
  cases target with
  | scalar x =>
    have hshape : x.isArray = false := h.2.1
    rw [conditions, List.forall_mem_singleton]
    simp [Store.AgreeAt, written, hshape, Store.assign]
  | element a index =>
    have hshape : a.isArray = true := h.1.2.1
    rw [conditions, List.forall_mem_cons, List.forall_mem_singleton]
    simp only [Store.AgreeAt, written, hshape, if_true, Store.assign, Function.update_self]
    rw [Function.eq_update_iff]

/-- A variable has the same value at two points of time; an array, at every position. -/
def TraceMode.frame (mode : TraceMode) (lhs rhs : Term) (x : Variable) : Formula :=
  if x.isArray then
    .quantified .all [Symbol.position]
      (.equal (.app (mode.variableSymbol x) (timeArgs x lhs ++ [.position] ++ mode.traceArgs))
        (.app (mode.variableSymbol x) (timeArgs x rhs ++ [.position] ++ mode.traceArgs)))
  else
    .equal (.app (mode.variableSymbol x) (timeArgs x lhs ++ mode.traceArgs))
      (.app (mode.variableSymbol x) (timeArgs x rhs ++ mode.traceArgs))

namespace Semantics

variable {S : Semantics}

/-- The variables that can change are those that are not constant. -/
theorem mem_changing {vars : VariableSet} {x : Variable} :
    x ∈ changing vars ↔ x ∈ vars ∧ x.isConstant = false := by
  simp [changing, VariableSet.mem_def]

/-- What is built to keep a variable is its frame. -/
theorem sameValue_eq_ok {lhs rhs : Term} {x : Variable} {f : Formula}
    (h : (S.sameValue lhs rhs x).outcome = .ok f) : f = S.mode.frame lhs rhs x := by
  unfold sameValue at h
  unfold TraceMode.frame
  split at h
  · rename_i harray
    simp only [forAllPositions_eq, outcome_bind_eq_ok, outcome_pure] at h
    obtain ⟨l, hl, r, hr, g, hg, hf⟩ := h
    cases hf
    obtain rfl := Formula.equal?_eq_ok hg
    rw [if_pos harray, Term.app?_eq_ok hl, Term.app?_eq_ok hr]
  · rename_i hscalar
    simp only [outcome_bind_eq_ok] at h
    obtain ⟨l, hl, r, hr, hf⟩ := h
    obtain rfl := Formula.equal?_eq_ok hf
    rw [if_neg hscalar, Term.app?_eq_ok hl, Term.app?_eq_ok hr]

/-- What is built to keep variables are their frames. -/
theorem sameValues_eq_ok {lhs rhs : Term} {xs : List Variable} {fs : List Formula}
    (h : (S.sameValues lhs rhs xs).outcome = .ok fs) : fs = xs.map (S.mode.frame lhs rhs) :=
  eq_map_of_each sameValue_eq_ok h

end Semantics

namespace Interpretation

variable {τ : SortSymbol → Type} (M : Interpretation τ)

/-- Whether a term stands for the same value at every position that is bound around it. -/
def Steady (ρ : Assignment τ) (t : Term) : Prop :=
  ∀ v, M.eval (Function.update ρ "pos" v) t = M.eval ρ t

/-- The position that has just been bound. -/
theorem eval_position (ρ : Assignment τ) (i : Int) :
    M.eval (Function.update ρ "pos" (.int i)) Term.position = .int i := by
  simp [eval, Term.position, Symbol.position, Symbol.bound]

variable {M} {S : Semantics} {mode : TraceMode} {ρ : Assignment τ} {t t₁ t₂ : Term}

/-- The store at a point does not depend on a position that is bound around it. -/
theorem Steady.pointStore (h : M.Steady ρ t) (mode : TraceMode) (v : Value τ) :
    M.pointStore mode (Function.update ρ "pos" v) t = M.pointStore mode ρ t := by
  have htrace : traceValues mode (Function.update ρ "pos" v) = traceValues mode ρ := by
    cases mode <;> simp [traceValues]
  simp only [Interpretation.pointStore, h v, htrace]

/-- Formulas that say one condition each hold together if and only if all the conditions do. -/
theorem forall_holds_iff {α : Type*} {condition : α → Prop} {as : List α} {fs : List Formula}
    (h : List.Forall₂ (fun a f => M.Holds ρ f ↔ condition a) as fs) :
    (∀ f ∈ fs, M.Holds ρ f) ↔ ∀ a ∈ as, condition a := by
  induction h with
  | nil => simp
  | cons hf _ ih =>
    rw [List.forall_mem_cons, List.forall_mem_cons]
    exact and_congr hf ih

/-- A formula holds for all positions if it holds for each of them. -/
theorem holds_forAllPositions (f : Formula) :
    M.Holds ρ (.quantified .all [Symbol.position] f) ↔
      ∀ i : Int, M.Holds (Function.update ρ "pos" (.int i)) f :=
  M.holds_forall_int ρ _ f

/-- A variable is kept if the stores at the two points agree on it. -/
theorem holds_frame_point (h₁ : M.Steady ρ t₁) (h₂ : M.Steady ρ t₂) (x : Variable) :
    M.Holds ρ (mode.frame t₁ t₂ x) ↔
      Store.AgreeAt x (M.pointStore mode ρ t₁) (M.pointStore mode ρ t₂) := by
  unfold TraceMode.frame Store.AgreeAt
  split
  · rw [holds_forAllPositions, funext_iff]
    refine forall_congr' fun i => ?_
    have hposition := M.eval_position ρ i
    rw [Holds, eval_element mode x hposition, eval_element mode x hposition, h₁.pointStore,
      h₂.pointStore, Value.int.injEq]
  · rw [Holds, eval_value, eval_value, Value.int.injEq]

/-- The frames of variables hold if and only if the stores at the two points agree on the
variables. -/
theorem holds_sameValues_point (h₁ : M.Steady ρ t₁) (h₂ : M.Steady ρ t₂) {xs : List Variable}
    {fs : List Formula} (h : (S.sameValues t₁ t₂ xs).outcome = .ok fs) :
    (∀ f ∈ fs, M.Holds ρ f) ↔
      ∀ x ∈ xs, Store.AgreeAt x (M.pointStore S.mode ρ t₁) (M.pointStore S.mode ρ t₂) := by
  rw [Semantics.sameValues_eq_ok h, List.forall_mem_map]
  exact forall₂_congr fun x _ => holds_frame_point h₁ h₂ x

/-- Each conjunct of an update says one condition on the stores at the two points. -/
theorem holds_update_point (h₁ : M.Steady ρ t₁) (h₂ : M.Steady ρ t₂) {target : Target Variable}
    {value : IntExpr Variable} {fs : List Formula}
    (h : (S.update t₁ t₂ value target).outcome = .ok fs) :
    List.Forall₂ (fun P f => M.Holds ρ f ↔ P)
      (target.conditions value (M.pointStore S.mode ρ t₁) (M.pointStore S.mode ρ t₂)) fs := by
  cases target with
  | scalar x =>
    simp only [Semantics.update, outcome_bind_eq_ok, outcome_pure] at h
    obtain ⟨new, hnew, old, hold, f, hf, hfs⟩ := h
    cases hfs
    obtain rfl := Formula.equal?_eq_ok hf
    refine .cons ?_ .nil
    rw [Holds, eval_valueAt_point hnew, eval_intTerm_point hold, Value.int.injEq]
  | element a index =>
    simp only [Semantics.update, Semantics.forAllPositions_eq, pure_bind, outcome_bind_eq_ok,
      outcome_pure] at h
    obtain ⟨i, hi, new, hnew, old, hold, written, hwritten, other, hother, after, hafter, before,
      hbefore, kept, hkept, hfs⟩ := h
    cases hfs
    obtain rfl := Formula.equal?_eq_ok hwritten
    obtain rfl := Formula.distinct?_eq_ok hother
    obtain rfl := Formula.equal?_eq_ok hkept
    refine .cons ?_ (.cons ?_ .nil)
    · rw [Holds, eval_elementAt_point (eval_intTerm_point hi) hnew, eval_intTerm_point hold,
        Value.int.injEq]
    · -- the index is a term at the first point, and so it does not depend on the bound position
      rw [holds_forAllPositions]
      refine forall_congr' fun k => ?_
      rw [Holds, Holds, Holds, M.eval_position, eval_intTerm_point hi, h₁.pointStore,
        eval_elementAt_point (M.eval_position ρ k) hafter,
        eval_elementAt_point (M.eval_position ρ k) hbefore, h₁.pointStore, h₂.pointStore, ne_eq,
        Value.int.injEq, Value.int.injEq]

end Interpretation

end TraceLogic
