import TraceLogic.Proofs.LoopHeads
import TraceLogic.Proofs.Update

/-!
# The frame of an assignment

The formula of an assignment is the conjunction of an update and a frame. `Semantics.mem_framed`
says which variables are framed, and `TraceMode.frame` is the conjunct of one of them. The main
statement, `Semantics.holds_assignment_iff`, is about all timelines, also those that no location
pass makes, as long as no position occurs in a point of time.
-/

namespace TraceLogic

open Construction

/-- The number of conjuncts that an update has. -/
def Target.conjuncts : Target Variable → Nat
  | .scalar _ => 1
  | .element _ _ => 2

namespace Interpretation

variable {τ : SortSymbol → Type} {M : Interpretation τ} {ρ : Assignment τ} {name : String}
  {v : Value τ}

mutual

/-- The value of a term does not depend on a name that no variable of the term has. -/
theorem eval_update_of_fresh : (t : Term) → (∀ x ∈ t.vars, x.name ≠ name) →
    M.eval (Function.update ρ name v) t = M.eval ρ t
  | .var x, h => by
    rw [eval, eval]
    exact Function.update_of_ne (h x List.mem_cons_self) v ρ
  | .app f ts, h => by rw [eval, eval, evalAll_update_of_fresh ts h]

/-- Terms that do not mention a name do not depend on its value. -/
theorem evalAll_update_of_fresh : (ts : List Term) → (∀ x ∈ Term.varsOf ts, x.name ≠ name) →
    M.evalAll (Function.update ρ name v) ts = M.evalAll ρ ts
  | [], _ => rfl
  | t :: ts, h => by
    obtain ⟨ht, hts⟩ := List.forall_mem_append.mp h
    rw [evalAll, evalAll, eval_update_of_fresh t ht, evalAll_update_of_fresh ts hts]

end

/-- A term that does not mention the position does not change with it. -/
theorem steady_of_fresh {t : Term} (h : ∀ x ∈ t.vars, x.name ≠ "pos") : M.Steady ρ t :=
  fun _ => eval_update_of_fresh t h

end Interpretation

namespace Semantics

variable {S : Semantics}

/-! ## The conjuncts -/

/-- An assignment to an element says one thing more than one to a scalar: that the other elements
stay. -/
theorem length_update {l₁ l₂ : Term} {value : IntExpr Variable} {target : Target Variable}
    {fs : List Formula} (h : (S.update l₁ l₂ value target).outcome = .ok fs) :
    fs.length = target.conjuncts := by
  cases target with
  | scalar x =>
    simp only [update, outcome_bind_eq_ok, outcome_pure] at h
    obtain ⟨_, _, _, _, f, _, hfs⟩ := h
    cases hfs
    rfl
  | element a index =>
    simp only [update, outcome_bind_eq_ok, outcome_pure, Semantics.forAllPositions_eq,
      pure_bind] at h
    obtain ⟨_, _, _, _, _, _, f, _, g, _, _, _, _, _, k, _, hfs⟩ := h
    cases hfs
    rfl

/-- The frame has the variables that matter at both points and can change, apart from the one that
is written to. -/
theorem mem_framed {target : Target Variable} {before after : VariableSet} {x : Variable} :
    x ∈ framed target before after ↔
      x ∈ before ∧ x ∈ after ∧ x.isConstant = false ∧ x.name ≠ target.written.name := by
  simp only [framed, List.mem_filter, mem_changing, VariableSet.mem_inter, decide_eq_true_eq,
    and_assoc]

/-- The frame of an assignment is in the order of variables, and so it has no variable twice. -/
theorem pairwise_framed (target : Target Variable) (before after : VariableSet) :
    (framed target before after).Pairwise Variable.Precedes :=
  ((before.inter after).sorted.filter _).filter _

/-! ## The meaning of an assignment -/

/-- The meaning of an assignment, from the two points and the variables that matter there. -/
theorem exists_of_assignment {site : Site} {target : Target Variable} {value : IntExpr Variable}
    {l₁ l₂ : Term} (hstart : S.timeline.starts.get? site.id = some l₁)
    (hstop : S.timeline.stops.get? site.id = some l₂) {φ : Formula}
    (h : (S.assignment site target value).outcome = .ok φ) :
    ∃ before after updates frame, S.timeline.active.get? l₁.head.name = some before ∧
      S.timeline.active.get? l₂.head.name = some after ∧
      (S.update l₁ l₂ value target).outcome = .ok updates ∧
      (S.sameValues l₂ l₁ (framed target before after)).outcome = .ok frame ∧
      φ = (Formula.conjunction (updates ++ frame)).withLabel
        (updateLabel site.location target) := by
  simp only [assignment, startOf_eq_found, stopOf_eq_found, activeAt_eq_found, outcome_bind_eq_ok,
    found_eq_ok, hstart, hstop, outcome_pure] at h
  obtain ⟨t₁, h₁, t₂, h₂, before, hbefore, after, hafter, updates, hupdates, frame, hframe, hφ⟩ := h
  cases h₁
  cases h₂
  cases hφ
  exact ⟨before, after, updates, frame, hbefore, hafter, hupdates, hframe, rfl⟩

/-- The meaning of an assignment is its update, followed by one conjunct for each variable that
matters before and after it, can change and is not named like the target. It holds if the target is
updated and these variables are kept. -/
theorem holds_assignment_iff {site : Site} {target : Target Variable} {value : IntExpr Variable}
    {l₁ l₂ : Term} (hstart : S.timeline.starts.get? site.id = some l₁)
    (hstop : S.timeline.stops.get? site.id = some l₂) (hl₁ : ∀ x ∈ l₁.vars, x.name ≠ "pos")
    (hl₂ : ∀ x ∈ l₂.vars, x.name ≠ "pos") {v w : Vocabulary} {φ : Formula}
    (hrun : (S.statement (.assign site target value)).run v = (.ok φ, w)) :
    ∃ (before after : VariableSet) (updates : List Formula) (kept : List Variable),
      S.timeline.active.get? l₁.head.name = some before ∧
      S.timeline.active.get? l₂.head.name = some after ∧
      φ = (Formula.conjunction (updates ++ kept.map (S.mode.frame l₂ l₁))).withLabel
        (updateLabel site.location target) ∧
      updates.length = target.conjuncts ∧ kept.Pairwise Variable.Precedes ∧
      (∀ x, x ∈ kept ↔
        x ∈ before ∧ x ∈ after ∧ x.isConstant = false ∧ x.name ≠ target.written.name) ∧
      ∀ (τ : SortSymbol → Type) (M : Interpretation τ) (ρ : Assignment τ),
        let σ₁ := M.pointStore S.mode ρ l₁
        let σ₂ := M.pointStore S.mode ρ l₂
        List.Forall₂ (fun P f => M.Holds ρ f ↔ P) (target.conditions value σ₁ σ₂) updates ∧
        (M.Holds ρ φ ↔
          (∀ P ∈ target.conditions value σ₁ σ₂, P) ∧ ∀ x ∈ kept, Store.AgreeAt x σ₂ σ₁) := by
  obtain ⟨before, after, updates, frame, hbefore, hafter, hupdates, hframe, hφ⟩ :=
    exists_of_assignment hstart hstop (run_eq_ok.mp hrun).1
  have hmap := sameValues_eq_ok hframe
  refine ⟨before, after, updates, framed target before after, hbefore, hafter, hmap ▸ hφ,
    length_update hupdates, pairwise_framed target before after, fun x => mem_framed, ?_⟩
  intro τ M ρ σ₁ σ₂
  have h₁ : M.Steady ρ l₁ := Interpretation.steady_of_fresh hl₁
  have h₂ : M.Steady ρ l₂ := Interpretation.steady_of_fresh hl₂
  have hconditions := Interpretation.holds_update_point h₁ h₂ hupdates
  refine ⟨hconditions, ?_⟩
  rw [hφ, Interpretation.holds_withLabel, Interpretation.holds_conjunction, List.forall_mem_append,
    Interpretation.forall_holds_iff hconditions, Interpretation.holds_sameValues_point h₂ h₁ hframe]

end Semantics

/-- An element is assigned at a position that is read from a scalar. -/
def Statement.storing : Statement :=
  .assign ⟨1, "l1"⟩ (.element ⟨"a", true, false⟩ (.variable ⟨"x", false, false⟩))
    (.arith .add (.variable ⟨"c", false, true⟩) (.literal 1))

/-- The variables of the assignment, a scalar that is named like the array, and two others. -/
def storingVariables (other : String) : List Variable :=
  [⟨"a", true, false⟩, ⟨"a", false, false⟩, ⟨"b", true, false⟩, ⟨"c", false, true⟩,
    ⟨"x", false, false⟩, ⟨other, false, false⟩]

/-- The points of the assignment, at each of which another scalar matters. -/
def Semantics.storing : Semantics where
  mode := .two
  timeline :=
    { starts := .insert .empty 1 (.point "l1" [])
      stops := .insert .empty 1 (.point "l2" [])
      active := (Table.empty.insert "l1" (.ofList (storingVariables "y"))).insert
        "l2" (.ofList (storingVariables "z")) }

/-- The array `b` and the scalar `x` are framed. -/
theorem Semantics.holds_assignment_storing :
    ∃ φ w, (storing.statement .storing).run .initial = (.ok φ, w) ∧
      ∀ (M : Interpretation fun _ => Unit) (ρ : Assignment fun _ => Unit),
        let σ₁ := M.pointStore .two ρ (.point "l1" [])
        let σ₂ := M.pointStore .two ρ (.point "l2" [])
        let i := σ₁.scalar ⟨"x", false, false⟩
        M.Holds ρ φ ↔
          (σ₂.array ⟨"a", true, false⟩ i = σ₁.scalar ⟨"c", false, true⟩ + 1 ∧
            ∀ k, k ≠ i → σ₂.array ⟨"a", true, false⟩ k = σ₁.array ⟨"a", true, false⟩ k) ∧
          σ₂.array ⟨"b", true, false⟩ = σ₁.array ⟨"b", true, false⟩ ∧
          σ₂.scalar ⟨"x", false, false⟩ = σ₁.scalar ⟨"x", false, false⟩ := by
  have hok : ((storing.statement .storing).run .initial).1.isOk = true := by decide +kernel
  obtain ⟨φ, w, hrun⟩ := exists_run_eq_ok hok
  refine ⟨φ, w, hrun, ?_⟩
  have hstart : storing.timeline.starts.get? 1 = some (.point "l1" []) := rfl
  have hstop : storing.timeline.stops.get? 1 = some (.point "l2" []) := rfl
  have hfresh : ∀ l, ∀ x ∈ (Term.point l []).vars, x.name ≠ "pos" := by
    simp [Term.point, Term.vars, Term.varsOf]
  obtain ⟨before, after, updates, kept, hbefore, hafter, _, _, _, hkept, hholds⟩ :=
    holds_assignment_iff hstart hstop (hfresh "l1") (hfresh "l2") hrun
  cases hbefore
  cases hafter
  have hmem : ∀ x, x ∈ kept ↔ x ∈ (storingVariables "y").filter fun x =>
      x ∈ storingVariables "z" ∧ x.isConstant = false ∧ x.name ≠ "a" := by
    intro x
    simp only [hkept, VariableSet.mem_ofList, Target.written, List.mem_filter, decide_eq_true_eq]
  have hfilter : ((storingVariables "y").filter fun x =>
      x ∈ storingVariables "z" ∧ x.isConstant = false ∧ x.name ≠ "a") =
      [⟨"b", true, false⟩, ⟨"x", false, false⟩] := by decide
  intro M ρ σ₁ σ₂ i
  rw [(hholds _ M ρ).2, Target.conditions, List.forall_mem_cons, List.forall_mem_singleton]
  simp only [hmem, hfilter]
  rw [List.forall_mem_cons, List.forall_mem_singleton]
  rfl

end TraceLogic
