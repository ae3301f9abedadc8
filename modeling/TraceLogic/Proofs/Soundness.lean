import TraceLogic.Proofs.Satisfiability

/-!
# What a valid problem says about executions

A problem is valid if its conjecture holds in every interpretation of its axioms. The axioms also
speak about code that an execution does not reach, so that validity is about initial stores from
which the speculative executions of all functions converge: for these, and only for these, the
ordinary executions end in stores that satisfy the postconditions (`problem_valid_iff`).

Stores from which some unreached code does not converge have no part in it. An endless loop in a
branch that is never taken makes the axioms contradictory, and every conjecture valid
(`untaken_branch_valid`).
-/

namespace TraceLogic

open Construction Statement

/-- Whether the conjecture of a problem follows from its axioms. -/
def Problem.Valid (problem : Problem) : Prop :=
  ∀ goal, problem.conjecture = some goal → ∀ (τ : SortSymbol → Type) (M : Interpretation τ),
    (∀ φ ∈ problem.axioms, M.Satisfies φ) → M.Satisfies goal

/-- Whether functions end in stores that satisfy their postconditions, from given stores. A function
that does not terminate satisfies every postcondition. -/
def Function.Correct (f : Function) (σ : Store) : Prop :=
  ∀ post, f.postcondition = some post → ∀ exits τ, Executes [] 0 f.statements σ exits τ →
    τ.test post = true

/-- The store in which a run ends decides whether its function is correct from the store in which
the run starts. -/
theorem Function.correct_iff {f : Function} (hf : f.Formed) {σ τ : Store}
    (hspeculates : Speculates f.statements (σ.restrict f.declared) τ) :
    f.Correct σ ↔ ∀ post, f.postcondition = some post → τ.test post = true := by
  have htotal := hspeculates.of_restrict hf.statements
  obtain ⟨exits, hexecutes, _⟩ := htotal.executes []
  refine forall₂_congr fun post hpost => ?_
  rw [← Store.test_merge τ σ (hf.postcondition post hpost)]
  constructor
  · intro hcorrect
    exact hcorrect exits _ hexecutes
  · intro htest exits' τ' hexecutes'
    rw [← (hexecutes.deterministic hexecutes').2]
    exact htest

/-- A generated problem is valid if and only if there is a postcondition and every function is
correct from every store, as long as the speculative executions of all functions converge from
stores that have the same constants. -/
theorem problem_valid_iff {source : String} {p : Program} (hload : Program.load source = .ok p)
    {schedule : Option Schedule} {g : Generated} (hgenerate : p.generate .one schedule = .ok g) :
    g.problem.conjecture ≠ none ∧
    (g.problem.Valid ↔ ∀ (κ : Store) (σ : Function → Store),
      (∀ f ∈ p.functions, ∀ x ∈ f.declared, x.isConstant = true → Store.AgreeAt x (σ f) κ) →
      (∀ f ∈ p.functions, ∃ τ, Speculates f.statements (σ f) τ) →
      (∃ f ∈ p.functions, f.postcondition ≠ none) ∧ ∀ f ∈ p.functions, f.Correct (σ f)) := by
  have hp := Program.formed_of_load hload
  obtain ⟨v, hlocate, hrun⟩ := Program.generate_eq_ok.mp hgenerate
  obtain ⟨goal, haxioms, hgoal, hconjecture⟩ := Semantics.parts_of_problem hrun
  have hcovers := hp.covers hlocate
  refine ⟨by simp [hconjecture], ?_, ?_⟩
  · intro hvalid κ σ hconstants hconverges
    obtain ⟨M, _, hfunctions⟩ := hp.exists_interpretation hconstants hconverges
    have hsatisfied : ∀ φ ∈ g.problem.axioms, M.Satisfies φ := by
      refine (hp.satisfies_axioms_iff hcovers haxioms).mpr ?_
      rintro f hf _ rfl
      exact (hfunctions f hf).1
    have hholds := hvalid goal hconjecture _ M hsatisfied
    rw [Interpretation.satisfies_conjecture_iff hcovers hgoal,
      Interpretation.postconditionsHold_one_iff hp.functions] at hholds
    refine ⟨hholds.1, fun f hf => ?_⟩
    obtain ⟨hobeys, hstart⟩ := hfunctions f hf
    have hspeculates := (Interpretation.run_of_blockObeys hobeys).1
    rw [Interpretation.storeOf_blockStartTerm, hstart] at hspeculates
    exact (Function.correct_iff (hp.functions f hf) hspeculates).mpr (hholds.2 f hf)
  · intro hcorrect goal' hgoal' τ M hsatisfied
    obtain rfl := Option.some.inj (hconjecture.symm.trans hgoal')
    have hobeys := (hp.satisfies_axioms_iff hcovers haxioms).mp hsatisfied
    -- the interpretation itself gives the constants and the initial stores
    let σ (f : Function) : Store := M.storeAt [] (M.moment (blockStart [] f.endPoint f.statements))
    have hspeculates : ∀ f ∈ p.functions,
        Speculates f.statements ((σ f).restrict f.declared) (M.storeOf f f.endTerm) := by
      intro f hf
      have hrun := (Interpretation.run_of_blockObeys (hobeys f hf [] rfl)).1
      rwa [Interpretation.storeOf_blockStartTerm] at hrun
    obtain ⟨hpost, hfunctions⟩ := hcorrect (M.storeAt [] 0) σ
      (fun f _ x _ hx => Interpretation.agreeAt_of_isConstant hx _ _)
      (fun f hf => ⟨_, (hspeculates f hf).of_restrict (hp.functions f hf).statements⟩)
    rw [Interpretation.satisfies_conjecture_iff hcovers hgoal,
      Interpretation.postconditionsHold_one_iff hp.functions]
    refine ⟨hpost, fun f hf => ?_⟩
    exact (Function.correct_iff (hp.functions f hf) (hspeculates f hf)).mp (hfunctions f hf)

/-- A loop is left only where its condition fails. -/
theorem Statement.Executes.test_of_loop {ι : List Nat} {i : Nat} {site : Site}
    {enclosing : List String} {c : BoolExpr Variable} {body : List Statement} {σ τ : Store}
    {exits : List LoopExit} (h : Executes ι i [.loop site enclosing c body] σ exits τ) :
    τ.test c = false := by
  generalize hb : [Statement.loop site enclosing c body] = b at h
  induction h with
  | again _ _ _ _ ih => exact ih hb
  | leave htest hrest =>
    cases hb
    cases hrest
    exact htest
  | done => cases hb
  | assign => cases hb
  | skip => cases hb
  | branch => cases hb

/-- The problem of the counting function is valid, since the function is correct from every
store. -/
theorem problem_valid_counting :
    ∃ p g, Program.load countingSource = .ok p ∧ p.generate .one (some {}) = .ok g ∧
      g.problem.Valid := by
  obtain ⟨g, hgenerate⟩ : ∃ g, countingProgram.generate .one (some {}) = .ok g :=
    exists_eq_ok_of_isOk (by decide +kernel)
  refine ⟨_, g, load_countingSource, hgenerate, ?_⟩
  refine (problem_valid_iff load_countingSource hgenerate).2.mpr fun κ σ _ _ => ⟨?_, ?_⟩
  · exact ⟨_, List.mem_cons_self, by simp⟩
  · intro f hf post hpost exits τ hexecutes
    obtain rfl := List.mem_singleton.mp hf
    cases hpost
    have hexit := of_decide_eq_false hexecutes.test_of_loop
    exact decide_eq_true (Int.not_lt.mp hexit)

/-! ## Code that is not reached -/

/-- A function whose branch is never taken. The branch does not terminate, and the postcondition is
false. -/
def untakenSource : String :=
  "[[[\"f\",[],[\x7b\"if\":[\x7b\"bool\":false\x7d," ++
    "[\x7b\"while\":[\x7b\"bool\":true\x7d]\x7d]]\x7d],\x7b\"bool\":false\x7d]]]"

/-- The program that is loaded from it. -/
def untakenProgram : Program :=
  ⟨[⟨"f", [],
    [.branch ⟨1, "l1"⟩ (.constant false) [.loop ⟨2, "l2"⟩ [] (.constant true) [.skip ⟨3, "l3"⟩]]
      [.skip ⟨4, "l4"⟩]],
    some (.constant false)⟩]⟩

/-- What loading gives for the function whose branch is never taken. -/
theorem load_untakenSource : Program.load untakenSource = .ok untakenProgram := by
  apply toOption_eq_some.mp
  decide +kernel

/-- A valid problem of a function that terminates in a store in which its postcondition is false. -/
theorem untaken_branch_valid :
    ∃ p g, Program.load untakenSource = .ok p ∧ p.generate .one none = .ok g ∧ g.problem.Valid ∧
      ∃ f ∈ p.functions, ∃ post σ exits τ, f.postcondition = some post ∧
        Executes [] 0 f.statements σ exits τ ∧ τ.test post = false := by
  obtain ⟨g, hgenerate⟩ : ∃ g, untakenProgram.generate .one none = .ok g :=
    exists_eq_ok_of_isOk (by decide +kernel)
  refine ⟨_, g, load_untakenSource, hgenerate, ?_, _, List.mem_cons_self, _, .zero, [], .zero, rfl,
    ?_, rfl⟩
  · intro goal _ τ M hsatisfied
    have hp := Program.formed_of_load load_untakenSource
    obtain ⟨v, hlocate, hrun⟩ := Program.generate_eq_ok.mp hgenerate
    obtain ⟨_, haxioms, _, _⟩ := Semantics.parts_of_problem hrun
    have hobeys := (hp.satisfies_axioms_iff (hp.covers hlocate) haxioms).mp hsatisfied _
      List.mem_cons_self [] rfl
    -- the condition of the loop in the branch would have to fail in its last iteration
    obtain ⟨⟨_, _, ⟨⟨_, _, _, hends, _⟩, _⟩, _⟩, _⟩ := hobeys
    exact absurd hends (by simp [Store.test])
  · have hskip : ∀ c, Store.zero.test c = false → Executes [] 0
        (if Store.zero.test c then [.loop ⟨2, "l2"⟩ [] (.constant true) [.skip ⟨3, "l3"⟩]]
          else [.skip ⟨4, "l4"⟩]) .zero [] .zero := by
      intro c hc
      rw [hc]
      exact .skip .done
    exact .branch (hskip _ rfl) .done

end TraceLogic
