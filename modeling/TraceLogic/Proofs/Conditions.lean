import TraceLogic.Proofs.Concurrency
import TraceLogic.Proofs.Meaning

/-!
# What the problem of a program says

The axiom of a function holds in an interpretation if and only if the chronicle of the
interpretation obeys the statements of the function, for every trace if there are two. The
conjecture holds if and only if there is a postcondition and every postcondition is true in the
store at the end of its function.
-/

namespace TraceLogic

open Construction Statement Timeline

variable {τ : SortSymbol → Type}

/-- The arguments that can stand for a trace: none, or one trace. -/
def TraceMode.Tail : TraceMode → List (Value τ) → Prop
  | .one, tail => tail = []
  | .two, tail => ∃ t : τ .trace, tail = [.element .trace t]

/-- The point at which a function ends. -/
def Function.endPoint (f : Function) : Point := ⟨functionEnd f.name, []⟩

namespace Semantics

variable {S : Semantics}

/-- A postcondition has a formula if there is a postcondition. -/
theorem postcondition_eq_none_iff {f : Function} (hcovers : S.timeline.Covers f)
    {part : Option Formula} (h : (S.postcondition f).outcome = .ok part) :
    part = none ↔ f.postcondition = none := by
  unfold postcondition at h
  rw [hcovers.functionEnd] at h
  cases hpost : f.postcondition with
  | none =>
    rw [hpost] at h
    cases h
    simp
  | some post =>
    simp only [hpost, forAllTraces_eq, pure_bind, outcome_bind_eq_ok, outcome_pure] at h
    obtain ⟨holds, _, hpart⟩ := h
    cases hpart
    simp

/-- The conjecture has no parts if there is no postcondition. -/
theorem postconditions_eq_nil_iff {functions : List Function}
    (hcovers : ∀ f ∈ functions, S.timeline.Covers f) {posts : List (Option Formula)}
    (h : (each S.postcondition functions).outcome = .ok posts) :
    posts.filterMap id = [] ↔ ∀ f ∈ functions, f.postcondition = none := by
  have hall := forall₂_of_each h
  clear h
  induction hall with
  | nil => simp
  | @cons f part functions posts hf _ ih =>
    obtain ⟨hcoversFirst, hcovers⟩ := List.forall_mem_cons.mp hcovers
    have hrest : posts.filterMap id = [] ↔ ∀ f ∈ functions, f.postcondition = none := ih hcovers
    rw [List.forall_mem_cons, ← postcondition_eq_none_iff hcoversFirst hf, ← hrest]
    cases part <;> simp

end Semantics

namespace Interpretation

variable {M : Interpretation τ} {S : Semantics} {ρ : Assignment τ}

/-- A formula whose truth does not depend on an assignment is satisfied if and only if it holds. -/
theorem satisfies_iff_of_forall {f : Formula} {P : Prop} (h : ∀ ρ, M.Holds ρ f ↔ P) :
    M.Satisfies f ↔ P :=
  ⟨fun hf => (h fun _ => .int 0).mp (hf _), fun hp ρ => (h ρ).mpr hp⟩

/-- A formula for all traces holds if it holds for each of them. -/
theorem holds_overTraces {f : Formula} {P : List (Value τ) → Prop}
    (h : ∀ {ρ : Assignment τ} {tail : List (Value τ)}, M.Situated S.mode tail [] [] ρ →
      (M.Holds ρ f ↔ P tail)) :
    M.Holds ρ (S.overTraces f) ↔ ∀ tail, S.mode.Tail tail → P tail := by
  obtain ⟨mode, tl⟩ := S
  cases mode with
  | one =>
    have hρ : M.Situated .one [] [] [] ρ := ⟨rfl, rfl⟩
    simp only [Semantics.overTraces, TraceMode.traceSymbol?, TraceMode.Tail, forall_eq]
    exact h hρ
  | two =>
    have hρ (t : τ .trace) : M.Situated .two [.element .trace t] [] []
        (Function.update ρ "tr" (.element .trace t)) := by
      refine ⟨?_, rfl⟩
      simp [TraceMode.traceArgs, evalAll, eval, Symbol.trace, Symbol.bound]
    simp only [Semantics.overTraces, TraceMode.traceSymbol?, TraceMode.Tail, Symbol.trace,
      holds_forall_trace]
    constructor
    · rintro hall _ ⟨t, rfl⟩
      exact (h (hρ t)).mp (hall t)
    · intro hall t
      exact (h (hρ t)).mpr (hall _ ⟨t, rfl⟩)

/-- Quantifying each formula of a list over the traces is quantifying all of them at once. -/
theorem holds_map_overTraces (fs : List Formula) :
    (∀ f ∈ fs.map S.overTraces, M.Holds ρ f) ↔
      M.Holds ρ (S.overTraces (.conjunction fs)) := by
  obtain ⟨mode, tl⟩ := S
  cases mode with
  | one => simp [Semantics.overTraces, TraceMode.traceSymbol?]
  | two =>
    simp only [Semantics.overTraces, TraceMode.traceSymbol?, Symbol.trace, List.forall_mem_map,
      holds_forall_trace, holds_conjunction]
    exact ⟨fun h t f hf => h f hf t, fun h f hf t => h t f hf⟩

/-- The axiom of a function holds if and only if the chronicle of each trace obeys the function's
statements. -/
theorem satisfies_function_iff {f : Function} (hf : f.Formed) (hlocations : f.locations.Nodup)
    (hcovers : S.timeline.Covers f) {φ : Formula} (h : (S.function f).outcome = .ok φ) :
    M.Satisfies φ ↔ ∀ tail, S.mode.Tail tail →
      (M.chronicle tail f.declared).BlockObeys [] f.endPoint f.statements := by
  simp only [Semantics.function_eq, outcome_bind_eq_ok, outcome_pure] at h
  obtain ⟨fs, hfs, hφ⟩ := h
  cases hφ
  apply satisfies_iff_of_forall
  intro ρ
  rw [holds_withLabel, holds_conjunction, holds_map_overTraces]
  apply holds_overTraces
  intro ρ tail hρ
  rw [holds_conjunction]
  exact holds_block_iff hf.declared_nodup (hcovers.knows hf hlocations) hρ (hρ.denotes_point _) hfs

/-- Whether all postconditions of functions are true where the functions end, in each trace. -/
def PostconditionsHold (M : Interpretation τ) (mode : TraceMode) (functions : List Function) :
    Prop :=
  ∀ f ∈ functions, ∀ post, f.postcondition = some post → ∀ tail, mode.Tail tail →
    (M.storeAt tail (M.moment f.endPoint)).test post = true

/-- The formula of a postcondition, if there is one, says that it is true at the end of its
function. -/
theorem holds_postcondition_iff {f : Function} (hcovers : S.timeline.Covers f)
    {part : Option Formula} (h : (S.postcondition f).outcome = .ok part) :
    (∀ φ, part = some φ → M.Holds ρ φ) ↔ M.PostconditionsHold S.mode [f] := by
  unfold Semantics.postcondition at h
  rw [hcovers.functionEnd] at h
  cases hpost : f.postcondition with
  | none =>
    rw [hpost] at h
    cases h
    simp [PostconditionsHold, hpost]
  | some post =>
    simp only [hpost, Semantics.forAllTraces_eq, pure_bind, outcome_bind_eq_ok, outcome_pure] at h
    obtain ⟨holds, hholds, hpart⟩ := h
    cases hpart
    simp only [PostconditionsHold, List.forall_mem_singleton, hpost, Option.some.injEq, forall_eq',
      holds_withLabel]
    apply holds_overTraces
    intro ρ tail hρ
    exact holds_boolFormula hρ.trace (hρ.denotes_point _).eval hholds

/-- The parts of the conjecture are the postconditions. The induction is over the functions. -/
theorem holds_postconditions_iff {functions : List Function}
    (hcovers : ∀ f ∈ functions, S.timeline.Covers f) {posts : List (Option Formula)}
    (h : (each S.postcondition functions).outcome = .ok posts) :
    (∀ φ ∈ posts.filterMap id, M.Holds ρ φ) ↔ M.PostconditionsHold S.mode functions := by
  have hall := forall₂_of_each h
  clear h
  induction hall with
  | nil => simp [PostconditionsHold]
  | @cons f part functions posts hf _ ih =>
    obtain ⟨hcoversFirst, hcovers⟩ := List.forall_mem_cons.mp hcovers
    have hfirst := holds_postcondition_iff (M := M) (ρ := ρ) hcoversFirst hf
    have hsplit : M.PostconditionsHold S.mode (f :: functions) ↔
        M.PostconditionsHold S.mode [f] ∧ M.PostconditionsHold S.mode functions := by
      unfold PostconditionsHold
      rw [List.forall_mem_cons, List.forall_mem_singleton]
    have hrest : (∀ φ ∈ posts.filterMap id, M.Holds ρ φ) ↔
        M.PostconditionsHold S.mode functions := ih hcovers
    rw [hsplit, ← hfirst, ← hrest]
    cases part <;> simp

/-- The conjecture says that there is a postcondition and that every postcondition is true at the
end of its function. -/
theorem satisfies_conjecture_iff {p : Program} (hcovers : ∀ f ∈ p.functions, S.timeline.Covers f)
    {goal : Formula} (h : (S.conjecture p).outcome = .ok goal) :
    M.Satisfies goal ↔
      (∃ f ∈ p.functions, f.postcondition ≠ none) ∧ M.PostconditionsHold S.mode p.functions := by
  simp only [Semantics.conjecture, outcome_bind_eq_ok] at h
  obtain ⟨posts, hposts, hgoal⟩ := h
  apply satisfies_iff_of_forall
  intro ρ
  have hnone := Semantics.postconditions_eq_nil_iff hcovers hposts
  have hparts := holds_postconditions_iff (M := M) (ρ := ρ) hcovers hposts
  have hsome : posts.filterMap id ≠ [] ↔ ∃ f ∈ p.functions, f.postcondition ≠ none := by
    rw [ne_eq, hnone, not_forall]
    exact exists_congr fun f => Classical.not_imp
  rw [← hsome, ← hparts]
  generalize posts.filterMap id = parts at hgoal
  cases parts with
  | nil =>
    obtain rfl : goal = .predicate (Interpreted.truthSymbol false) [] :=
      Formula.predicate?_eq_ok hgoal
    simp [Holds, evalAll]
  | cons part parts =>
    cases hgoal
    simp

end Interpretation

/-! ## Programs -/

/-- The axioms of a program are the meanings of its functions, in order. -/
theorem Semantics.functions_of_program {S : Semantics} {p : Program} {axioms : List Formula}
    (h : (S.program p).outcome = .ok axioms) :
    List.Forall₂ (fun f φ => (S.function f).outcome = .ok φ) p.functions axioms := by
  simp only [Semantics.program, outcome_bind_eq_ok] at h
  obtain ⟨_, _, h⟩ := h
  exact forall₂_of_each h

namespace Program

variable {p : Program} {S : Semantics} {axioms : List Formula} {M : Interpretation τ}

/-- The points of one function are different, since those of the program are. -/
theorem Formed.function_locations_nodup (hp : p.Formed) {f : Function} (hf : f ∈ p.functions) :
    f.locations.Nodup :=
  (List.nodup_flatMap.mp hp.locations_nodup).1 f hf

/-- No point of a function is named like the last iteration of a loop. -/
theorem Formed.lastName_ne_location (hp : p.Formed) {f : Function} (hf : f ∈ p.functions)
    {q : Point} (hq : Chronicle.InBlock [] f.endPoint f.statements q) {loop : String}
    (hloop : loop ∈ p.loops) : lastName loop ≠ q.location :=
  hp.lastName_ne hloop (List.mem_flatMap.mpr ⟨f, hf, hq.location_mem⟩)

/-- The axiom of one function. -/
theorem Formed.satisfies_axiom_iff (hp : p.Formed)
    (hcovers : ∀ f ∈ p.functions, S.timeline.Covers f) (h : (S.program p).outcome = .ok axioms)
    {f : Function} {φ : Formula} (hφ : (f, φ) ∈ p.functions.zip axioms) :
    M.Satisfies φ ↔ ∀ tail, S.mode.Tail tail →
      (M.chronicle tail f.declared).BlockObeys [] f.endPoint f.statements := by
  have hf := (List.of_mem_zip hφ).1
  have houtcome := (List.forall₂_iff_zip.mp (Semantics.functions_of_program h)).2 hφ
  exact Interpretation.satisfies_function_iff (hp.functions f hf) (hp.function_locations_nodup hf)
    (hcovers f hf) houtcome

/-- All axioms of a program. -/
theorem Formed.satisfies_axioms_iff (hp : p.Formed)
    (hcovers : ∀ f ∈ p.functions, S.timeline.Covers f) (h : (S.program p).outcome = .ok axioms) :
    (∀ φ ∈ axioms, M.Satisfies φ) ↔ ∀ f ∈ p.functions, ∀ tail, S.mode.Tail tail →
      (M.chronicle tail f.declared).BlockObeys [] f.endPoint f.statements := by
  have hall := Semantics.functions_of_program h
  have hlength := hall.length_eq
  constructor
  · intro haxioms f hf
    obtain ⟨i, hi, rfl⟩ := List.mem_iff_getElem.mp hf
    have hmem : (p.functions[i], axioms[i]) ∈ p.functions.zip axioms :=
      List.mem_iff_getElem.mpr ⟨i, by simp [hi, ← hlength], by simp⟩
    exact (hp.satisfies_axiom_iff hcovers h hmem).mp (haxioms _ (List.of_mem_zip hmem).2)
  · intro hfunctions φ hφ
    obtain ⟨i, hi, rfl⟩ := List.mem_iff_getElem.mp hφ
    have hmem : (p.functions[i], axioms[i]) ∈ p.functions.zip axioms :=
      List.mem_iff_getElem.mpr ⟨i, by simp [hi, hlength], by simp⟩
    exact (hp.satisfies_axiom_iff hcovers h hmem).mpr (hfunctions _ (List.of_mem_zip hmem).1)

end Program

/-! ## Problems -/

namespace Semantics

variable {S : Semantics} {p : Program} {schedule : Option Schedule} {v w : Vocabulary}
  {symbols : List Symbol} {fault : Fault}

/-- The problem of a program as one construction, in which the functions come one after the
other. -/
def posed (S : Semantics) (p : Program) : Construction Problem := do
  S.mode.prepare
  let axioms ← S.program p
  let goal ← S.conjecture p
  pure { axioms, conjecture := some goal }

/-- Under every schedule, the meanings of the functions are those that they have one after the
other, and what has been granted is what is asked for then. -/
theorem axioms_eq_ok {axioms : List Formula}
    (h : (S.axioms schedule p).run.run v = (.ok axioms, w)) :
    (S.program p).outcome = .ok axioms ∧ v.Reaches (S.program p).requests w := by
  cases schedule with
  | none => exact ⟨(run_eq_ok.mp h).1, reaches_of_run h⟩
  | some schedule =>
    obtain ⟨_, u, hdeclare, htasks⟩ := Building.run_bind_eq_ok.mp h
    rw [Building.run_lift] at hdeclare
    obtain ⟨houtcomes, hreaches⟩ := Schedule.reaches_of_carryOut htasks
    obtain ⟨houtcome, hrequests⟩ := each_of_outcomes houtcomes
    have hdeclared := (run_eq_ok.mp hdeclare).1
    rw [program, requests_bind, hdeclared, hrequests]
    exact ⟨outcome_bind_eq_ok.mpr ⟨_, hdeclared, houtcome⟩,
      (reaches_of_run hdeclare).append hreaches⟩

/-- Under every schedule, what fails is a clash. -/
theorem clashes_of_axioms {axioms : List Formula} (hok : (S.program p).outcome = .ok axioms)
    (hv : v.symbols ⊆ symbols) (hrequests : symbolsOf (S.program p).requests ⊆ symbols)
    (h : (S.axioms schedule p).run.run v = (.error fault, w)) : Clashes symbols fault := by
  cases schedule with
  | none =>
    refine clashes_of_run (fun other hother => ?_) hv hrequests (congrArg Prod.fst h)
    cases hok.symm.trans hother
  | some schedule =>
    obtain ⟨_, hdeclared, heach⟩ := outcome_bind_eq_ok.mp hok
    rw [program, requests_bind, hdeclared, symbolsOf_append, List.append_subset] at hrequests
    rcases Building.run_bind_eq_error.mp h with hdeclare | ⟨_, u, hdeclare, htasks⟩
    · refine clashes_of_run (fun other hother => ?_) hv hrequests.1 (congrArg Prod.fst hdeclare)
      cases hdeclared.symm.trans hother
    · rw [Building.run_lift] at hdeclare
      refine Schedule.clashes_of_carryOut ((reaches_of_run hdeclare).symbols_subset hv hrequests.1)
        (List.forall_mem_map.mpr fun f hf => ?_) (List.forall_mem_map.mpr fun f hf => ?_) htasks
      · intro s hs
        exact hrequests.2 (mem_symbolsOf.mpr (mem_requests_each heach hf (mem_symbolsOf.mp hs)))
      · obtain ⟨φ, _, hφ⟩ := exists_of_mem_each heach hf
        exact ⟨φ, hφ⟩

/-- The stages in which a problem is built: the sorts, the meanings of the functions and the
conjecture. -/
theorem stages_of_problem {problem : Problem}
    (h : (S.problem schedule p).run.run v = (.ok problem, w)) :
    ∃ u axioms u' goal, S.mode.prepare.run v = (.ok (), u) ∧
      (S.axioms schedule p).run.run u = (.ok axioms, u') ∧
      (S.conjecture p).run u' = (.ok goal, w) ∧
      problem = { axioms, conjecture := some goal } := by
  obtain ⟨_, u, hprepare, h⟩ := Building.run_bind_eq_ok.mp h
  obtain ⟨axioms, u', haxioms, h⟩ := Building.run_bind_eq_ok.mp h
  obtain ⟨goal, w', hgoal, h⟩ := Building.run_bind_eq_ok.mp h
  rw [Building.run_pure] at h
  cases h
  exact ⟨u, axioms, u', goal, hprepare, haxioms, hgoal, rfl⟩

/-- A problem that is built under some schedule is the one that is built with the functions one
after the other, and what has been granted is what is asked for then. -/
theorem problem_eq_ok {problem : Problem}
    (h : (S.problem schedule p).run.run v = (.ok problem, w)) :
    (S.posed p).outcome = .ok problem ∧ v.Reaches (S.posed p).requests w := by
  obtain ⟨u, axioms, u', goal, hprepare, haxioms, hgoal, rfl⟩ := stages_of_problem h
  obtain ⟨houtcome, hreaches⟩ := axioms_eq_ok haxioms
  have hprepared := (run_eq_ok.mp hprepare).1
  have hconjecture := (run_eq_ok.mp hgoal).1
  constructor
  · exact outcome_bind_eq_ok.mpr ⟨_, hprepared, outcome_bind_eq_ok.mpr ⟨axioms, houtcome,
      outcome_bind_eq_ok.mpr ⟨goal, hconjecture, rfl⟩⟩⟩
  · simp only [posed, requests_bind, hprepared, houtcome, hconjecture, requests_pure,
      List.append_nil]
    exact (reaches_of_run hprepare).append (hreaches.append (reaches_of_run hgoal))

/-- What a problem consists of. -/
theorem parts_of_problem {problem : Problem}
    (h : (S.problem schedule p).run.run v = (.ok problem, w)) :
    ∃ goal, (S.program p).outcome = .ok problem.axioms ∧ (S.conjecture p).outcome = .ok goal ∧
      problem.conjecture = some goal := by
  have houtcome := (problem_eq_ok h).1
  simp only [posed, outcome_bind_eq_ok, outcome_pure] at houtcome
  obtain ⟨_, _, axioms, haxioms, goal, hgoal, hproblem⟩ := houtcome
  cases hproblem
  exact ⟨goal, haxioms, hgoal, rfl⟩

/-- If building a problem fails under some schedule, it is a clash. -/
theorem clashes_of_problem {problem : Problem} (hok : (S.posed p).outcome = .ok problem)
    (hv : v.symbols ⊆ symbols) (hrequests : symbolsOf (S.posed p).requests ⊆ symbols)
    (h : (S.problem schedule p).run.run v = (.error fault, w)) : Clashes symbols fault := by
  obtain ⟨_, hprepared, hok⟩ := outcome_bind_eq_ok.mp hok
  obtain ⟨axioms, hprogram, hok⟩ := outcome_bind_eq_ok.mp hok
  obtain ⟨goal, hconjecture, _⟩ := outcome_bind_eq_ok.mp hok
  simp only [posed, requests_bind, hprepared, hprogram, hconjecture, requests_pure,
    List.append_nil, symbolsOf_append, List.append_subset] at hrequests
  obtain ⟨hprepareRequests, hprogramRequests, hconjectureRequests⟩ := hrequests
  rcases Building.run_bind_eq_error.mp h with h | ⟨_, u, hprepare, h⟩
  · refine clashes_of_run (fun other hother => ?_) hv hprepareRequests (congrArg Prod.fst h)
    cases hprepared.symm.trans hother
  have hu := symbols_run_subset hv hprepareRequests
  rw [Building.run_lift] at hprepare
  rw [hprepare] at hu
  rcases Building.run_bind_eq_error.mp h with h | ⟨_, u', haxioms, h⟩
  · exact clashes_of_axioms hprogram hu hprogramRequests h
  have hu' := (axioms_eq_ok haxioms).2.symbols_subset hu hprogramRequests
  rcases Building.run_bind_eq_error.mp h with h | ⟨_, u'', _, h⟩
  · refine clashes_of_run (fun other hother => ?_) hu' hconjectureRequests (congrArg Prod.fst h)
    cases hconjecture.symm.trans hother
  · cases h

end Semantics

namespace Program

variable {p : Program} {S : Semantics} {mode : TraceMode} {schedule : Option Schedule}

/-- A problem is generated in two runs, of which the second goes on where the first one ended. -/
theorem generate_eq_ok {g : Generated} :
    p.generate mode schedule = .ok g ↔ ∃ v, p.locate mode = .ok (g.timeline, v) ∧
      (Semantics.problem ⟨mode, g.timeline⟩ schedule p).run.run v =
        (.ok g.problem, g.vocabulary) := by
  unfold generate
  rw [bind_eq_ok]
  constructor
  · rintro ⟨⟨tl, v⟩, hlocate, hrun⟩
    simp only at hrun
    split at hrun
    · rename_i problem vocabulary hproblem
      cases hrun
      exact ⟨v, hlocate, hproblem⟩
    · cases hrun
  · rintro ⟨v, hlocate, hrun⟩
    refine ⟨(g.timeline, v), hlocate, ?_⟩
    simp only [hrun]

end Program

end TraceLogic
