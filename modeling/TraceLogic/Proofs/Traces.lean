import TraceLogic.Proofs.Totality
import TraceLogic.Proofs.Adequacy

/-!
# Two traces

When two executions are related, every variable and every last iteration has a trace as its last
argument. Fixing that argument gives one interpretation for each trace; locations stay as they are.
A problem about two traces is generated whenever one about a single trace is, and it says of every
trace what the other one says of the only one.
-/

namespace TraceLogic

open Construction Statement Timeline

variable {τ : SortSymbol → Type}

namespace Interpretation

/-- The interpretation at one trace. The last iterations are those of the given loops. -/
def atTrace (M : Interpretation τ) (loops : List String) (t : τ .trace) : Interpretation τ :=
  { M with
    int := fun name args => M.int name (args ++ [.element .trace t])
    time := fun name args =>
      if name ∈ loops.map lastName then M.time name (args ++ [.element .trace t])
      else M.time name args }

section

variable {M : Interpretation τ} {t : τ .trace} {loops : List String} {p : Program} {f : Function}

/-- The stores at a trace are those of the trace. -/
theorem storeAt_atTrace (n : Nat) :
    (M.atTrace loops t).storeAt [] n = M.storeAt [.element .trace t] n := by
  simp [storeAt, atTrace]

/-- The moments of points are the same at every trace. -/
theorem moment_atTrace {q : Point} (hq : ∀ l ∈ loops, lastName l ≠ q.location) :
    (M.atTrace loops t).moment q = M.moment q :=
  if_neg (by simpa using hq)

/-- The last iterations at a trace are those of the trace. -/
theorem lastIteration_atTrace {location : String} (hlocation : location ∈ loops) (ι : List Nat) :
    (M.atTrace loops t).lastIteration [] location ι =
      M.lastIteration [.element .trace t] location ι := by
  have hmem : lastName location ∈ loops.map lastName := List.mem_map_of_mem hlocation
  simp only [lastIteration, atTrace, if_pos hmem, List.append_nil]

/-- No point of a formed function is named like a last iteration, so its moment is the same. -/
theorem moment_atTrace_of_inBlock (hp : p.Formed) (hf : f ∈ p.functions) {q : Point}
    (hq : Chronicle.InBlock [] f.endPoint f.statements q) :
    (M.atTrace p.loops t).moment q = M.moment q :=
  moment_atTrace fun _ => hp.lastName_ne_location hf hq

/-- The chronicle at one trace obeys the statements of a function if that of the trace does. -/
theorem blockObeys_atTrace_iff (hp : p.Formed) (hf : f ∈ p.functions) :
    ((M.atTrace p.loops t).chronicle [] f.declared).BlockObeys [] f.endPoint f.statements ↔
      (M.chronicle [.element .trace t] f.declared).BlockObeys [] f.endPoint f.statements := by
  refine Chronicle.blockObeys_congr (hp.functions f hf).statements (fun q hq => ?_)
    (fun q hq => moment_atTrace_of_inBlock hp hf hq) fun location hlocation ι _ => ?_
  · rw [storeAt_chronicle, storeAt_chronicle, moment_atTrace_of_inBlock hp hf hq, storeAt_atTrace]
  · exact lastIteration_atTrace (List.mem_flatMap.mpr ⟨f, hf, hlocation⟩) ι

/-- Postconditions hold in two traces if they hold at each trace. -/
theorem postconditionsHold_two_iff (hp : p.Formed) :
    M.PostconditionsHold .two p.functions ↔
      ∀ t, (M.atTrace p.loops t).PostconditionsHold .one p.functions := by
  have hstore (t : τ .trace) {f : Function} (hf : f ∈ p.functions) :
      (M.atTrace p.loops t).storeAt [] ((M.atTrace p.loops t).moment f.endPoint) =
        M.storeAt [.element .trace t] (M.moment f.endPoint) := by
    rw [moment_atTrace_of_inBlock hp hf Chronicle.inBlock_stop, storeAt_atTrace]
  constructor
  · rintro h t f hf post hpost _ rfl
    rw [hstore t hf]
    exact h f hf post hpost _ ⟨t, rfl⟩
  · rintro h f hf post hpost _ ⟨t, rfl⟩
    rw [← hstore t hf]
    exact h t f hf post hpost [] rfl

end

end Interpretation

namespace Program

variable {p : Program} {first second : Option Schedule}

/-- A problem about two traces is generated whenever one about a single trace is. -/
theorem Formed.generate_two_isOk_iff (hp : p.Formed) :
    (∃ g, p.generate .two first = .ok g) ↔ ∃ g, p.generate .one second = .ok g := by
  obtain ⟨notions, hnotions, hok⟩ := hp.generate_isOk_iff
  rw [hok, hok]
  have hdistinct : ∀ nest ∈ p.nests, ∀ place ∈ p.places, lastName nest.1 ≠ place.1 := by
    intro nest hnest place hplace
    exact hp.lastName_ne (mem_loops hnest) (mem_locations hplace)
  exact Notion.coherent_map_symbol_iff hdistinct hnotions

end Program

/-- A problem about two traces is generated whenever one about a single trace is, whatever the
schedules. An interpretation satisfies its axioms, or its conjecture, if and only if at every trace
it satisfies those of the other one. -/
theorem two_traces_iff_each_trace {source : String} {p : Program}
    (hload : Program.load source = .ok p) (first second : Option Schedule) :
    ((∃ g, p.generate .two first = .ok g) ↔ ∃ g, p.generate .one second = .ok g) ∧
      ∀ two one, p.generate .two first = .ok two → p.generate .one second = .ok one →
        ∃ both goal, two.problem.conjecture = some both ∧ one.problem.conjecture = some goal ∧
          ∀ {τ : SortSymbol → Type} (M : Interpretation τ),
            ((∀ φ ∈ two.problem.axioms, M.Satisfies φ) ↔
              ∀ t, ∀ φ ∈ one.problem.axioms, (M.atTrace p.loops t).Satisfies φ) ∧
            (M.Satisfies both ↔ ∀ t, (M.atTrace p.loops t).Satisfies goal) := by
  have hp := Program.formed_of_load hload
  refine ⟨hp.generate_two_isOk_iff, fun two one htwo hone => ?_⟩
  obtain ⟨_, hlocateTwo, hrunTwo⟩ := Program.generate_eq_ok.mp htwo
  obtain ⟨_, hlocateOne, hrunOne⟩ := Program.generate_eq_ok.mp hone
  obtain ⟨both, haxiomsTwo, hboth, htwoGoal⟩ := Semantics.parts_of_problem hrunTwo
  obtain ⟨goal, haxiomsOne, hgoal, honeGoal⟩ := Semantics.parts_of_problem hrunOne
  refine ⟨both, goal, htwoGoal, honeGoal, fun M => ⟨?_, ?_⟩⟩
  · simp only [hp.satisfies_axioms_iff (hp.covers hlocateTwo) haxiomsTwo,
      hp.satisfies_axioms_iff (hp.covers hlocateOne) haxiomsOne]
    constructor
    · rintro h t f hf _ rfl
      exact (Interpretation.blockObeys_atTrace_iff hp hf).mpr (h f hf _ ⟨t, rfl⟩)
    · rintro h f hf _ ⟨t, rfl⟩
      exact (Interpretation.blockObeys_atTrace_iff hp hf).mp (h t f hf [] rfl)
  · simp only [Interpretation.satisfies_conjecture_iff (hp.covers hlocateTwo) hboth,
      Interpretation.satisfies_conjecture_iff (hp.covers hlocateOne) hgoal]
    rw [Interpretation.postconditionsHold_two_iff hp]
    -- there is a trace, so that a missing postcondition is missed in both problems
    have t₀ := M.element .trace "" []
    exact ⟨fun h t => ⟨h.1, h.2 t⟩, fun h => ⟨(h t₀).1, fun t => (h t).2⟩⟩

/-- An interpretation in which every trace counts in the same way. -/
def countingTraces : Interpretation fun _ => Unit :=
  .ofValues (fun name args => countingModel.int name args.dropLast)
    (fun name args =>
      countingModel.time name (if name = lastName "l1" then args.dropLast else args))

/-- At its only trace the interpretation is the one that counts. -/
theorem atTrace_countingTraces (t : Unit) :
    countingTraces.atTrace countingProgram.loops t = countingModel := by
  change Interpretation.ofValues _ _ = .ofValues countingModel.int countingModel.time
  congr 1
  · funext name args
    simp [countingTraces, Interpretation.ofValues]
  · funext name args
    by_cases hname : name = lastName "l1"
    · have hloop : name ∈ countingProgram.loops.map lastName := hname ▸ List.mem_cons_self
      rw [if_pos hloop]
      simp [countingTraces, Interpretation.ofValues, hname]
    · have hloop : name ∉ countingProgram.loops.map lastName := by
        simpa [show countingProgram.loops = ["l1"] from rfl] using hname
      rw [if_neg hloop]
      simp [countingTraces, Interpretation.ofValues, hname]

/-- The axioms about two traces of the counting function have an interpretation, in which the
conjecture holds. -/
theorem two_traces_counting :
    ∃ p two both, Program.load countingSource = .ok p ∧ p.generate .two (some {}) = .ok two ∧
      two.problem.conjecture = some both ∧
      (∀ φ ∈ two.problem.axioms, countingTraces.Satisfies φ) ∧ countingTraces.Satisfies both := by
  obtain ⟨one, hone⟩ : ∃ g, countingProgram.generate .one none = .ok g :=
    exists_eq_ok_of_isOk (by decide +kernel)
  obtain ⟨hiff, hproblems⟩ := two_traces_iff_each_trace load_countingSource (some {}) none
  obtain ⟨two, htwo⟩ := hiff.mpr ⟨one, hone⟩
  obtain ⟨both, goal, hboth, hgoal, hsatisfies⟩ := hproblems two one htwo hone
  have hp := Program.formed_of_load load_countingSource
  obtain ⟨v, hlocate, hrun⟩ := Program.generate_eq_ok.mp hone
  obtain ⟨goal', haxioms, hgoal', hconjecture⟩ := Semantics.parts_of_problem hrun
  obtain rfl := Option.some.inj (hgoal.symm.trans hconjecture)
  refine ⟨_, two, both, load_countingSource, htwo, hboth, ?_, ?_⟩
  · refine (hsatisfies countingTraces).1.mpr fun t => ?_
    rw [atTrace_countingTraces]
    exact countingModel_satisfies hlocate haxioms
  · refine (hsatisfies countingTraces).2.mpr fun t => ?_
    rw [atTrace_countingTraces, Interpretation.satisfies_conjecture_iff (hp.covers hlocate) hgoal']
    refine ⟨⟨_, List.mem_cons_self, by simp⟩, ?_⟩
    rintro f hf post hpost _ rfl
    obtain rfl := List.mem_singleton.mp hf
    cases hpost
    rfl

end TraceLogic
