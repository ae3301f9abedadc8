import TraceLogic.Trace.Semantics
import TraceLogic.Logic.Concurrent
import TraceLogic.Logic.Problem

/-!
# Verification conditions

The problem of a program has one axiom per function, the function's meaning, and the conjecture
that each postcondition holds where its function ends. Without any postcondition the conjecture is
`false`, so that the solver looks for a contradiction between the axioms.
-/

namespace TraceLogic

/-- What the text of a program's problem contains and how it is made. -/
structure Options where
  /-- Relate two executions of every function. -/
  twoTraces : Bool := false
  /-- List the points of time of all statements in front of the problem. -/
  timepoints : Bool := false
  /-- Work on the functions at the same time. -/
  parallel : Bool := false
deriving DecidableEq

namespace Semantics

/-- The meanings of the functions of a program, one after the other, or at the same time under a
schedule. The symbols of the program are asked for before that. -/
def axioms (σ : Semantics) (schedule : Option Schedule) (p : Program) :
    Building (List Formula) :=
  match schedule with
  | none => σ.program p
  | some schedule => do
    σ.declareProgram p
    schedule.carryOut (p.functions.map σ.function)

/-- The postcondition of a function where the function ends. -/
def postcondition (σ : Semantics) (f : Function) : Construction (Option Formula) :=
  match f.postcondition, σ.timeline.functionEnds.get? f.name with
  | some post, some stop => do
    let holds ← σ.mode.boolFormula stop post
    let always ← σ.forAllTraces holds
    pure (some (always.withLabel ("Postcondition of function " ++ f.name)))
  | _, _ => pure none

/-- All postconditions hold; `false` if there is none. -/
def conjecture (σ : Semantics) (p : Program) : Construction Formula := do
  let posts ← Construction.each σ.postcondition p.functions
  match posts.filterMap id with
  | [] => Interpreted.truth false
  | parts => pure (.conjunction parts)

/-- The problem of a program. -/
def problem (σ : Semantics) (schedule : Option Schedule) (p : Program) : Building Problem := do
  σ.mode.prepare
  let axioms ← σ.axioms schedule p
  let goal ← σ.conjecture p
  pure { axioms, conjecture := some goal }

end Semantics

/-- The problem of a program, with the timeline and the vocabulary that it was built with. -/
structure Generated where
  timeline : Timeline
  problem : Problem
  vocabulary : Vocabulary

namespace Program

/-- The timeline of a program and the vocabulary that it leaves, from the initial one. -/
def locate (p : Program) (mode : TraceMode) : Except Fault (Timeline × Vocabulary) :=
  match (do mode.prepare; Timeline.ofProgram p).run .initial with
  | (.ok timeline, v) => .ok (timeline, v)
  | (.error fault, _) => .error fault

/-- Locates the statements of a program and builds its problem. Under a schedule, the functions are
worked on at the same time. -/
def generate (p : Program) (mode : TraceMode) (schedule : Option Schedule) :
    Except Fault Generated := do
  let (timeline, v) ← p.locate mode
  match (Semantics.problem ⟨mode, timeline⟩ schedule p).run.run v with
  | (.ok problem, vocabulary) => .ok { timeline, problem, vocabulary }
  | (.error fault, _) => .error fault

/-- The text of a program's problem. The schedule matters only if the functions are worked on at the
same time. -/
def conditions (p : Program) (options : Options) (schedule : Schedule := {}) :
    Except Fault String := do
  let g ← p.generate (.ofFlag options.twoTraces) (if options.parallel then some schedule else none)
  let text ← g.problem.print g.vocabulary
  if options.timepoints then pure (Problem.unlines (g.timeline.listing p) ++ text)
  else pure text

end Program

end TraceLogic
