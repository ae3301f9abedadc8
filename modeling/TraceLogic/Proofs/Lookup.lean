import TraceLogic.Proofs.Location

/-!
# Statements at known points of time

The meaning of a statement starts by looking up points of time, variables and the ends of blocks. A
timeline that knows a block has all of them, and the equations here say what is left to build. The
points and variables are then given by where the statement stands.
-/

namespace TraceLogic

/-! ## Lookups -/

namespace Construction

variable {α : Type} {fault : Fault} {o : Option α}

/-- What a lookup has found, or a fault where nothing is there. -/
def found (fault : Fault) : Option α → Construction α
  | some a => pure a
  | none => .fail fault

/-- Looking something up succeeds if it is there, and gives what is there. -/
theorem found_eq_ok {a : α} : (found fault o).outcome = .ok a ↔ o = some a := by
  cases o <;> simp [found, fail]

/-- Looking something up fails if it is not there, with the given fault. -/
theorem found_eq_error {other : Fault} :
    (found fault o).outcome = .error other ↔ o = none ∧ fault = other := by
  cases o <;> simp [found, fail]

end Construction

namespace Semantics

open Construction

variable (S : Semantics)

/-- The start of a statement is looked up by the number of the statement. -/
theorem startOf_eq_found (site : Site) :
    S.startOf site =
      found (.missingTimePoint .start site.id site.location) (S.timeline.starts.get? site.id) := by
  unfold startOf
  cases S.timeline.starts.get? site.id <;> rfl

/-- The end of a statement is looked up by the number of the statement. -/
theorem stopOf_eq_found (site : Site) :
    S.stopOf site =
      found (.missingTimePoint .stop site.id site.location) (S.timeline.stops.get? site.id) := by
  unfold stopOf
  cases S.timeline.stops.get? site.id <;> rfl

/-- What matters at a point is looked up by the name of the point. -/
theorem activeAt_eq_found (t : Term) :
    S.activeAt t =
      found (.missingActiveSet t.head.name) (S.timeline.active.get? t.head.name) := by
  unfold activeAt
  cases S.timeline.active.get? t.head.name <;> rfl

/-- The first statement of a block is looked up as the head of a list. -/
theorem firstOf_eq_found (role : BlockRole) (location : String) (b : List Statement) :
    firstOf role location b = found (.emptyBlock role location) b.head? := by
  unfold firstOf
  cases b.head? <;> rfl

/-- The last statement of a block is looked up as the end of a list. -/
theorem lastOf_eq_found (role : BlockRole) (location : String) (b : List Statement) :
    lastOf role location b = found (.emptyBlock role location) b.getLast? := by
  unfold lastOf
  cases b.getLast? <;> rfl

end Semantics

/-! ## Known blocks -/

namespace Semantics

open Statement Timeline

variable {S : Semantics} {vars : List Variable} {loops : List String} {stop : Term} {s : Statement}
  {b rest : List Statement}

/-- The first statement of a known block starts where the block does. -/
theorem startOf_first (hk : S.timeline.Knows vars loops stop (s :: rest)) :
    S.startOf s.site = pure (s.startTerm loops) := by
  have hstart : S.timeline.starts.get? s.site.id = some (s.startTerm loops) := hk.first_start
  simp only [startOf, hstart]

/-- The first statement of a known block ends where the rest starts. -/
theorem stopOf_first (hk : S.timeline.Knows vars loops stop (s :: rest)) :
    S.stopOf s.site = pure (blockStartTerm loops stop rest) := by
  have hend : S.timeline.stops.get? s.site.id = some (blockStartTerm loops stop rest) :=
    hk.first_stop
  simp only [stopOf, hend]

/-- The last statement of a known block ends where the block does. -/
theorem stopOf_getLast? (hk : S.timeline.Knows vars loops stop b) (hs : b.getLast? = some s) :
    S.stopOf s.site = pure stop := by
  have hend : S.timeline.stops.get? s.site.id = some stop := hk.stop_of_getLast? hs
  simp only [stopOf, hend]

/-- All variables of the function matter at the start of a known block. -/
theorem activeAt_blockStartTerm (hk : S.timeline.Knows vars loops stop b) :
    S.activeAt (blockStartTerm loops stop b) = pure (.ofList vars) := by
  simp only [activeAt, hk.active_blockStartTerm]

/-- All variables of the function matter at the end of a known block. -/
theorem activeAt_stop (hk : S.timeline.Knows vars loops stop b) :
    S.activeAt stop = pure (.ofList vars) := by
  have hactive := hk.active _ List.mem_cons_self
  simp only [activeAt, hactive]

section

variable {site : Site}

/-- The meaning of an assignment. -/
theorem assignment_eq {target : Target Variable} {value : IntExpr Variable}
    (hk : S.timeline.Knows vars loops stop (.assign site target value :: rest)) :
    let start := Term.point site.location loops
    let after := blockStartTerm loops stop rest
    S.assignment site target value = (do
      let updates ← S.update start after value target
      let frame ← S.sameValues after start (framed target (.ofList vars) (.ofList vars))
      pure ((Formula.conjunction (updates ++ frame)).withLabel
        (updateLabel site.location target))) := by
  have hstart : S.startOf site = pure (.point site.location loops) := startOf_first hk
  have hend : S.stopOf site = pure (blockStartTerm loops stop rest) := stopOf_first hk
  have hbefore : S.activeAt (.point site.location loops) = pure (.ofList vars) :=
    activeAt_blockStartTerm hk
  have hafter := activeAt_blockStartTerm hk.of_rest
  simp only [assignment, hstart, hend, hbefore, hafter, pure_bind]

/-- The meaning of a statement that does nothing. -/
theorem idle_eq (hk : S.timeline.Knows vars loops stop (.skip site :: rest)) :
    S.idle site = (do
      let f ← Construction.ofExcept
        (Formula.equal? (.point site.location loops) (blockStartTerm loops stop rest))
      pure (f.withLabel ("Skip at location " ++ site.location))) := by
  have hstart : S.startOf site = pure (.point site.location loops) := startOf_first hk
  have hend : S.stopOf site = pure (blockStartTerm loops stop rest) := stopOf_first hk
  simp only [idle, hstart, hend, pure_bind]

/-- How the ends of a branch statement are related to those of its blocks. -/
theorem branching_eq {c : BoolExpr Variable} {thens elses : List Statement}
    (hk : S.timeline.Knows vars loops stop (.branch site c thens elses :: rest)) :
    let start := Term.point site.location loops
    let after := blockStartTerm loops stop rest
    let left := Term.point (leftEnd site.location) loops
    let right := Term.point (rightEnd site.location) loops
    let all := VariableSet.ofList vars
    S.branching site c thens elses = (do
      let intoLeft ← S.sameValues (blockStartTerm loops left thens) start (changing all)
      let intoRight ← S.sameValues (blockStartTerm loops right elses) start (changing all)
      let chosen ← S.mode.boolFormula start c
      let fromLeft ← S.sameValues after left (changing (all.inter all))
      let fromRight ← S.sameValues after right (changing (all.inter all))
      pure
        [(Formula.conjunction (intoLeft ++ intoRight)).withLabel
            "Entering either branch leaves all values unchanged",
          (Formula.conjunction
            (fromLeft.map (.implication chosen) ++
              fromRight.map (.implication (.negation chosen)))).withLabel
            "The branch condition selects the values after the if-statement"]) := by
  obtain ⟨⟨_, ⟨hthens, _⟩, helses, _⟩, _⟩ := hk.formed
  obtain ⟨thenFirst, thens, rfl⟩ := List.exists_cons_of_ne_nil hthens
  obtain ⟨elseFirst, elses, rfl⟩ := List.exists_cons_of_ne_nil helses
  have hthenLast := List.getLast?_eq_some_getLast hthens
  have helseLast := List.getLast?_eq_some_getLast helses
  -- the points at the ends of the branch and of its blocks
  have hstart : S.startOf site = pure (.point site.location loops) := startOf_first hk
  have hend : S.stopOf site = pure (blockStartTerm loops stop rest) := stopOf_first hk
  have hleftStart := startOf_first hk.of_thens
  have hrightStart := startOf_first hk.of_elses
  have hleft := stopOf_getLast? hk.of_thens hthenLast
  have hright := stopOf_getLast? hk.of_elses helseLast
  -- the variables that matter there
  have hbefore : S.activeAt (.point site.location loops) = pure (.ofList vars) :=
    activeAt_blockStartTerm hk
  have hafter := activeAt_blockStartTerm hk.of_rest
  have hleftActive := activeAt_stop hk.of_thens
  have hrightActive := activeAt_stop hk.of_elses
  simp only [branching, firstOf, lastOf, List.head?_cons, hthenLast, helseLast, hstart, hend,
    hleftStart, hrightStart, hleft, hright, hbefore, hafter, hleftActive, hrightActive, pure_bind]
  rfl

/-- The meaning of a loop. -/
theorem loop_eq {c : BoolExpr Variable} {body : List Statement}
    (hk : S.timeline.Knows vars loops stop (.loop site loops c body :: rest)) :
    let now := Term.iteration site.location
    let its := loops.map Term.iteration
    let next := Term.loopHead site.location loops loops (.succ now)
    let bodyStart := blockStartTerm (loops ++ [site.location]) next body
    let all := changing (.ofList vars)
    let always := Formula.quantified .all [Symbol.iteration site.location]
    S.statement (.loop site loops c body) = (do
      let last ← S.mode.lastIteration site.location loops
      let head ← Construction.declare (Symbol.loopHead site.location loops)
      let headNow ← Construction.ofExcept (Term.app? head (its ++ [now]))
      let headLast ← Construction.ofExcept (Term.app? head (its ++ [last]))
      let entry ← S.sameValues bodyStart headNow all
      let inside ← S.block body
      let early ← Interpreted.before now last
      let runs ← S.mode.boolFormula headNow c
      let ends ← S.mode.boolFormula headLast c
      let exit ← S.sameValues (blockStartTerm loops stop rest) headLast all
      pure ((Formula.conjunction
        [(always (.conjunction entry)).withLabel
            "Entering the loop body leaves all values unchanged",
          (always (.conjunction inside)).withLabel "Semantics of the loop body",
          (always (.implication early runs)).withLabel
            "The loop condition holds before the last iteration",
          (Formula.negation ends).withLabel "The loop condition fails in the last iteration",
          (Formula.conjunction exit).withLabel
            "Values after the loop are the values of the last iteration"]).withLabel
        ("Loop at location " ++ site.location))) := by
  obtain ⟨⟨_, _, hbody, _⟩, _⟩ := hk.formed
  obtain ⟨first, body, rfl⟩ := List.exists_cons_of_ne_nil hbody
  have hstart : S.startOf site = pure (.loopHead site.location loops loops .zero) :=
    startOf_first hk
  have hend : S.stopOf site = pure (blockStartTerm loops stop rest) := stopOf_first hk
  have hbodyStart := startOf_first hk.of_body
  have hactive : S.activeAt (.loopHead site.location loops loops .zero) = pure (.ofList vars) :=
    activeAt_blockStartTerm hk
  simp only [statement, loopPoints, loopCondition, firstOf, List.head?_cons, hstart, hend,
    hbodyStart, hactive, forAllIterations_eq, bind_assoc, pure_bind]
  rfl

end

/-! ## All traces -/

/-- The formula that something holds for all traces, if there are two. -/
def overTraces (S : Semantics) (f : Formula) : Formula :=
  match S.mode.traceSymbol? with
  | some tr => .quantified .all [tr] f
  | none => f

/-- At most one trace is bound, and never none by a quantifier, so that this never fails. -/
theorem forAllTraces_eq (S : Semantics) (f : Formula) :
    S.forAllTraces f = pure (S.overTraces f) := by
  unfold forAllTraces overTraces
  cases S.mode.traceSymbol? <;> rfl

/-- The meaning of a function is that of its block, each statement taken for all traces. -/
theorem function_eq (S : Semantics) (f : Function) :
    S.function f = (do
      let fs ← S.block f.statements
      pure ((Formula.conjunction (fs.map S.overTraces)).withLabel
        ("Semantics of function " ++ f.name))) := by
  have heach : ∀ ss : List Statement,
      Construction.each (fun s => S.statement s >>= S.forAllTraces) ss =
        (do let fs ← S.block ss; pure (fs.map S.overTraces)) := by
    intro ss
    induction ss with
    | nil => rfl
    | cons s ss ih =>
      rw [Construction.each, block, ih]
      simp only [forAllTraces_eq, bind_assoc, pure_bind, List.map_cons]
  simp only [function, heach, bind_assoc, pure_bind]

end Semantics

end TraceLogic
