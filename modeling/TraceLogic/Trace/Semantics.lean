import TraceLogic.Trace.Timeline

/-!
# What statements mean

The meaning of a statement is a formula that relates the values of the variables at its start and
its end. An assignment updates its target and leaves all else as it was. A branch runs both of its
blocks on a copy of the values and continues with those of the block that the condition selects. A
loop speaks about all of its iterations at once: the condition holds before the last one and fails
in the last one, whose values are those after the loop.

Only variables that matter at both ends are related. A point of time, a set of variables or a block
that is missing is a fault and is never made up.
-/

namespace TraceLogic

/-- What the meaning of statements is built from. -/
structure Semantics where
  /-- How many executions are spoken about. -/
  mode : TraceMode
  /-- Where statements start and end, and which variables matter there. -/
  timeline : Timeline

namespace Semantics

variable (σ : Semantics)

/-- Where a statement starts. -/
def startOf (site : Site) : Construction Term :=
  match σ.timeline.starts.get? site.id with
  | some t => pure t
  | none => .fail (.missingTimePoint .start site.id site.location)

/-- Where a statement ends. -/
def stopOf (site : Site) : Construction Term :=
  match σ.timeline.stops.get? site.id with
  | some t => pure t
  | none => .fail (.missingTimePoint .stop site.id site.location)

/-- The variables that matter at a point of time. -/
def activeAt (t : Term) : Construction VariableSet :=
  match σ.timeline.active.get? t.head.name with
  | some vars => pure vars
  | none => .fail (.missingActiveSet t.head.name)

/-- The first statement of a block. -/
def firstOf (role : BlockRole) (location : String) (block : List Statement) :
    Construction Statement :=
  match block.head? with
  | some s => pure s
  | none => .fail (.emptyBlock role location)

/-- The last statement of a block. -/
def lastOf (role : BlockRole) (location : String) (block : List Statement) :
    Construction Statement :=
  match block.getLast? with
  | some s => pure s
  | none => .fail (.emptyBlock role location)

/-- For all positions of an array. -/
def forAllPositions (f : Formula) : Construction Formula :=
  .ofExcept (Formula.quantified? .all [Symbol.position] f)

/-- For all iterations of a loop. -/
def forAllIterations (location : String) (f : Formula) : Construction Formula :=
  .ofExcept (Formula.quantified? .all [Symbol.iteration location] f)

/-- For all traces, if there are two. -/
def forAllTraces (f : Formula) : Construction Formula :=
  match σ.mode.traceSymbol? with
  | some tr => .ofExcept (Formula.quantified? .all [tr] f)
  | none => pure f

/-- A position is bound, so that this never fails. -/
theorem forAllPositions_eq (f : Formula) :
    forAllPositions f = pure (.quantified .all [Symbol.position] f) := rfl

/-- An iteration is bound, so that this never fails. -/
theorem forAllIterations_eq (location : String) (f : Formula) :
    forAllIterations location f = pure (.quantified .all [Symbol.iteration location] f) := rfl

/-- A variable has the same value at two points of time; an array, at every position. -/
def sameValue (lhs rhs : Term) (x : Variable) : Construction Formula :=
  if x.isArray then do
    let l ← σ.mode.elementAt x lhs Term.position
    let r ← σ.mode.elementAt x rhs Term.position
    let f ← Construction.ofExcept (Formula.equal? l r)
    forAllPositions f
  else do
    let l ← σ.mode.valueAt x lhs
    let r ← σ.mode.valueAt x rhs
    Construction.ofExcept (Formula.equal? l r)

/-- The variables of a set that can change. -/
def changing (vars : VariableSet) : List Variable :=
  vars.toList.filter (fun x => !x.isConstant)

/-- All given variables have the same values at two points of time. -/
def sameValues (lhs rhs : Term) (xs : List Variable) : Construction (List Formula) :=
  Construction.each (σ.sameValue lhs rhs) xs

/-- The target of an assignment has the value of the right-hand side. Other elements of an array
keep their values. -/
def update (l1 l2 : Term) (value : IntExpr Variable) :
    Target Variable → Construction (List Formula)
  | .scalar x => do
    let new ← σ.mode.valueAt x l2
    let old ← σ.mode.intTerm l1 value
    let f ← Construction.ofExcept (Formula.equal? new old)
    pure [f]
  | .element a index => do
    let i ← σ.mode.intTerm l1 index
    let new ← σ.mode.elementAt a l2 i
    let old ← σ.mode.intTerm l1 value
    let written ← Construction.ofExcept (Formula.equal? new old)
    let other ← Construction.ofExcept (Formula.distinct? Term.position i)
    let after ← σ.mode.elementAt a l2 Term.position
    let before ← σ.mode.elementAt a l1 Term.position
    let kept ← Construction.ofExcept (Formula.equal? after before)
    let frame ← forAllPositions (.implication other kept)
    pure [written, frame]

/-- The comment on an assignment. -/
def updateLabel (location : String) : Target Variable → String
  | .scalar x => "Update variable " ++ x.name ++ " at location " ++ location
  | .element a _ => "Update array variable " ++ a.name ++ " at location " ++ location

/-- The variables that an assignment leaves as they were. -/
def framed (target : Target Variable) (before after : VariableSet) : List Variable :=
  (changing (before.inter after)).filter (fun x => x.name ≠ target.written.name)

/-- The meaning of an assignment. -/
def assignment (site : Site) (target : Target Variable) (value : IntExpr Variable) :
    Construction Formula := do
  let l1 ← σ.startOf site
  let l2 ← σ.stopOf site
  let before ← σ.activeAt l1
  let after ← σ.activeAt l2
  let updates ← σ.update l1 l2 value target
  let frame ← σ.sameValues l2 l1 (framed target before after)
  pure ((Formula.conjunction (updates ++ frame)).withLabel (updateLabel site.location target))

/-- The meaning of a statement that does nothing. -/
def idle (site : Site) : Construction Formula := do
  let l1 ← σ.startOf site
  let l2 ← σ.stopOf site
  let f ← Construction.ofExcept (Formula.equal? l1 l2)
  pure (f.withLabel ("Skip at location " ++ site.location))

/-- How the values at the ends of a branch statement are related to those in its blocks. -/
def branching (site : Site) (condition : BoolExpr Variable)
    (thenBlock elseBlock : List Statement) : Construction (List Formula) := do
  let start ← σ.startOf site
  let stop ← σ.stopOf site
  let thenFirst ← firstOf .thenBranch site.location thenBlock
  let elseFirst ← firstOf .elseBranch site.location elseBlock
  let thenLast ← lastOf .thenBranch site.location thenBlock
  let elseLast ← lastOf .elseBranch site.location elseBlock
  let leftStart ← σ.startOf thenFirst.site
  let rightStart ← σ.startOf elseFirst.site
  let leftStop ← σ.stopOf thenLast.site
  let rightStop ← σ.stopOf elseLast.site
  let entering ← σ.activeAt start
  let intoLeft ← σ.sameValues leftStart start (changing entering)
  let intoRight ← σ.sameValues rightStart start (changing entering)
  let chosen ← σ.mode.boolFormula start condition
  let leaving ← σ.activeAt stop
  let leavingLeft ← σ.activeAt leftStop
  let fromLeft ← σ.sameValues stop leftStop (changing (leavingLeft.inter leaving))
  let leavingRight ← σ.activeAt rightStop
  let fromRight ← σ.sameValues stop rightStop (changing (leavingRight.inter leaving))
  pure
    [(Formula.conjunction (intoLeft ++ intoRight)).withLabel
        "Entering either branch leaves all values unchanged",
      (Formula.conjunction
        (fromLeft.map (.implication chosen) ++
          fromRight.map (.implication (.negation chosen)))).withLabel
        "The branch condition selects the values after the if-statement"]

/-- The points of time that a loop speaks about: its head in a given and in the last iteration, its
start and its end, and the start of its body. -/
structure LoopPoints where
  last : Term
  headNow : Term
  headLast : Term
  start : Term
  stop : Term
  bodyStart : Term

/-- Collects the points of time of a loop. -/
def loopPoints (site : Site) (enclosing : List String) (body : List Statement) :
    Construction LoopPoints := do
  let last ← σ.mode.lastIteration site.location enclosing
  let head ← Construction.declare (Symbol.loopHead site.location enclosing)
  let its := enclosing.map Term.iteration
  let headNow ← Construction.ofExcept (Term.app? head (its ++ [Term.iteration site.location]))
  let headLast ← Construction.ofExcept (Term.app? head (its ++ [last]))
  let start ← σ.startOf site
  let stop ← σ.stopOf site
  let bodyFirst ← firstOf .loopBody site.location body
  let bodyStart ← σ.startOf bodyFirst.site
  pure ⟨last, headNow, headLast, start, stop, bodyStart⟩

/-- How long a loop runs: its condition holds before the last iteration and fails in it. -/
def loopCondition (site : Site) (condition : BoolExpr Variable) (points : LoopPoints) :
    Construction (List Formula) := do
  let early ← Interpreted.before (Term.iteration site.location) points.last
  let runs ← σ.mode.boolFormula points.headNow condition
  let running ← forAllIterations site.location (.implication early runs)
  let ends ← σ.mode.boolFormula points.headLast condition
  pure
    [running.withLabel "The loop condition holds before the last iteration",
      (Formula.negation ends).withLabel "The loop condition fails in the last iteration"]

mutual

/-- The meaning of a statement. -/
def statement (σ : Semantics) : Statement → Construction Formula
  | .assign site target value => σ.assignment site target value
  | .skip site => σ.idle site
  | .branch site condition thenBlock elseBlock => do
    let joints ← σ.branching site condition thenBlock elseBlock
    let thens ← σ.block thenBlock
    let elses ← σ.block elseBlock
    pure ((Formula.conjunction (joints ++ (thens ++ elses))).withLabel
      ("Semantics of if-else at location " ++ site.location))
  | .loop site enclosing condition body => do
    let points ← σ.loopPoints site enclosing body
    let vars ← σ.activeAt points.start
    let entry ← σ.sameValues points.bodyStart points.headNow (changing vars)
    let entering ← forAllIterations site.location (.conjunction entry)
    let inside ← σ.block body
    let iterating ← forAllIterations site.location (.conjunction inside)
    let bounds ← σ.loopCondition site condition points
    let exit ← σ.sameValues points.stop points.headLast (changing vars)
    pure ((Formula.conjunction
      ([entering.withLabel "Entering the loop body leaves all values unchanged",
        iterating.withLabel "Semantics of the loop body"] ++ bounds ++
        [(Formula.conjunction exit).withLabel
          "Values after the loop are the values of the last iteration"])).withLabel
      ("Loop at location " ++ site.location))

/-- The meanings of the statements of a block. -/
def block (σ : Semantics) : List Statement → Construction (List Formula)
  | [] => pure []
  | s :: rest => do
    let f ← σ.statement s
    let fs ← σ.block rest
    pure (f :: fs)

end

/-- The meaning of a function, for all traces if there are two. -/
def function (f : Function) : Construction Formula := do
  let fs ← Construction.each (fun s => σ.statement s >>= σ.forAllTraces) f.statements
  pure ((Formula.conjunction fs).withLabel ("Semantics of function " ++ f.name))

/-- Asks for the symbols of the loops among statements. -/
def declareLoops : List Statement → Construction Unit
  | [] => pure ()
  | .loop site enclosing _ _ :: rest => do
    let _ ← Construction.declare (Symbol.loopHead site.location enclosing)
    let _ ← Construction.declare (σ.mode.lastIterationSymbol site.location enclosing)
    declareLoops rest
  | _ :: rest => declareLoops rest

/-- Asks for the symbols of a function's variables and loops. -/
def declareFunction (f : Function) : Construction Unit := do
  let _ ← Construction.each (fun x => .declare (σ.mode.variableSymbol x)) f.declared
  σ.declareLoops f.statementsInOrder

/-- Asks for all free symbols that the meaning of a program needs, in the order of the program. The
functions can then be treated in any order. -/
def declareProgram (p : Program) : Construction Unit := do
  let _ ← Construction.each σ.declareFunction p.functions
  pure ()

/-- The meanings of the functions of a program. -/
def program (p : Program) : Construction (List Formula) := do
  σ.declareProgram p
  Construction.each σ.function p.functions

end Semantics

end TraceLogic
