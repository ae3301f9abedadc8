import TraceLogic.Data.Table
import TraceLogic.Trace.Values

/-!
# The points of time of a program

Every statement starts and ends at a point of time. The statements of a block follow each other:
each one ends where the next one starts, and the last one at the end of the block. Inside a loop a
point of time depends on the iterations of the loops around it; a loop starts at its head in
iteration `zero`, and its body ends at the head in the next iteration.

`Timeline.ofProgram` also tells which variables matter at each location. It counts all variables of
a function at all of its locations, so that no frame condition is missing.
-/

namespace TraceLogic

/-- Points of time of statements and functions, and the variables that matter at them. -/
structure Timeline where
  /-- Where a statement starts, by its number. -/
  starts : Table Nat Term := .empty
  /-- Where a statement ends, by its number. -/
  stops : Table Nat Term := .empty
  /-- The variables that matter at a point of time, by the name of its location. -/
  active : Table String VariableSet := .empty
  /-- Where a function ends, by its name. -/
  functionEnds : Table String Term := .empty

namespace Timeline

/-- Counts variables at a point of time. -/
def activate (tl : Timeline) (vars : VariableSet) (t : Term) : Timeline :=
  { tl with active := tl.active.insert t.head.name vars }

/-- Gives a statement its start and its end. -/
def locate (tl : Timeline) (statement : Nat) (start stop : Term) : Timeline :=
  { tl with
    starts := tl.starts.insert statement start
    stops := tl.stops.insert statement stop }

/-- The point of time at a location inside loops. -/
def pointAt (location : String) (loops : List String) : Construction Term := do
  let f ← Construction.declare (Symbol.location location loops.length)
  let its ← Construction.iterations loops
  Construction.ofExcept (Term.app? f its)

/-- The head of a loop in an iteration that is given last. -/
def loopHead (location : String) (enclosing loops : List String) (iteration : Construction Term) :
    Construction Term := do
  let f ← Construction.declare (Symbol.loopHead location enclosing)
  let its ← Construction.iterations loops
  let i ← iteration
  Construction.ofExcept (Term.app? f (its ++ [i]))

/-- Where a statement inside loops starts. -/
def startPoint (loops : List String) : Statement → Construction Term
  | .loop site enclosing _ _ => loopHead site.location enclosing loops Interpreted.zero
  | s => pointAt s.location loops

/-- The end of the first branch of a statement. -/
def leftEnd (location : String) : String := location ++ "_left_end"

/-- The end of the second branch of a statement. -/
def rightEnd (location : String) : String := location ++ "_right_end"

/-- The end of a function. -/
def functionEnd (name : String) : String := name ++ "_end"

mutual

/-- Locates the statements nested in a statement. -/
def locateNested (vars : VariableSet) (loops : List String) (tl : Timeline) :
    Statement → Construction Timeline
  | .branch site _ thenBlock elseBlock => do
    let left ← pointAt (leftEnd site.location) loops
    let right ← pointAt (rightEnd site.location) loops
    let tl := (tl.activate vars left).activate vars right
    let thenStarts ← Construction.each (startPoint loops) thenBlock
    let tl := thenStarts.foldl (activate · vars ·) tl
    let tl ← locateAll vars loops left tl thenStarts thenBlock
    let elseStarts ← Construction.each (startPoint loops) elseBlock
    let tl := elseStarts.foldl (activate · vars ·) tl
    locateAll vars loops right tl elseStarts elseBlock
  | .loop site enclosing _ body => do
    let again := Interpreted.succ (Term.iteration site.location)
    let next ← loopHead site.location enclosing loops again
    let inner := loops ++ [site.location]
    let starts ← Construction.each (startPoint inner) body
    locateAll vars inner next (starts.foldl (activate · vars ·) tl) starts body
  | .assign _ _ _ => pure tl
  | .skip _ => pure tl

/-- Locates the statements of a block that ends at a point of time, and the statements nested in
them. The points at which the statements start are given. -/
def locateAll (vars : VariableSet) (loops : List String) (blockEnd : Term) (tl : Timeline)
    (starts : List Term) : List Statement → Construction Timeline
  | [] => pure tl
  | s :: rest =>
    match starts with
    | [] => pure tl
    | start :: later => do
      let tl := tl.locate s.id start (later.headD blockEnd)
      let tl ← locateNested vars loops tl s
      locateAll vars loops blockEnd tl later rest

end

/-- Locates a whole block. -/
def locateBlock (vars : VariableSet) (loops : List String) (blockEnd : Term) (tl : Timeline)
    (block : List Statement) : Construction Timeline := do
  let starts ← Construction.each (startPoint loops) block
  locateAll vars loops blockEnd (starts.foldl (activate · vars ·) tl) starts block

/-- Locates the statements of a function. -/
def locateFunction (tl : Timeline) (f : Function) : Construction Timeline := do
  let vars := VariableSet.ofList f.declared
  let stop ← pointAt (functionEnd f.name) []
  let tl ← locateBlock vars [] stop (tl.activate vars stop) f.statements
  pure { tl with functionEnds := tl.functionEnds.insert f.name stop }

/-- Locates the statements of functions in order. -/
def locateFunctions (tl : Timeline) : List Function → Construction Timeline
  | [] => pure tl
  | f :: rest => do
    let tl ← tl.locateFunction f
    tl.locateFunctions rest

/-- The timeline of a program. -/
def ofProgram (p : Program) : Construction Timeline :=
  locateFunctions {} p.functions

/-- The text of a point of time in a listing. -/
def printPoint (t : Option Term) : String :=
  match t with
  | some t => t.print
  | none => "?"

/-- Adds blanks up to a width. -/
def padTo (width : Nat) (text : String) : String :=
  text ++ String.ofList (List.replicate (width - text.length) ' ')

/-- The line of a statement in a listing. -/
def listingLine (tl : Timeline) (s : Statement) : String :=
  ";   " ++ s.location ++ " " ++ padTo 10 s.kindName ++
    " start " ++ printPoint (tl.starts.get? s.id) ++
    "  end " ++ printPoint (tl.stops.get? s.id)

/-- A comment that lists the points of time of all statements. -/
def listing (tl : Timeline) (p : Program) : List String :=
  "; time-points" ::
    p.functions.flatMap (fun f =>
      ("; function " ++ f.name) :: f.statementsInOrder.map tl.listingLine)

end Timeline

end TraceLogic
