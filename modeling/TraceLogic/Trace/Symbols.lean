import TraceLogic.Program.Statement
import TraceLogic.Logic.Interpreted

/-!
# The symbols of a program

A variable is a function of time, and an array a function of time and position; a constant does not
depend on time. When two traces are related, every variable and every last iteration also depends
on a trace, which is the last argument. A location is a function of the iterations of the loops
around it, and yields a point of time.
-/

namespace TraceLogic

namespace Symbol

/-- The variable that array positions are bound to. -/
def position : Symbol := .bound "pos" .int

/-- The variable that traces are bound to. -/
def trace : Symbol := .bound "tr" .trace

/-- The variable that the iterations of a loop are bound to. -/
def iteration (loop : String) : Symbol := .bound ("It_" ++ loop) .time

/-- The symbol of a location inside a number of loops. -/
def location (name : String) (depth : Nat) : Symbol :=
  ⟨name, List.replicate depth .time, .time, false⟩

/-- The symbol of the head of a loop, which also depends on the loop's own iteration. -/
def loopHead (name : String) (enclosing : List String) : Symbol :=
  location name (enclosing.length + 1)

end Symbol

namespace Term

/-- The position as a term. -/
def position : Term := .var .position

/-- The iteration of a loop as a term. -/
def iteration (loop : String) : Term := .var (.iteration loop)

end Term

/-- How many executions of each function a problem speaks about. -/
inductive TraceMode
  | one
  | two
deriving DecidableEq

namespace TraceMode

/-- The mode in which two executions are related, or not. -/
def ofFlag (twoTraces : Bool) : TraceMode := if twoTraces then two else one

/-- The bound trace, if there are two. -/
def traceSymbol? : TraceMode → Option Symbol
  | one => none
  | two => some .trace

/-- The trace as the last argument, if there are two. -/
def traceArgs : TraceMode → List Term
  | one => []
  | two => [.var .trace]

/-- The sort of traces at the end of a domain, if there are two. -/
def traceDomain : TraceMode → List SortSymbol
  | one => []
  | two => [.trace]

/-- What is asked for before anything is built. -/
def prepare (m : TraceMode) : Construction Unit :=
  ⟨m.traceDomain.map .sort, .ok ()⟩

/-- The symbol of a variable's values. -/
def variableSymbol (m : TraceMode) (x : Variable) : Symbol :=
  ⟨x.name,
    (if x.isConstant then [] else [.time]) ++ (if x.isArray then [.int] else []) ++ m.traceDomain,
    .int, false⟩

/-- The symbol of the iteration in which the condition of a loop first fails. -/
def lastIterationSymbol (m : TraceMode) (location : String) (enclosing : List String) : Symbol :=
  ⟨"n_" ++ location, List.replicate enclosing.length .time ++ m.traceDomain, .time, false⟩

end TraceMode

end TraceLogic
