import TraceLogic.Trace.Symbols

/-!
# Values at points of time

The value of a variable, and that of an expression, as a term over a point of time. An expression is
built from its operands: left before right, and both before the operation on them.
-/

namespace TraceLogic

/-- The iterations of loops as terms. -/
def Construction.iterations (loops : List String) : Construction (List Term) :=
  ⟨loops.map (fun _ => .sort .time), .ok (loops.map .iteration)⟩

namespace TraceMode

/-- The time of a value, unless the variable is constant. -/
def timeArgs (x : Variable) (t : Term) : List Term :=
  if x.isConstant then [] else [t]

/-- The value of a scalar at a point of time. -/
def valueAt (m : TraceMode) (x : Variable) (t : Term) : Construction Term :=
  .apply (m.variableSymbol x) (timeArgs x t ++ m.traceArgs)

/-- The value of an array at a point of time and a position. -/
def elementAt (m : TraceMode) (a : Variable) (t index : Term) : Construction Term :=
  .apply (m.variableSymbol a) (timeArgs a t ++ [index] ++ m.traceArgs)

/-- The iteration in which the condition of a loop first fails. -/
def lastIteration (m : TraceMode) (location : String) (enclosing : List String) :
    Construction Term :=
  .apply (m.lastIterationSymbol location enclosing) (enclosing.map .iteration ++ m.traceArgs)

/-- The value of an integer expression at a point of time. -/
def intTerm (m : TraceMode) (t : Term) : IntExpr Variable → Construction Term
  | .literal n => Interpreted.literal n
  | .variable x => m.valueAt x t
  | .element a index => do
    let i ← m.intTerm t index
    m.elementAt a t i
  | .arith op lhs rhs => do
    let l ← m.intTerm t lhs
    let r ← m.intTerm t rhs
    Interpreted.arith op l r
  | .negate operand => do
    let o ← m.intTerm t operand
    Interpreted.negate o

mutual

/-- The truth of a Boolean expression at a point of time. -/
def boolFormula (m : TraceMode) (t : Term) : BoolExpr Variable → Construction Formula
  | .constant value => Interpreted.truth value
  | .compare op lhs rhs => do
    let l ← m.intTerm t lhs
    let r ← m.intTerm t rhs
    Interpreted.compare op l r
  | .junction op parts => do
    let fs ← m.boolFormulas t parts
    pure (.junction op fs)
  | .not operand => do
    let f ← m.boolFormula t operand
    pure (.negation f)

/-- The truth of several Boolean expressions at a point of time. -/
def boolFormulas (m : TraceMode) (t : Term) :
    List (BoolExpr Variable) → Construction (List Formula)
  | [] => pure []
  | b :: rest => do
    let f ← m.boolFormula t b
    let fs ← m.boolFormulas t rest
    pure (f :: fs)

end

end TraceMode

end TraceLogic
