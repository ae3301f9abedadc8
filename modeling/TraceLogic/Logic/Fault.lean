import TraceLogic.Logic.Symbol

/-!
# Faults

Why a term, a formula or a whole problem cannot be built. A fault names its cause; `Fault.message`,
`Fault.code` and `Fault.help` give the words in which it is reported.
-/

namespace TraceLogic

/-- Where two sorts should have agreed. -/
inductive SortContext
  | argument (index : Nat) (symbol : String)
  | equality
  | disequality
deriving DecidableEq

/-- The words for a place where two sorts should have agreed. -/
def SortContext.describe : SortContext → String
  | argument index symbol => "argument " ++ index.repr ++ " of " ++ symbol
  | equality => "equality"
  | disequality => "disequality"

/-- The two ends of a statement's run. -/
inductive Boundary
  | start
  | stop
deriving DecidableEq

/-- The word for an end of a statement's run. -/
def Boundary.describe : Boundary → String
  | start => "start"
  | stop => "end"

/-- The blocks that a statement may hold. -/
inductive BlockRole
  | thenBranch
  | elseBranch
  | loopBody
deriving DecidableEq

/-- The words for a block of a statement. -/
def BlockRole.describe : BlockRole → String
  | thenBranch => "then-branch"
  | elseBranch => "else-branch"
  | loopBody => "loop body"

/-- Why a construction fails. -/
inductive Fault
  | sortMismatch (context : SortContext) (expected found : SortSymbol)
  | arityMismatch (symbol : String) (expected found : Nat)
  | signatureConflict (existing requested : Symbol)
  | notPredicate (symbol : String)
  | emptyQuantifier
  | missingConjecture
  | sinkFailed (reason : String)
  | missingTimePoint (which : Boundary) (statement : Nat) (location : String)
  | missingActiveSet (location : String)
  | emptyBlock (block : BlockRole) (location : String)
deriving DecidableEq

namespace Fault

/-- The text of a fault. -/
def message : Fault → String
  | sortMismatch context expected found =>
    "sort mismatch in " ++ context.describe ++ ": expected " ++ expected.name ++
      ", found " ++ found.name
  | arityMismatch symbol expected found =>
    "symbol " ++ symbol ++ " expects " ++ expected.repr ++ " argument(s), got " ++ found.repr
  | signatureConflict existing requested =>
    "symbol " ++ requested.name ++ " already declared as " ++ existing.signature ++
      ", cannot redeclare as " ++ requested.signature
  | notPredicate symbol =>
    "symbol " ++ symbol ++ " does not have range Bool and cannot be used as a predicate"
  | emptyQuantifier => "quantifier without bound variables"
  | missingConjecture => "problem has no conjecture"
  | sinkFailed reason => "failed to write problem: " ++ reason
  | missingTimePoint which statement location =>
    "no " ++ which.describe ++ " time-point for statement #" ++ statement.repr ++
      " at location " ++ location
  | missingActiveSet location => "no active-variable set for location " ++ location
  | emptyBlock block location =>
    block.describe ++ " of the statement at location " ++ location ++ " is empty"

/-- The code under which a fault is reported. -/
def code : Fault → String
  | sortMismatch _ _ _ => "tlv::logic::sort_mismatch"
  | arityMismatch _ _ _ => "tlv::logic::arity"
  | signatureConflict _ _ => "tlv::logic::signature_conflict"
  | notPredicate _ => "tlv::logic::not_a_predicate"
  | emptyQuantifier => "tlv::logic::empty_quantifier"
  | missingConjecture => "tlv::logic::missing_conjecture"
  | sinkFailed _ => "tlv::logic::io"
  | missingTimePoint _ _ _ => "tlv::semantics::missing_time_point"
  | missingActiveSet _ => "tlv::semantics::missing_active_vars"
  | emptyBlock _ _ => "tlv::semantics::empty_block"

/-- What a user can do about a fault. -/
def help : Fault → Option String
  | signatureConflict _ _ =>
    some "symbol names are global to a registry; pick a distinct name"
  | missingConjecture => some "call `Problem::set_conjecture` before serializing"
  | missingTimePoint _ _ _ =>
    some "the location pass must assign start and end time-points to every statement"
  | emptyBlock _ _ => some "front-ends put a `skip` into empty branches and loop bodies"
  | _ => none

end Fault

end TraceLogic
