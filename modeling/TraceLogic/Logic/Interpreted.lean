import TraceLogic.Logic.Construction
import TraceLogic.Logic.Formula

/-!
# Interpreted symbols

Integer arithmetic and comparison, the truth values, and the iterations of a loop with `zero`, the
successor `s`, the predecessor `p` and the strict order `Sub`. A symbol is asked for after its
operands have been built.
-/

namespace TraceLogic

namespace Construction

/-- Asks for a symbol and applies it. -/
def apply (f : Symbol) (ts : List Term) : Construction Term :=
  ⟨(declare f).requests, Term.app? f ts⟩

/-- Asks for a predicate and applies it. -/
def holds (p : Symbol) (ts : List Term) : Construction Formula :=
  ⟨(declare p).requests, Formula.predicate? p ts⟩

end Construction

namespace Interpreted

/-- An interpreted symbol. -/
def interpreted (name : String) (domain : List SortSymbol) (range : SortSymbol) : Symbol :=
  ⟨name, domain, range, true⟩

/-- The decimal text of an integer. -/
def decimal : Int → String
  | .ofNat n => n.repr
  | .negSucc n => "-" ++ (n + 1).repr

/-- The symbol of an integer literal. -/
def literalSymbol (n : Int) : Symbol := interpreted (decimal n) [] .int

/-- The symbol of an arithmetic operation. -/
def arithSymbol : ArithOp → Symbol
  | .add => interpreted "int_plus" [.int, .int] .int
  | .sub => interpreted "int_minus" [.int, .int] .int
  | .mul => interpreted "int_multiply" [.int, .int] .int

/-- The symbol of the negation of an integer. -/
def negateSymbol : Symbol := interpreted "int_unary_minus" [.int] .int

/-- The symbols of the four orders of integers. -/
def lessSymbol : Symbol := interpreted "int_less" [.int, .int] .bool

@[inherit_doc lessSymbol]
def lessEqSymbol : Symbol := interpreted "int_less_eq" [.int, .int] .bool

@[inherit_doc lessSymbol]
def greaterSymbol : Symbol := interpreted "int_greater" [.int, .int] .bool

@[inherit_doc lessSymbol]
def greaterEqSymbol : Symbol := interpreted "int_greater_eq" [.int, .int] .bool

/-- The symbol of a truth value. -/
def truthSymbol : Bool → Symbol
  | true => interpreted "bool_true" [] .bool
  | false => interpreted "bool_false" [] .bool

/-- The symbol of the first iteration. -/
def zeroSymbol : Symbol := interpreted "time_zero" [] .time

/-- The symbol of the next iteration. -/
def succSymbol : Symbol := interpreted "time_succ" [.time] .time

/-- The symbol of the iteration before. -/
def predSymbol : Symbol := interpreted "time_pre" [.time] .time

/-- The symbol of the strict order of iterations. -/
def beforeSymbol : Symbol := interpreted "time_sub" [.time, .time] .bool

/-- An integer literal. -/
def literal (n : Int) : Construction Term := .apply (literalSymbol n) []

/-- An arithmetic operation on two terms. -/
def arith (op : ArithOp) (lhs rhs : Term) : Construction Term := .apply (arithSymbol op) [lhs, rhs]

/-- The negation of an integer. -/
def negate (operand : Term) : Construction Term := .apply negateSymbol [operand]

/-- A truth value as a formula. -/
def truth (value : Bool) : Construction Formula := .holds (truthSymbol value) []

/-- A comparison of two integers. Only the orders need a symbol. -/
def compare (op : Comparison) (lhs rhs : Term) : Construction Formula :=
  match op with
  | .less => .holds lessSymbol [lhs, rhs]
  | .lessEq => .holds lessEqSymbol [lhs, rhs]
  | .greater => .holds greaterSymbol [lhs, rhs]
  | .greaterEq => .holds greaterEqSymbol [lhs, rhs]
  | .equal => .ofExcept (Formula.equal? lhs rhs)
  | .notEqual => .ofExcept (Formula.distinct? lhs rhs)

/-- The first iteration. -/
def zero : Construction Term := .apply zeroSymbol []

/-- The iteration after a given one. -/
def succ (t : Term) : Construction Term := .apply succSymbol [t]

/-- The iteration before a given one. -/
def pred (t : Term) : Construction Term := .apply predSymbol [t]

/-- One iteration comes strictly before another. -/
def before (lhs rhs : Term) : Construction Formula := .holds beforeSymbol [lhs, rhs]

end Interpreted

end TraceLogic
