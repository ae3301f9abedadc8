/-!
# Sorts and symbols

The sorts `Int` and `Bool` belong to the solver, `Time` is a datatype with a definition of its own
and every other sort is declared without structure. A symbol has a domain, a range and a flag that
tells whether the solver gives it its meaning; an interpreted symbol is printed by the operator it
stands for and never declared.
-/

namespace TraceLogic

/-- The name of a sort. -/
structure SortSymbol where
  name : String
deriving DecidableEq, Inhabited

namespace SortSymbol

/-- The integers. -/
def int : SortSymbol := ⟨"Int"⟩

/-- The truth values. -/
def bool : SortSymbol := ⟨"Bool"⟩

/-- Loop iterations, and the points of time that statements start and end at. -/
def time : SortSymbol := ⟨"Time"⟩

/-- Executions that a two-trace problem relates. -/
def trace : SortSymbol := ⟨"Trace"⟩

/-- Whether the solver knows the sort without a declaration. -/
def isBuiltin (s : SortSymbol) : Bool := s = int || s = bool

/-- The lines that declare a sort. `Time` is the datatype of natural numbers together with its
strict order `Sub`. -/
def declaration (s : SortSymbol) : List String :=
  if s.isBuiltin then []
  else if s = time then
    ["(declare-datatypes ((Time 0)) (( (zero) (s (p Time)) )) )",
     "(define-fun-rec Sub ((a Time) (b Time)) Bool",
     "   (and ((_ is s) b) (or (= a (p b)) (Sub a (p b)))))"]
  else ["(declare-sort " ++ s.name ++ " 0)"]

end SortSymbol

/-- A function or predicate symbol; without a domain, a constant or a bound variable. -/
structure Symbol where
  /-- The name under which the symbol is known. -/
  name : String
  /-- The sorts of the arguments. -/
  domain : List SortSymbol
  /-- The sort of an application. -/
  range : SortSymbol
  /-- Whether the solver gives the symbol its meaning. -/
  interpreted : Bool
deriving DecidableEq, Inhabited

namespace Symbol

/-- A variable to be bound by a quantifier. -/
def bound (name : String) (sort : SortSymbol) : Symbol := ⟨name, [], sort, false⟩

/-- The number of arguments. -/
def arity (s : Symbol) : Nat := s.domain.length

/-- Whether applications of the symbol are true or false. -/
def isPredicate (s : Symbol) : Bool := s.range = .bool

/-- The sorts of a list, divided by single blanks. -/
def sortList (sorts : List SortSymbol) : String :=
  " ".intercalate (sorts.map (·.name))

/-- Domain, range and interpretation of a symbol as shown in messages. -/
def signature (s : Symbol) : String :=
  "(" ++ sortList s.domain ++ ") -> " ++ s.range.name ++
    (if s.interpreted then " [interpreted]" else " [free]")

/-- Whether two symbols agree in all but their names. -/
def sameSignature (s t : Symbol) : Bool :=
  s.domain = t.domain && s.range = t.range && s.interpreted = t.interpreted

/-- The solver's operator for the name of an interpreted symbol. -/
def operator? : String → Option String
  | "int_plus" => some "+"
  | "int_minus" => some "-"
  | "int_unary_minus" => some "-"
  | "int_multiply" => some "*"
  | "int_less" => some "<"
  | "int_less_eq" => some "<="
  | "int_greater" => some ">"
  | "int_greater_eq" => some ">="
  | "bool_true" => some "true"
  | "bool_false" => some "false"
  | "time_zero" => some "zero"
  | "time_succ" => some "s"
  | "time_pre" => some "p"
  | "time_sub" => some "Sub"
  | _ => none

/-- The name that is printed for the symbol. -/
def printedName (s : Symbol) : String :=
  if s.interpreted then (operator? s.name).getD s.name else s.name

/-- The lines that declare a symbol. -/
def declaration (s : Symbol) : List String :=
  if s.interpreted then []
  else ["(declare-fun " ++ s.name ++ " (" ++ sortList s.domain ++ ") " ++ s.range.name ++ ")"]

end Symbol

end TraceLogic
