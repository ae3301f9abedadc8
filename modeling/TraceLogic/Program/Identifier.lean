/-!
# Names that a program may use

Functions and variables give their names to symbols of the solver text. `checkFunction` and
`checkVariable` accept a name only if it is a plain symbol and can not be mistaken for a word of the
solver's language or for a name that the generated text makes up.
-/

namespace TraceLogic.Identifier

/-- What a reserved name is kept for. -/
inductive Role
  | solverWord
  | timeSymbol
  | boundVariable
  | timePoint
  | assertionName
deriving DecidableEq

/-- The words for what a name is kept for. -/
def Role.describe : Role → String
  | solverWord => "an SMT-LIB word"
  | timeSymbol => "a symbol of the Time datatype"
  | boundVariable => "a bound variable"
  | timePoint => "a time-point symbol"
  | assertionName => "an assertion name"

/-- Why a name cannot be used. -/
inductive Clash
  | notSymbol
  | reserved (role : Role)
deriving DecidableEq

/-- What follows a given beginning. -/
def afterLead? : (lead text : List Char) → Option (List Char)
  | [], text => some text
  | _ :: _, [] => none
  | c :: lead, d :: text => if c = d then afterLead? lead text else none

/-- What precedes a given ending. -/
def beforeEnding? (ending text : List Char) : Option (List Char) :=
  (afterLead? ending.reverse text.reverse).map List.reverse

/-- Whether a character may stand in a symbol. -/
def isSymbolChar (c : Char) : Bool := c.isAlphanum || c = '_'

/-- A letter or underscore, followed by letters, digits and underscores. Only ASCII letters and
digits count. -/
def isSymbol (name : List Char) : Bool :=
  match name with
  | [] => false
  | c :: _ => !c.isDigit && name.all isSymbolChar

/-- A given beginning followed by at least one digit and nothing else. -/
def isNumbered (lead name : List Char) : Bool :=
  match afterLead? lead name with
  | some (d :: ds) => (d :: ds).all Char.isDigit
  | _ => false

/-- The name of a location, without the ending of a branch. -/
def locationStem (name : List Char) : List Char :=
  match beforeEnding? "_left_end".toList name with
  | some stem => stem
  | none => (beforeEnding? "_right_end".toList name).getD name

/-- Whether a name could be that of a location, of a branch's end or of a last iteration. -/
def isLocationName (name : List Char) : Bool :=
  isNumbered "l".toList (locationStem name) ||
    match afterLead? "n_".toList name with
    | some rest => isNumbered "l".toList rest
    | none => false

/-- The words of the solver's language. -/
def solverWords : List String :=
  ["_", "as", "let", "exists", "forall", "match", "par", "true", "false", "not", "and", "or", "xor",
    "ite", "distinct", "div", "mod", "abs"]

/-- The symbols of the datatype of iterations. -/
def timeSymbols : List String := ["zero", "s", "p", "Sub"]

/-- The ending that makes the name of a function's end out of its name. -/
def endSuffix : String := "_end"

/-- Whether a function may have a name. -/
def checkFunction (name : String) : Except Clash Unit :=
  if !isSymbol name.toList then .error .notSymbol
  else if isLocationName (name.toList ++ endSuffix.toList) then .error (.reserved .timePoint)
  else .ok ()

/-- Whether a variable may have a name in a program with functions of the given names. -/
def checkVariable (functions : List String) (name : String) : Except Clash Unit :=
  let cs := name.toList
  if !isSymbol cs then .error .notSymbol
  else if solverWords.contains name then .error (.reserved .solverWord)
  else if timeSymbols.contains name then .error (.reserved .timeSymbol)
  else if name = "pos" || name = "tr" || (afterLead? "It_".toList cs).isSome then
    .error (.reserved .boundVariable)
  else if isLocationName cs || functions.any (fun f => name = f ++ endSuffix) then
    .error (.reserved .timePoint)
  else if isNumbered "axiom".toList cs || isNumbered "lemma".toList cs then
    .error (.reserved .assertionName)
  else .ok ()

end TraceLogic.Identifier
