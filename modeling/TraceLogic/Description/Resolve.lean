import TraceLogic.Description.Decode
import TraceLogic.Program.Identifier

/-!
# From descriptions to programs

Resolving a description binds names to declared variables, numbers the statements of the whole
program in order, each before those nested in it, and puts a `skip` into empty branches and loop
bodies. The first fault in that order is the one reported.
-/

namespace TraceLogic

/-- Why a program cannot be loaded. -/
inductive LoadFault
  | unreadable (path reason : String)
  | refused (refusal : Description.Refusal)
  | unknownVariable (function name : String)
  | duplicateVariable (function name : String)
  | duplicateFunction (name : String)
  | shapeMismatch (function name : String) (usedAsArray : Bool)
  | assignToConstant (function name : String)
  | invalidIdentifier (function name : String)
  | reservedName (function name : String) (role : Identifier.Role)
deriving DecidableEq

namespace LoadFault

/-- The words for scalars and arrays. -/
def shape (isArray : Bool) : String := if isArray then "an array" else "a scalar"

/-- The text of a fault. Where a description is refused, the text it was read from is needed to tell
the place. -/
def message (source : String) : LoadFault → String
  | unreadable path reason => "failed to read " ++ path ++ ": " ++ reason
  | refused refusal =>
    "invalid program description: " ++ refusal.message source.toUTF8.toList
  | unknownVariable f x => "function `" ++ f ++ "` uses undeclared variable `" ++ x ++ "`"
  | duplicateVariable f x => "function `" ++ f ++ "` declares variable `" ++ x ++ "` twice"
  | duplicateFunction f => "function `" ++ f ++ "` is defined twice"
  | shapeMismatch f x usedAsArray =>
    "function `" ++ f ++ "` uses `" ++ x ++ "` as " ++ shape usedAsArray ++
      ", but it is declared as " ++ shape (!usedAsArray)
  | assignToConstant f x => "function `" ++ f ++ "` assigns to constant `" ++ x ++ "`"
  | invalidIdentifier f x => "`" ++ x ++ "` in function `" ++ f ++ "` is not a valid identifier"
  | reservedName f x role =>
    "`" ++ x ++ "` in function `" ++ f ++ "` is reserved as " ++ role.describe

/-- The code under which a fault is reported. -/
def code : LoadFault → String
  | unreadable _ _ => "tlv::load::io"
  | refused _ => "tlv::load::syntax"
  | unknownVariable _ _ => "tlv::load::unknown_variable"
  | duplicateVariable _ _ => "tlv::load::duplicate_variable"
  | duplicateFunction _ => "tlv::load::duplicate_function"
  | shapeMismatch _ _ _ => "tlv::load::shape_mismatch"
  | assignToConstant _ _ => "tlv::load::assign_to_constant"
  | invalidIdentifier _ _ => "tlv::load::invalid_identifier"
  | reservedName _ _ _ => "tlv::load::reserved_name"

/-- What a user can do about a fault. -/
def help : LoadFault → Option String
  | unknownVariable _ _ => some "declare it in the function's `variables` list"
  | invalidIdentifier _ _ =>
    some "identifiers are letters, digits and `_`, and do not start with a digit"
  | reservedName _ _ _ => some "rename it"
  | _ => none

/-- The fault of a name that cannot be used in a function. -/
def ofClash (function name : String) : Identifier.Clash → LoadFault
  | .notSymbol => invalidIdentifier function name
  | .reserved role => reservedName function name role

end LoadFault

namespace Description

/-- The variables of the function that is being resolved. -/
structure Scope where
  function : String
  declared : List Variable

namespace Scope

/-- The declared variable of a name, used as a scalar or as an array. -/
def lookup (s : Scope) (name : String) (asArray : Bool) : Except LoadFault Variable :=
  match s.declared.find? (fun x => x.name = name) with
  | none => .error (.unknownVariable s.function name)
  | some x =>
    if x.isArray = asArray then .ok x else .error (.shapeMismatch s.function name asArray)

/-- The declared variable of a name that is assigned to. -/
def writable (s : Scope) (name : String) (asArray : Bool) : Except LoadFault Variable := do
  let x ← s.lookup name asArray
  if x.isConstant then .error (.assignToConstant s.function name) else .ok x

/-- Resolves an integer expression. -/
def intExpr (s : Scope) : IntExpr String → Except LoadFault (IntExpr Variable)
  | .literal n => .ok (.literal n)
  | .variable name => do
    let x ← s.lookup name false
    pure (.variable x)
  | .element name index => do
    let a ← s.lookup name true
    let i ← s.intExpr index
    pure (.element a i)
  | .arith op lhs rhs => do
    let l ← s.intExpr lhs
    let r ← s.intExpr rhs
    pure (.arith op l r)
  | .negate operand => do
    let o ← s.intExpr operand
    pure (.negate o)

mutual

/-- Resolves a Boolean expression. -/
def boolExpr (s : Scope) : BoolExpr String → Except LoadFault (BoolExpr Variable)
  | .constant b => .ok (.constant b)
  | .compare op lhs rhs => do
    let l ← s.intExpr lhs
    let r ← s.intExpr rhs
    pure (.compare op l r)
  | .junction op parts => do
    let ps ← s.boolExprs parts
    pure (.junction op ps)
  | .not operand => do
    let o ← s.boolExpr operand
    pure (.not o)

/-- Resolves several Boolean expressions. -/
def boolExprs (s : Scope) : List (BoolExpr String) → Except LoadFault (List (BoolExpr Variable))
  | [] => .ok []
  | b :: rest => do
    let c ← s.boolExpr b
    let cs ← s.boolExprs rest
    pure (c :: cs)

end

/-- Resolves the target of an assignment. -/
def target (s : Scope) : Target String → Except LoadFault (Target Variable)
  | .scalar name => do
    let x ← s.writable name false
    pure (.scalar x)
  | .element name index => do
    let a ← s.writable name true
    let i ← s.intExpr index
    pure (.element a i)

/-- The site of the statement with a number. -/
def siteOf (number : Nat) : Site := ⟨number, "l" ++ number.repr⟩

mutual

/-- Resolves a statement inside loops. The number is the last one given, and the last one given to
the statement or one nested in it comes with the result. -/
def command (s : Scope) (loops : List String) (number : Nat) :
    Command → Except LoadFault (Statement × Nat)
  | .assign t value => do
    let t' ← s.target t
    let e ← s.intExpr value
    pure (.assign (siteOf (number + 1)) t' e, number + 1)
  | .branch condition thenBlock elseBlock => do
    let b ← s.boolExpr condition
    let (thens, n) ← s.nestedBlock loops (number + 1) thenBlock
    let (elses, m) ← s.nestedBlock loops n elseBlock
    pure (.branch (siteOf (number + 1)) b thens elses, m)
  | .loop condition body => do
    let site := siteOf (number + 1)
    let b ← s.boolExpr condition
    let (inside, n) ← s.nestedBlock (loops ++ [site.location]) (number + 1) body
    pure (.loop site loops b inside, n)
  | .skip => .ok (.skip (siteOf (number + 1)), number + 1)

/-- Resolves a block inside a statement, which gets a `skip` if it is empty. -/
def nestedBlock (s : Scope) (loops : List String) (number : Nat) :
    List Command → Except LoadFault (List Statement × Nat)
  | [] => .ok ([.skip (siteOf (number + 1))], number + 1)
  | c :: rest => do
    let (t, n) ← s.command loops number c
    let (ts, m) ← s.block loops n rest
    pure (t :: ts, m)

/-- Resolves the statements of a block. -/
def block (s : Scope) (loops : List String) (number : Nat) :
    List Command → Except LoadFault (List Statement × Nat)
  | [] => .ok ([], number)
  | c :: rest => do
    let (t, n) ← s.command loops number c
    let (ts, m) ← s.block loops n rest
    pure (t :: ts, m)

end

end Scope

/-- Turns a clash of names into a fault. -/
def checked (function name : String) : Except Identifier.Clash Unit → Except LoadFault Unit
  | .ok () => .ok ()
  | .error clash => .error (.ofClash function name clash)

/-- Declares variables after those declared already. -/
def declareVariables (functions : List String) (s : Scope) :
    List VariableEntry → Except LoadFault Scope
  | [] => .ok s
  | v :: rest => do
    checked s.function v.name (Identifier.checkVariable functions v.name)
    if s.declared.any (fun x => x.name = v.name) then
      .error (.duplicateVariable s.function v.name)
    else
      declareVariables functions
        { s with declared := s.declared ++ [⟨v.name, v.isArray, v.isConstant⟩] } rest

/-- Resolves a function. -/
def resolveFunction (functions : List String) (number : Nat) (f : FunctionEntry) :
    Except LoadFault (Function × Nat) := do
  let s ← declareVariables functions ⟨f.name, []⟩ f.declared
  let (statements, n) ← s.block [] number f.commands
  match f.postcondition with
  | none => pure (⟨f.name, s.declared, statements, none⟩, n)
  | some b => do
    let post ← s.boolExpr b
    pure (⟨f.name, s.declared, statements, some post⟩, n)

/-- Resolves functions after those resolved already. -/
def resolveFunctions (names earlier : List String) (number : Nat) :
    List FunctionEntry → Except LoadFault (List Function)
  | [] => .ok []
  | f :: rest => do
    checked f.name f.name (Identifier.checkFunction f.name)
    if earlier.contains f.name then .error (.duplicateFunction f.name)
    else
      let (g, n) ← resolveFunction names number f
      let gs ← resolveFunctions names (f.name :: earlier) n rest
      pure (g :: gs)

/-- The program of a description. -/
def resolve (d : Description) : Except LoadFault Program := do
  let fs ← resolveFunctions (d.functions.map (·.name)) [] 0 d.functions
  pure ⟨fs⟩

end Description

/-- Loads the program that a text describes. -/
def Program.load (source : String) : Except LoadFault Program :=
  match Description.parse source with
  | .ok d => d.resolve
  | .error refusal => .error (.refused refusal)

end TraceLogic
