import TraceLogic.Program.Statement

/-!
# Descriptions of programs

A description is a program as its author writes it: variables are referred to by name, blocks may be
empty, and statements have no numbers yet.
-/

namespace TraceLogic

namespace Description

/-- The declaration of a variable. -/
structure VariableEntry where
  name : String
  isArray : Bool := false
  isConstant : Bool := false
deriving DecidableEq

/-- A statement as it is written. -/
inductive Command
  | assign (target : Target String) (value : IntExpr String)
  | branch (condition : BoolExpr String) (thenBlock elseBlock : List Command)
  | loop (condition : BoolExpr String) (body : List Command)
  | skip

/-- A function as it is written. -/
structure FunctionEntry where
  name : String
  declared : List VariableEntry := []
  commands : List Command := []
  postcondition : Option (BoolExpr String) := none

end Description

/-- A program as it is written. -/
structure Description where
  functions : List Description.FunctionEntry

end TraceLogic
