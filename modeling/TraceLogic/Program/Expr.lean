import TraceLogic.Program.Variable

/-!
# Expressions

Integer expressions read variables and array elements; Boolean expressions compare integers and
combine the results. Arithmetic is over unbounded integers. How an expression refers to a variable
is left open: by its name in a program's description, by the variable itself in a program.
-/

namespace TraceLogic

/-- A binary operation on integers. -/
inductive ArithOp
  | add
  | sub
  | mul
deriving DecidableEq

/-- A comparison of two integers. -/
inductive Comparison
  | less
  | lessEq
  | greater
  | greaterEq
  | equal
  | notEqual
deriving DecidableEq

/-- How a list of conditions is joined: all of them hold, or at least one of them does. -/
inductive Junction
  | all
  | any
deriving DecidableEq

/-- An expression whose value is an integer. -/
inductive IntExpr (ν : Type)
  | literal (value : Int)
  | variable (var : ν)
  | element (array : ν) (index : IntExpr ν)
  | arith (op : ArithOp) (lhs rhs : IntExpr ν)
  | negate (operand : IntExpr ν)
deriving DecidableEq

/-- An expression whose value is a truth value. -/
inductive BoolExpr (ν : Type)
  | constant (value : Bool)
  | compare (op : Comparison) (lhs rhs : IntExpr ν)
  | junction (op : Junction) (parts : List (BoolExpr ν))
  | not (operand : BoolExpr ν)

namespace BoolExpr

variable {ν : Type} [DecidableEq ν]

mutual

/-- Equality of Boolean expressions is decided along their structure. -/
def decEq : (a b : BoolExpr ν) → Decidable (a = b)
  | .constant u, .constant v =>
    if h : u = v then isTrue (congrArg _ h) else isFalse (fun hab => h (BoolExpr.constant.inj hab))
  | .compare op lhs rhs, .compare op' lhs' rhs' =>
    if h : op = op' ∧ lhs = lhs' ∧ rhs = rhs' then isTrue (by obtain ⟨rfl, rfl, rfl⟩ := h; rfl)
    else isFalse (fun hab => h (BoolExpr.compare.inj hab))
  | .junction op as, .junction op' bs =>
    match decEqList as bs with
    | isFalse h => isFalse (fun hab => h (BoolExpr.junction.inj hab).2)
    | isTrue h =>
      if hop : op = op' then isTrue (by rw [h, hop])
      else isFalse (fun hab => hop (BoolExpr.junction.inj hab).1)
  | .not a, .not b =>
    match decEq a b with
    | isTrue h => isTrue (congrArg _ h)
    | isFalse h => isFalse (fun hab => h (BoolExpr.not.inj hab))
  | .constant _, .compare _ _ _ => isFalse nofun
  | .constant _, .junction _ _ => isFalse nofun
  | .constant _, .not _ => isFalse nofun
  | .compare _ _ _, .constant _ => isFalse nofun
  | .compare _ _ _, .junction _ _ => isFalse nofun
  | .compare _ _ _, .not _ => isFalse nofun
  | .junction _ _, .constant _ => isFalse nofun
  | .junction _ _, .compare _ _ _ => isFalse nofun
  | .junction _ _, .not _ => isFalse nofun
  | .not _, .constant _ => isFalse nofun
  | .not _, .compare _ _ _ => isFalse nofun
  | .not _, .junction _ _ => isFalse nofun

/-- Equality of lists of Boolean expressions. -/
def decEqList : (as bs : List (BoolExpr ν)) → Decidable (as = bs)
  | [], [] => isTrue rfl
  | [], _ :: _ => isFalse nofun
  | _ :: _, [] => isFalse nofun
  | a :: as, b :: bs =>
    match decEq a b with
    | isFalse h => isFalse (fun hab => h (List.cons.inj hab).1)
    | isTrue h =>
      match decEqList as bs with
      | isTrue hs => isTrue (by rw [h, hs])
      | isFalse hs => isFalse (fun hab => hs (List.cons.inj hab).2)

end

instance : DecidableEq (BoolExpr ν) := decEq

end BoolExpr

/-- What an assignment writes to. -/
inductive Target (ν : Type)
  | scalar (var : ν)
  | element (array : ν) (index : IntExpr ν)
deriving DecidableEq

/-- The variable that an assignment to the target changes. -/
def Target.written {ν : Type} : Target ν → ν
  | .scalar var => var
  | .element array _ => array

end TraceLogic
