import TraceLogic.Logic.Fault

/-!
# Terms

A term is a bound variable or a symbol applied to terms. `Term.app?` applies a symbol only to as
many arguments as it takes, each of the sort that it asks for; the first argument that does not fit
is the fault. `Term.print` writes a term for the solver, where a negative literal is the negation of
its magnitude.
-/

namespace TraceLogic

/-- A term of the logic. -/
inductive Term
  | var (symbol : Symbol)
  | app (symbol : Symbol) (args : List Term)

namespace Term

instance : Inhabited Term := ⟨.var default⟩

mutual

/-- Equality of terms is decided along their structure. -/
def decEq : (s t : Term) → Decidable (s = t)
  | .var f, .var g =>
    if h : f = g then isTrue (congrArg Term.var h) else isFalse (fun hst => h (Term.var.inj hst))
  | .var _, .app _ _ => isFalse nofun
  | .app _ _, .var _ => isFalse nofun
  | .app f ss, .app g ts =>
    if h : f = g then
      match decEqList ss ts with
      | isTrue hs => isTrue (by rw [h, hs])
      | isFalse hs => isFalse (fun hst => hs (Term.app.inj hst).2)
    else isFalse (fun hst => h (Term.app.inj hst).1)

/-- Equality of lists of terms. -/
def decEqList : (ss ts : List Term) → Decidable (ss = ts)
  | [], [] => isTrue rfl
  | [], _ :: _ => isFalse nofun
  | _ :: _, [] => isFalse nofun
  | s :: ss, t :: ts =>
    match decEq s t with
    | isFalse h => isFalse (fun hst => h (List.cons.inj hst).1)
    | isTrue h =>
      match decEqList ss ts with
      | isTrue hs => isTrue (by rw [h, hs])
      | isFalse hs => isFalse (fun hst => hs (List.cons.inj hst).2)

end

instance : DecidableEq Term := decEq

/-- The symbol that heads a term. -/
def head : Term → Symbol
  | .var f => f
  | .app f _ => f

/-- The arguments of a term. -/
def args : Term → List Term
  | .var _ => []
  | .app _ ts => ts

/-- The sort of a term. -/
def sort (t : Term) : SortSymbol := t.head.range

/-- The first argument, counted from the given index, whose sort is not the expected one. -/
def firstMisfit (symbol : String) : Nat → List SortSymbol → List Term → Option Fault
  | i, s :: sorts, t :: ts =>
    if t.sort = s then firstMisfit symbol (i + 1) sorts ts
    else some (.sortMismatch (.argument i symbol) s t.sort)
  | _, _, _ => none

/-- Why a symbol cannot be applied to arguments, if it cannot. -/
def misfit (f : Symbol) (ts : List Term) : Option Fault :=
  if ts.length = f.arity then firstMisfit f.name 0 f.domain ts
  else some (.arityMismatch f.name f.arity ts.length)

/-- There is no misfit among as many terms as sorts if and only if each term has the sort at its
place. -/
theorem firstMisfit_eq_none_iff {name : String} {i : Nat} {sorts : List SortSymbol}
    {ts : List Term} (hlength : ts.length = sorts.length) :
    firstMisfit name i sorts ts = none ↔ ts.map sort = sorts := by
  induction ts generalizing i sorts with
  | nil =>
    obtain rfl := List.eq_nil_of_length_eq_zero hlength.symm
    exact iff_of_true rfl rfl
  | cons t ts ih =>
    cases sorts with
    | nil => cases hlength
    | cons s sorts =>
      rw [firstMisfit, List.map_cons, List.cons.injEq]
      split
      · rename_i hsort
        rw [ih (Nat.succ.inj hlength), and_iff_right hsort]
      · rename_i hsort
        exact iff_of_false nofun fun h => hsort h.1

/-- Arguments fit a symbol if they have the sorts of its domain. -/
theorem misfit_eq_none_iff {f : Symbol} {ts : List Term} :
    misfit f ts = none ↔ ts.map sort = f.domain := by
  unfold misfit
  split
  · rename_i hlength
    exact firstMisfit_eq_none_iff hlength
  · rename_i hlength
    refine iff_of_false nofun fun h => hlength ?_
    rw [Symbol.arity, ← h, List.length_map]

/-- Applies a symbol to arguments that fit it. -/
def app? (f : Symbol) (ts : List Term) : Except Fault Term :=
  match misfit f ts with
  | none => .ok (.app f ts)
  | some fault => .error fault

/-- The text of a symbol without arguments. An interpreted name that starts with a minus sign is a
negative literal. -/
def printConstant (f : Symbol) : String :=
  match f.interpreted, f.printedName.toList with
  | true, '-' :: d :: ds => "(- " ++ String.ofList (d :: ds) ++ ")"
  | _, _ => f.printedName

mutual

/-- The text of a term. -/
def print : Term → String
  | .var f => f.name
  | .app f [] => printConstant f
  | .app f (t :: ts) => "(" ++ f.printedName ++ " " ++ print t ++ printRest ts ++ ")"

/-- The text of further arguments, each after a blank. -/
def printRest : List Term → String
  | [] => ""
  | t :: ts => " " ++ print t ++ printRest ts

end

/-- The text of a symbol applied to arguments. -/
def printApp (f : Symbol) (ts : List Term) : String := print (.app f ts)

end Term

end TraceLogic
