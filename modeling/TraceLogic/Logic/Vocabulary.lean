import TraceLogic.Logic.Fault

/-!
# The vocabulary of a problem

The sorts and symbols that a problem uses, in the order in which they were first asked for. A
symbol that is there already may be asked for again, but only with the signature that it has: a
name stands for one symbol.
-/

namespace TraceLogic

/-- The sorts and symbols known so far, in order. -/
structure Vocabulary where
  /-- The sorts, of which the solver's own come first. -/
  sorts : List SortSymbol := [.int, .bool]
  /-- The symbols, interpreted ones included. -/
  symbols : List Symbol := []

/-- What a construction asks of a vocabulary. -/
inductive Request
  | sort (sort : SortSymbol)
  | symbol (symbol : Symbol)
deriving DecidableEq

namespace Vocabulary

/-- The vocabulary before any request. -/
def initial : Vocabulary := {}

instance : Inhabited Vocabulary := ⟨initial⟩

/-- The symbol of a name. -/
def lookup? (v : Vocabulary) (name : String) : Option Symbol :=
  v.symbols.find? (fun s => s.name = name)

/-- The vocabulary with a sort, at the end if it is new. -/
def addSort (v : Vocabulary) (s : SortSymbol) : Vocabulary :=
  if s ∈ v.sorts then v else { v with sorts := v.sorts ++ [s] }

/-- The vocabulary with a symbol, at the end if its name is new. -/
def addSymbol (v : Vocabulary) (s : Symbol) : Except Fault Vocabulary :=
  match v.lookup? s.name with
  | none => .ok { v with symbols := v.symbols ++ [s] }
  | some t => if t.sameSignature s then .ok v else .error (.signatureConflict t s)

/-- The vocabulary after a request. -/
def serve (v : Vocabulary) : Request → Except Fault Vocabulary
  | .sort s => .ok (v.addSort s)
  | .symbol s => v.addSymbol s

/-- Serves requests in order up to the first that fails: its fault, if there is one, and the
vocabulary reached. -/
def serveAll (v : Vocabulary) : List Request → Option Fault × Vocabulary
  | [] => (none, v)
  | r :: rs =>
    match v.serve r with
    | .ok w => w.serveAll rs
    | .error fault => (some fault, v)

/-- Requests are served one after the other: the later ones on the vocabulary that the earlier ones
leave, and only if these have been granted. -/
theorem serveAll_append (v : Vocabulary) (rs qs : List Request) :
    v.serveAll (rs ++ qs) =
      match v.serveAll rs with
      | (none, w) => w.serveAll qs
      | (some fault, w) => (some fault, w) := by
  induction rs generalizing v with
  | nil => rfl
  | cons r rs ih =>
    simp only [List.cons_append, serveAll]
    cases v.serve r with
    | ok w => exact ih w
    | error fault => rfl

end Vocabulary

end TraceLogic
