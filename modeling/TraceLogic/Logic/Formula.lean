import TraceLogic.Data.Lines
import TraceLogic.Program.Expr
import TraceLogic.Logic.Term

/-!
# Formulas

Formulas over terms, with labels. A label is a comment on a formula: it is printed above it and has
no part in what the formula says, nor in whether two formulas are the same. `Formula.layout` gives
the lines of a formula's text, with comments and code told apart; `Formula.print` joins them.

`Formula.capturesName` tells whether a printed name could be read in two ways, because a quantifier
binds a name that is already bound, or a symbol is printed like a variable bound around it.
-/

namespace TraceLogic

/-- The two quantifiers. -/
inductive Quantifier
  | all
  | some
deriving DecidableEq

/-- A formula of the logic. -/
inductive Formula
  | equal (lhs rhs : Term)
  | distinct (lhs rhs : Term)
  | predicate (symbol : Symbol) (args : List Term)
  | negation (body : Formula)
  | implication (premise conclusion : Formula)
  | junction (op : Junction) (parts : List Formula)
  | quantified (quantifier : Quantifier) (binders : List Symbol) (body : Formula)
  | labelled (text : String) (body : Formula)

/-- A line of a formula's text. -/
inductive Line
  | comment (indent : Nat) (text : String)
  | code (indent : Nat) (text : String)
deriving DecidableEq

namespace Line

/-- The text of an indented line. -/
def indented (indent : Nat) (text : String) : String :=
  String.ofList (List.replicate indent ' ') ++ text

/-- The text of a line, without its line break. -/
def print : Line → String
  | comment n text => indented n ("; " ++ text)
  | code n text => indented n text

end Line

namespace Formula

instance : Inhabited Formula := ⟨.junction .all []⟩

/-- The formula that says that all parts hold. -/
def conjunction (parts : List Formula) : Formula := .junction .all parts

/-- The formula that says that some part holds. -/
def disjunction (parts : List Formula) : Formula := .junction .any parts

/-- Two terms of one sort are equal. -/
def equal? (lhs rhs : Term) : Except Fault Formula :=
  if lhs.sort = rhs.sort then .ok (.equal lhs rhs)
  else .error (.sortMismatch .equality lhs.sort rhs.sort)

/-- Two terms of one sort differ. -/
def distinct? (lhs rhs : Term) : Except Fault Formula :=
  if lhs.sort = rhs.sort then .ok (.distinct lhs rhs)
  else .error (.sortMismatch .disequality lhs.sort rhs.sort)

/-- Applies a predicate to arguments that fit it. -/
def predicate? (p : Symbol) (ts : List Term) : Except Fault Formula :=
  if p.isPredicate then
    match Term.misfit p ts with
    | none => .ok (.predicate p ts)
    | some fault => .error fault
  else .error (.notPredicate p.name)

/-- Binds at least one variable. -/
def quantified? (q : Quantifier) (binders : List Symbol) (body : Formula) : Except Fault Formula :=
  if binders.isEmpty then .error .emptyQuantifier else .ok (.quantified q binders body)

/-- The label of a formula. -/
def label? : Formula → Option String
  | .labelled text _ => some text
  | _ => none

/-- The formula without the label at its top. -/
def unlabelled : Formula → Formula
  | .labelled _ body => body.unlabelled
  | f => f

/-- Gives the formula a label, in place of the one it had. -/
def withLabel (f : Formula) (text : String) : Formula := .labelled text f.unlabelled

/-- The kinds of formulas, labels apart. -/
inductive Kind
  | equal
  | distinct
  | predicate
  | negation
  | implication
  | junction (op : Junction)
  | quantified (quantifier : Quantifier)
deriving DecidableEq

mutual

/-- The kinds of the formula and of all its parts, each formula before its parts. -/
def kinds : Formula → List Kind
  | .equal _ _ => [.equal]
  | .distinct _ _ => [.distinct]
  | .predicate _ _ => [.predicate]
  | .negation f => .negation :: kinds f
  | .implication f g => .implication :: (kinds f ++ kinds g)
  | .junction op fs => .junction op :: kindsOfParts fs
  | .quantified q _ f => .quantified q :: kinds f
  | .labelled _ f => kinds f

/-- The kinds of a list of formulas and of all their parts. -/
def kindsOfParts : List Formula → List Kind
  | [] => []
  | f :: fs => kinds f ++ kindsOfParts fs

end

mutual

/-- The formula without any label. -/
def erase : Formula → Formula
  | .equal s t => .equal s t
  | .distinct s t => .distinct s t
  | .predicate p ts => .predicate p ts
  | .negation f => .negation (erase f)
  | .implication f g => .implication (erase f) (erase g)
  | .junction op fs => .junction op (eraseParts fs)
  | .quantified q binders f => .quantified q binders (erase f)
  | .labelled _ f => erase f

/-- The formulas of a list without any label. -/
def eraseParts : List Formula → List Formula
  | [] => []
  | f :: fs => erase f :: eraseParts fs

end

mutual

/-- Whether a formula says the same as one that has no label at its top. -/
def agree : Formula → Formula → Bool
  | .labelled _ f, g => agree f g
  | .equal s t, .equal s' t' => s = s' && t = t'
  | .distinct s t, .distinct s' t' => s = s' && t = t'
  | .predicate p ts, .predicate p' ts' => p = p' && ts = ts'
  | .negation f, .negation f' => agree f f'.unlabelled
  | .implication f g, .implication f' g' => agree f f'.unlabelled && agree g g'.unlabelled
  | .junction op fs, .junction op' fs' => op = op' && agreeParts fs fs'
  | .quantified q binders f, .quantified q' binders' f' =>
    q = q' && binders = binders' && agree f f'.unlabelled
  | _, _ => false

/-- Whether formulas say the same as others, one by one. -/
def agreeParts : List Formula → List Formula → Bool
  | [], [] => true
  | f :: fs, f' :: fs' => agree f f'.unlabelled && agreeParts fs fs'
  | _, _ => false

end

/-- Whether two formulas are the same, whatever their labels. -/
def same (f g : Formula) : Bool := agree f g.unlabelled

/-- Whether the printed name of a symbol that is applied in a term is one of the given names. -/
def printsAny (names : List String) : Term → Bool
  | .var _ => false
  | .app f ts => names.contains f.printedName || printsAnyOf ts
where
  printsAnyOf : List Term → Bool
    | [] => false
    | t :: ts => printsAny names t || printsAnyOf ts

mutual

/-- Whether a name is captured in a formula inside quantifiers that bind the given names. -/
def capturesUnder (names : List String) : Formula → Bool
  | .equal s t => printsAny names s || printsAny names t
  | .distinct s t => printsAny names s || printsAny names t
  | .predicate p ts => names.contains p.printedName || ts.any (printsAny names)
  | .negation f => capturesUnder names f
  | .implication f g => capturesUnder names f || capturesUnder names g
  | .junction _ fs => capturesInParts names fs
  | .quantified _ binders f =>
    binders.any (fun b => names.contains b.name) ||
      capturesUnder (names ++ binders.map (·.name)) f
  | .labelled _ f => capturesUnder names f

/-- Whether a name is captured in one of several formulas. -/
def capturesInParts (names : List String) : List Formula → Bool
  | [] => false
  | f :: fs => capturesUnder names f || capturesInParts names fs

end

/-- Whether a printed name could be read in two ways. -/
def capturesName (f : Formula) : Bool := capturesUnder [] f

/-- The operator that joins at least two formulas. -/
def junctionOperator : Junction → String
  | .all => "and"
  | .any => "or"

/-- What a junction without parts says. -/
def junctionUnit : Junction → String
  | .all => "true"
  | .any => "false"

/-- The word for a quantifier. -/
def quantifierWord : Quantifier → String
  | .all => "forall"
  | .some => "exists"

/-- The text of the variables that a quantifier binds. -/
def binderList (binders : List Symbol) : String :=
  String.join (binders.map (fun b => "(" ++ b.name ++ " " ++ b.range.name ++ ")"))

/-- How much deeper the parts of a formula are indented. -/
def indentStep : Nat := 3

mutual

/-- The lines of a formula's text at an indentation. A junction of one part is printed as that
part. -/
def layout (n : Nat) : Formula → List Line
  | .equal s t => [.code n ("(= " ++ s.print ++ " " ++ t.print ++ ")")]
  | .distinct s t => [.code n ("(not (= " ++ s.print ++ " " ++ t.print ++ "))")]
  | .predicate p ts => [.code n (Term.printApp p ts)]
  | .negation f => .code n "(not" :: (layout (n + indentStep) f ++ [.code n ")"])
  | .implication f g =>
    .code n "(=>" :: (layout (n + indentStep) f ++ (layout (n + indentStep) g ++ [.code n ")"]))
  | .junction op [] => [.code n (junctionUnit op)]
  | .junction _ [f] => layout n f
  | .junction op (f :: g :: fs) =>
    .code n ("(" ++ junctionOperator op) ::
      (layout (n + indentStep) f ++ (layoutParts (n + indentStep) (g :: fs) ++ [.code n ")"]))
  | .quantified q binders f =>
    .code n ("(" ++ quantifierWord q ++ " (" ++ binderList binders ++ ")") ::
      (layout (n + indentStep) f ++ [.code n ")"])
  | .labelled text f => (textLines text).map (.comment n) ++ layout n f

/-- The lines of several formulas, one after the other. -/
def layoutParts (n : Nat) : List Formula → List Line
  | [] => []
  | f :: fs => layout n f ++ layoutParts n fs

end

/-- The text of a formula at an indentation, without a final line break. -/
def print (n : Nat) (f : Formula) : String :=
  "\n".intercalate ((layout n f).map (·.print))

end Formula

end TraceLogic
