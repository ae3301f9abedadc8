/-!
# Paths

A path is a text in which slashes divide components. Empty components and dots in the middle do not
count, but a path keeps the text it was made from. `Path.parent?` cuts the last component off,
`Path.join` puts a path behind another, and `Path.ancestors` lists a path and what is left after
cutting off its last component again and again.
-/

namespace TraceLogic

/-- A path of the file system. -/
structure Path where
  text : String
deriving DecidableEq, Inhabited

namespace Path

/-- Divides characters at slashes. -/
def divide : List Char → List (List Char)
  | [] => [[]]
  | c :: cs =>
    if c = '/' then [] :: divide cs
    else
      match divide cs with
      | [] => [[c]]
      | segment :: rest => (c :: segment) :: rest

/-- Puts slashes between segments. -/
def unite : List (List Char) → List Char
  | [] => []
  | [segment] => segment
  | segment :: rest => segment ++ '/' :: unite rest

/-- Whether the path starts at the root. -/
def isAbsolute (p : Path) : Bool := p.text.toList.head? = some '/'

/-- Whether the path is relative and starts with a dot, which then counts as a component. -/
def startsWithDot (cs : List Char) : Bool :=
  match cs with
  | ['.'] => true
  | '.' :: '/' :: _ => true
  | _ => false

/-- What stands in front of the components: the slash of the root, or a dot. -/
def stem (cs : List Char) : List Char :=
  match cs with
  | '/' :: _ => ['/']
  | _ => if startsWithDot cs then ['.'] else []

/-- Whether a segment of a path is a component. -/
def isComponent (segment : List Char) : Bool := segment ≠ [] && segment ≠ ['.']

/-- Drops the segments behind the last component. The segments come in reverse order. -/
def trimBack (segments : List (List Char)) : List (List Char) :=
  segments.dropWhile (fun s => !isComponent s)

/-- The path without its last component. Nothing can be cut off the root or the empty path. -/
def parent? (p : Path) : Option Path :=
  let cs := p.text.toList
  let front := stem cs
  match trimBack (divide (cs.drop front.length)).reverse with
  | _ :: rest => some ⟨String.ofList (front ++ unite (trimBack rest).reverse)⟩
  | [] => if front = ['.'] then some ⟨""⟩ else none

/-- The path behind another path. An absolute path stays as it is. -/
def join (base p : Path) : Path :=
  if p.isAbsolute then p
  else
    match base.text.toList.getLast? with
    | none => p
    | some '/' => ⟨base.text ++ p.text⟩
    | some _ => ⟨base.text ++ "/" ++ p.text⟩

/-- Up to a number of paths, each without the last component of the one before. -/
def ancestorsUpTo : Nat → Path → List Path
  | 0, p => [p]
  | n + 1, p =>
    match p.parent? with
    | some q => p :: ancestorsUpTo n q
    | none => [p]

/-- The path itself, then each time without one more component. A path has at most as many
components as characters. -/
def ancestors (p : Path) : List Path := ancestorsUpTo p.text.length p

end Path

end TraceLogic
