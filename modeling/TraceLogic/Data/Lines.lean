/-!
# Lines of a text

A line ends at a line feed, and a carriage return right before the line feed belongs to the line
break. What follows the last line feed is a line too, unless it is empty. No other character ends a
line.
-/

namespace TraceLogic

/-- Puts a character in front of the first line. -/
def extendFirstLine (c : Char) : List (List Char) → List (List Char)
  | [] => [[c]]
  | line :: lines => (c :: line) :: lines

/-- The lines of a list of characters. -/
def lineList : List Char → List (List Char)
  | [] => []
  | '\r' :: '\n' :: cs => [] :: lineList cs
  | '\n' :: cs => [] :: lineList cs
  | c :: cs => extendFirstLine c (lineList cs)

/-- The lines of a text, without their line breaks. -/
def textLines (text : String) : List String :=
  (lineList text.toList).map String.ofList

end TraceLogic
