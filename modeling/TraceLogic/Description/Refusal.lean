import TraceLogic.Json.Basic

/-!
# Why a text is no description

A refusal tells what is wrong and how much of the text had been read when it was found. Lines and
columns count from one; the column is the number of bytes read on the line. `byteOffset` finds the
place of a line and a column in the text again. It adds machine words, which wrap around.
-/

namespace TraceLogic

namespace Description

/-- What is wrong with a text that should be a description. -/
inductive Refusal.Cause
  | malformed (cause : Json.Malformed)
  | wrongType (found expected : String)
  | unknownField (name : String) (expected : List String)
  | duplicateField (name : String)
  | missingField (name : String)
  | unknownVariant (name : String) (expected : List String)
  | wrongLength
  | noTarget
deriving DecidableEq

/-- What is wrong with a text, and how many bytes of it had been read. -/
structure Refusal where
  cause : Refusal.Cause
  read : Nat
deriving DecidableEq

namespace Refusal

/-- A name in backquotes. -/
def quoted (name : String) : String := "`" ++ name ++ "`"

/-- The names that could have stood somewhere. -/
def candidates : List String → String
  | [name] => quoted name
  | [first, second] => quoted first ++ " or " ++ quoted second
  | names => "one of " ++ ", ".intercalate (names.map quoted)

/-- The words for what is wrong with a text. -/
def Cause.describe : Cause → String
  | .malformed cause => cause.describe
  | .wrongType found expected => "invalid type: " ++ found ++ ", expected " ++ expected
  | .unknownField name expected =>
    "unknown field " ++ quoted name ++ ", expected " ++ candidates expected
  | .duplicateField name => "duplicate field " ++ quoted name
  | .missingField name => "missing field " ++ quoted name
  | .unknownVariant name expected =>
    "unknown variant " ++ quoted name ++ ", expected " ++ candidates expected
  | .wrongLength => "invalid length"
  | .noTarget => "data did not match any variant of an assignment target"

end Refusal

/-- The line feed. -/
def lineFeed : UInt8 := 10

/-- The line and the column after reading a number of bytes. -/
def lineColumn (text : List UInt8) (read : Nat) : Nat × Nat :=
  let before := text.take read
  (1 + before.count lineFeed, (before.reverse.takeWhile (· ≠ lineFeed)).length)

/-- The lengths of the lines of a text, line feeds included. -/
def lineLengths : List UInt8 → List Nat
  | [] => []
  | b :: rest =>
    if b = lineFeed then 1 :: lineLengths rest
    else
      match lineLengths rest with
      | [] => [1]
      | n :: ns => (n + 1) :: ns

/-- One less than a word, and zero for zero. -/
def saturatingPred (n : USize) : USize := if n = 0 then 0 else n - 1

/-- The number of bytes in front of a line, which is counted from one. -/
def lineStart (text : List UInt8) (line : USize) : USize :=
  ((lineLengths text).take (saturatingPred line).toNat).foldr (fun n sum => .ofNat n + sum) 0

/-- The offset of a line and a column in a text, both counted from one, and never past its end. -/
def byteOffset (text : List UInt8) (line column : USize) : USize :=
  min (lineStart text line + saturatingPred column) (.ofNat text.length)

/-- The text of a refusal. -/
def Refusal.message (r : Refusal) (text : List UInt8) : String :=
  let (line, column) := lineColumn text r.read
  r.cause.describe ++ " at line " ++ line.repr ++ " column " ++ column.repr

/-- The offset in the text that a refusal points at. -/
def Refusal.offset (r : Refusal) (text : List UInt8) : USize :=
  let (line, column) := lineColumn text r.read
  byteOffset text (.ofNat line) (.ofNat column)

end Description

end TraceLogic
