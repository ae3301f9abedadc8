import TraceLogic.Data.Decimal

/-!
# JSON documents

A document is kept as a tree that also tells how much of the text had been read at the places where
a reader of the tree may find fault. Reading never fails outright: where the text stops being JSON
the tree ends in a break, and everything in front of it is there. Whoever goes through a tree in the
order of the text therefore meets the faults of the text in that order.
-/

namespace TraceLogic

/-- Ways in which a text is no JSON document. -/
inductive Json.Malformed
  | endInValue
  | endInList
  | endInObject
  | endInString
  | colonExpected
  | listEndExpected
  | objectEndExpected
  | wordExpected
  | valueExpected
  | badEscape
  | badNumber
  | numberRange
  | controlCharacter
  | keyExpected
  | loneSurrogate
  | trailingComma
  | trailingCharacters
  | tooDeep
deriving DecidableEq

/-- The words for a way in which a text is no JSON document. -/
def Json.Malformed.describe : Json.Malformed → String
  | .endInValue => "EOF while parsing a value"
  | .endInList => "EOF while parsing a list"
  | .endInObject => "EOF while parsing an object"
  | .endInString => "EOF while parsing a string"
  | .colonExpected => "expected `:`"
  | .listEndExpected => "expected `,` or `]`"
  | .objectEndExpected => "expected `,` or `\x7d`"
  | .wordExpected => "expected ident"
  | .valueExpected => "expected value"
  | .badEscape => "invalid escape"
  | .badNumber => "invalid number"
  | .numberRange => "number out of range"
  | .controlCharacter => "control character (\\u0000-\\u001F) found while parsing a string"
  | .keyExpected => "key must be a string"
  | .loneSurrogate => "lone leading surrogate in hex escape"
  | .trailingComma => "trailing comma"
  | .trailingCharacters => "trailing characters"
  | .tooDeep => "recursion limit exceeded"

/-- Where a text stops being JSON: why, and how many bytes had been read. -/
structure Json.Break where
  cause : Json.Malformed
  read : Nat
deriving DecidableEq

/-- The name of a member of an object. -/
structure Json.Key where
  /-- The name, unless an escape in it names no character. -/
  name : Option String
  /-- The bytes read up to the end of the name. -/
  stop : Nat
  /-- The bytes read up to the next thing after the name that is not blank. -/
  next : Nat
deriving DecidableEq

/-- A JSON document, or the part of it in front of a break. Offsets count the bytes read up to the
end of a value. -/
inductive Json
  | null (stop : Nat)
  | boolean (value : Bool) (stop : Nat)
  | number (value : Decimal) (stop : Nat)
  | string (value : Option String) (stop : Nat)
  | array (items : List Json) (close : Except Json.Break Nat)
  | object (members : List (Json.Key × Json)) (close : Except Json.Break Nat)
  | broken (at_ : Json.Break)

namespace Json

instance : Inhabited Json := ⟨.null 0⟩

end Json

end TraceLogic
