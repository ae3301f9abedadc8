import TraceLogic.Json.Basic

/-!
# Reading JSON

`Json.read` reads a text as one JSON document with nothing but blanks around it. Blanks are spaces,
tabs, line feeds and carriage returns.
-/

namespace TraceLogic.Json

/-- What is left of a text, and how many bytes of it have been read. -/
structure Cursor where
  rest : List Char
  read : Nat

/-- Whether a character may stand between the parts of a document. -/
def isBlank (c : Char) : Bool := c = ' ' || c = '\t' || c = '\n' || c = '\r'

/-- Passes over blanks. -/
def skipBlanks : List Char → Nat → Cursor
  | c :: rest, n => if isBlank c then skipBlanks rest (n + 1) else ⟨c :: rest, n⟩
  | [], n => ⟨[], n⟩

/-- The break at a character that has been looked at and not read, or at the end of the text. -/
def breakAt (cause : Malformed) (c : Cursor) : Break :=
  ⟨cause, if c.rest.isEmpty then c.read else c.read + 1⟩

/-- Reads the rest of a word. -/
def readWord : List Char → List Char → Nat → Except Break Cursor
  | [], rest, n => .ok ⟨rest, n⟩
  | _ :: _, [], n => .error ⟨.endInValue, n⟩
  | w :: word, c :: rest, n =>
    if c = w then readWord word rest (n + 1) else .error ⟨.wordExpected, n + c.utf8Size⟩

/-- The value of a hexadecimal digit. -/
def hexValue? (c : Char) : Option Nat :=
  if c.isDigit then some (c.toNat - '0'.toNat)
  else if 'a' ≤ c ∧ c ≤ 'f' then some (c.toNat - 'a'.toNat + 10)
  else if 'A' ≤ c ∧ c ≤ 'F' then some (c.toNat - 'A'.toNat + 10)
  else none

/-- The value of hexadecimal digits. -/
def hexDigits? (digits : List Char) : Option Nat :=
  digits.foldl (fun acc c => do let n ← acc; let d ← hexValue? c; pure (16 * n + d)) (some 0)

/-- A part of a string: a character, or the sixteen bits that an escape gives. -/
inductive Piece
  | char (c : Char)
  | unit (code : Nat)

/-- The character of an escape that is one letter long. -/
def simpleEscape? : Char → Option Char
  | '"' => some '"'
  | '\\' => some '\\'
  | '/' => some '/'
  | 'b' => some '\x08'
  | 'f' => some '\x0c'
  | 'n' => some '\n'
  | 'r' => some '\r'
  | 't' => some '\t'
  | _ => none

/-- Reads a string after its opening quote. -/
def readPieces (fuel : Nat) (rest : List Char) (n : Nat) : Except Break (List Piece × Cursor) :=
  match fuel, rest with
  | 0, _ => .error ⟨.endInString, n⟩
  | _, [] => .error ⟨.endInString, n⟩
  | _, '"' :: rest => .ok ([], ⟨rest, n + 1⟩)
  | fuel + 1, '\\' :: rest =>
    match rest with
    | [] => .error ⟨.endInString, n + 1⟩
    | 'u' :: d1 :: d2 :: d3 :: d4 :: rest =>
      match hexDigits? [d1, d2, d3, d4] with
      | none => .error ⟨.badEscape, n + 6⟩
      | some code => do
        let (pieces, c) ← readPieces fuel rest (n + 6)
        pure (.unit code :: pieces, c)
    | 'u' :: rest => .error ⟨.endInString, n + 2 + rest.length⟩
    | e :: rest =>
      match simpleEscape? e with
      | none => .error ⟨.badEscape, n + 1 + e.utf8Size⟩
      | some ch => do
        let (pieces, c) ← readPieces fuel rest (n + 2)
        pure (.char ch :: pieces, c)
  | fuel + 1, ch :: rest =>
    if ch.toNat < 0x20 then .error ⟨.controlCharacter, n + 1⟩
    else do
      let (pieces, c) ← readPieces fuel rest (n + ch.utf8Size)
      pure (.char ch :: pieces, c)

/-- The characters of a string. A code outside the basic plane is given by two escapes in a row;
half of such a pair names no character. -/
def joinPieces : List Piece → Option (List Char)
  | [] => some []
  | .char c :: rest => (joinPieces rest).map (c :: ·)
  | .unit hi :: .unit lo :: rest =>
    if 0xD800 ≤ hi ∧ hi < 0xDC00 then
      if 0xDC00 ≤ lo ∧ lo < 0xE000 then
        (joinPieces rest).map (Char.ofNat (0x10000 + (hi - 0xD800) * 0x400 + (lo - 0xDC00)) :: ·)
      else none
    else if 0xDC00 ≤ hi ∧ hi < 0xE000 then none
    else (joinPieces (.unit lo :: rest)).map (Char.ofNat hi :: ·)
  | .unit code :: rest =>
    if 0xD800 ≤ code ∧ code < 0xE000 then none
    else (joinPieces rest).map (Char.ofNat code :: ·)

/-- Reads a string after its opening quote. The string is missing if it has no characters. -/
def readString (rest : List Char) (n : Nat) : Except Break (Option String × Cursor) := do
  let (pieces, c) ← readPieces (rest.length + 1) rest n
  pure ((joinPieces pieces).map String.ofList, c)

/-- Reads digits. -/
def readDigits (c : Cursor) : List Char × Cursor :=
  let digits := c.rest.takeWhile Char.isDigit
  (digits, ⟨c.rest.dropWhile Char.isDigit, c.read + digits.length⟩)

/-- Reads at least one digit. -/
def readSomeDigits (c : Cursor) : Except Break (List Char × Cursor) :=
  match c.rest with
  | [] => .error ⟨.endInValue, c.read⟩
  | d :: _ => if d.isDigit then .ok (readDigits c) else .error (breakAt .badNumber c)

/-- Reads the digits in front of the point: a zero alone, or digits that do not start with zero. -/
def readWhole (c : Cursor) : Except Break (List Char × Cursor) :=
  match c.rest with
  | '0' :: d :: rest =>
    if d.isDigit then .error (breakAt .badNumber ⟨d :: rest, c.read + 1⟩)
    else .ok (['0'], ⟨d :: rest, c.read + 1⟩)
  | _ => readSomeDigits c

/-- Reads the point and the digits after it, if they are there. -/
def readFraction (c : Cursor) : Except Break (List Char × Cursor) :=
  match c.rest with
  | '.' :: rest => readSomeDigits ⟨rest, c.read + 1⟩
  | _ => .ok ([], c)

/-- Reads the exponent, if it is there. -/
def readExponent (c : Cursor) : Except Break (Option Int × Cursor) :=
  match c.rest with
  | e :: rest =>
    if e = 'e' ∨ e = 'E' then
      match rest with
      | '-' :: rest => do
        let (digits, c) ← readSomeDigits ⟨rest, c.read + 2⟩
        pure (some (-(digitsValue digits : Int)), c)
      | '+' :: rest => do
        let (digits, c) ← readSomeDigits ⟨rest, c.read + 2⟩
        pure (some (digitsValue digits : Int), c)
      | _ => do
        let (digits, c) ← readSomeDigits ⟨rest, c.read + 1⟩
        pure (some (digitsValue digits : Int), c)
    else .ok (none, c)
  | [] => .ok (none, c)

/-- Reads a number. -/
def readNumber (c : Cursor) : Except Break (Decimal × Cursor) := do
  let (negative, c) : Bool × Cursor :=
    match c.rest with
    | '-' :: rest => (true, ⟨rest, c.read + 1⟩)
    | _ => (false, c)
  let (whole, c) ← readWhole c
  let (fraction, c) ← readFraction c
  let (exponent, c) ← readExponent c
  pure (⟨negative, whole, fraction, exponent⟩, c)

/-- Reads the name of a member after its opening quote. -/
def readKey (rest : List Char) (n : Nat) : Except Break (Key × Cursor) := do
  let (name, c) ← readString rest n
  let c' := skipBlanks c.rest c.read
  pure (⟨name, c.read, c'.read⟩, c')

/-- A value and what is left of the text, or a break. -/
abbrev Reading (α : Type) := α × Except Break Cursor

/-- A value that ends a text. -/
def brokenAt (b : Break) : Reading Json := (.broken b, .error b)

mutual

/-- Reads a value after blanks. -/
def readValue (fuel : Nat) (text : Cursor) : Reading Json :=
  match fuel with
  | 0 => brokenAt ⟨.tooDeep, text.read⟩
  | fuel + 1 =>
    let c := skipBlanks text.rest text.read
    match c.rest with
    | [] => brokenAt ⟨.endInValue, c.read⟩
    | '"' :: rest =>
      match readString rest (c.read + 1) with
      | .ok (value, c) => (.string value c.read, .ok c)
      | .error b => brokenAt b
    | '[' :: rest =>
      let (items, close, after) := readItems fuel true ⟨rest, c.read + 1⟩
      (.array items close, after)
    | '{' :: rest =>
      let (members, close, after) := readMembers fuel true ⟨rest, c.read + 1⟩
      (.object members close, after)
    | 'n' :: rest =>
      match readWord "ull".toList rest (c.read + 1) with
      | .ok c => (.null c.read, .ok c)
      | .error b => brokenAt b
    | 't' :: rest =>
      match readWord "rue".toList rest (c.read + 1) with
      | .ok c => (.boolean true c.read, .ok c)
      | .error b => brokenAt b
    | 'f' :: rest =>
      match readWord "alse".toList rest (c.read + 1) with
      | .ok c => (.boolean false c.read, .ok c)
      | .error b => brokenAt b
    | d :: _ =>
      if d = '-' ∨ d.isDigit then
        match readNumber c with
        | .ok (value, c) => (.number value c.read, .ok c)
        | .error b => brokenAt b
      else brokenAt (breakAt .valueExpected c)

/-- Reads the items of an array up to its end. Only the first item has no comma in front. -/
def readItems (fuel : Nat) (first : Bool) (text : Cursor) :
    List Json × Except Break Nat × Except Break Cursor :=
  match fuel with
  | 0 => ([], .error ⟨.tooDeep, text.read⟩, .error ⟨.tooDeep, text.read⟩)
  | fuel + 1 =>
    let stop (b : Break) := (([], .error b, .error b) :
      List Json × Except Break Nat × Except Break Cursor)
    let item (c : Cursor) :=
      match readValue fuel c with
      | (value, .error b) => ([value], .error b, .error b)
      | (value, .ok c) =>
        let (items, close, after) := readItems fuel false c
        (value :: items, close, after)
    let c := skipBlanks text.rest text.read
    match c.rest with
    | [] => stop ⟨.endInList, c.read⟩
    | ']' :: rest => ([], .ok (c.read + 1), .ok ⟨rest, c.read + 1⟩)
    | ',' :: rest =>
      if first then item c
      else
        let c := skipBlanks rest (c.read + 1)
        match c.rest with
        | [] => stop ⟨.endInValue, c.read⟩
        | ']' :: _ => stop (breakAt .trailingComma c)
        | _ => item c
    | _ => if first then item c else stop (breakAt .listEndExpected c)

/-- Reads the members of an object up to its end. Only the first member has no comma in front. -/
def readMembers (fuel : Nat) (first : Bool) (text : Cursor) :
    List (Key × Json) × Except Break Nat × Except Break Cursor :=
  match fuel with
  | 0 => ([], .error ⟨.tooDeep, text.read⟩, .error ⟨.tooDeep, text.read⟩)
  | fuel + 1 =>
    let stop (b : Break) := (([], .error b, .error b) :
      List (Key × Json) × Except Break Nat × Except Break Cursor)
    let member (rest : List Char) (n : Nat) :=
      match readKey rest n with
      | .error b => stop b
      | .ok (key, c) =>
        match c.rest with
        | ':' :: rest =>
          match readValue fuel ⟨rest, c.read + 1⟩ with
          | (value, .error b) => ([(key, value)], .error b, .error b)
          | (value, .ok c) =>
            let (members, close, after) := readMembers fuel false c
            ((key, value) :: members, close, after)
        | [] => ([(key, .broken ⟨.endInObject, c.read⟩)], .error ⟨.endInObject, c.read⟩,
            .error ⟨.endInObject, c.read⟩)
        | _ =>
          let b := breakAt .colonExpected c
          ([(key, .broken b)], .error b, .error b)
    let c := skipBlanks text.rest text.read
    match c.rest with
    | [] => stop ⟨.endInObject, c.read⟩
    | '}' :: rest => ([], .ok (c.read + 1), .ok ⟨rest, c.read + 1⟩)
    | '"' :: rest =>
      if first then member rest (c.read + 1) else stop (breakAt .objectEndExpected c)
    | ',' :: rest =>
      if first then stop (breakAt .keyExpected c)
      else
        let c := skipBlanks rest (c.read + 1)
        match c.rest with
        | [] => stop ⟨.endInValue, c.read⟩
        | '"' :: rest => member rest (c.read + 1)
        | '}' :: _ => stop (breakAt .trailingComma c)
        | _ => stop (breakAt .keyExpected c)
    | _ => stop (breakAt (if first then .keyExpected else .objectEndExpected) c)

end

/-- Reads a text as one document. The break behind the document, if there is one, is given beside
it. -/
def read (text : String) : Json × Option Break :=
  let cs := text.toList
  match readValue (2 * cs.length + 2) ⟨cs, 0⟩ with
  | (value, .error b) => (value, some b)
  | (value, .ok c) =>
    let c := skipBlanks c.rest c.read
    (value, if c.rest.isEmpty then none else some (breakAt .trailingCharacters c))

end TraceLogic.Json
