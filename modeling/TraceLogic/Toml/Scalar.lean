import TraceLogic.Data.Decimal
import TraceLogic.Toml.Basic

/-!
# Scalars of TOML

Readers for the parts of a line that hold no other values: blanks and comments, strings of the four
kinds, keys, numbers, dates and times. A reader takes the characters that are left and gives its
result with the characters after it, or nothing if the text is not of its kind.
-/

namespace TraceLogic.Toml

/-- Whether a character is a blank within a line. -/
def isBlank (c : Char) : Bool := c = ' ' || c = '\t'

/-- Whether a character may stand in a comment or a string: no control character but the tab. -/
def isPlain (c : Char) : Bool := c = '\t' || (0x20 ≤ c.toNat && c.toNat ≠ 0x7F)

/-- Passes over blanks. -/
def skipBlanks (cs : List Char) : List Char := cs.dropWhile isBlank

/-- Reads a line break. -/
def lineBreak? : List Char → Option (List Char)
  | '\n' :: rest => some rest
  | '\r' :: '\n' :: rest => some rest
  | _ => none

/-- Passes over a comment, if there is one. -/
def skipComment : List Char → List Char
  | '#' :: rest => rest.dropWhile isPlain
  | cs => cs

/-- Reads the rest of a line after a value: blanks, a comment, and the line break or the end of the
text. -/
def lineEnd? (cs : List Char) : Option (List Char) :=
  match skipComment (skipBlanks cs) with
  | [] => some []
  | rest => lineBreak? rest

/-- Passes over blanks, comments and line breaks, as between the items of an array. -/
def skipLines (fuel : Nat) (cs : List Char) : List Char :=
  match fuel with
  | 0 => cs
  | fuel + 1 =>
    match skipBlanks cs with
    | '#' :: rest =>
      match lineBreak? (rest.dropWhile isPlain) with
      | some rest => skipLines fuel rest
      | none => '#' :: rest
    | rest =>
      match lineBreak? rest with
      | some rest => skipLines fuel rest
      | none => rest

/-- The value of a digit in a base up to sixteen. -/
def digitValue? (base : Nat) (c : Char) : Option Nat :=
  let n :=
    if c.isDigit then c.toNat - '0'.toNat
    else if 'a' ≤ c ∧ c ≤ 'f' then c.toNat - 'a'.toNat + 10
    else if 'A' ≤ c ∧ c ≤ 'F' then c.toNat - 'A'.toNat + 10
    else base
  if n < base then some n else none

/-- The value of digits in a base. -/
def baseValue (base : Nat) (digits : List Char) : Nat :=
  digits.foldl (fun n c => base * n + (digitValue? base c).getD 0) 0

/-- Reads the character that a number of hexadecimal digits names. -/
def codePoint? (size : Nat) (cs : List Char) : Option (Char × List Char) :=
  let digits := cs.take size
  if digits.length = size ∧ digits.all (fun c => (digitValue? 16 c).isSome) then
    let code := baseValue 16 digits
    if code.isValidChar then some (Char.ofNat code, cs.drop size) else none
  else none

/-- Reads an escape after its backslash. -/
def escape? : List Char → Option (Char × List Char)
  | 'b' :: rest => some ('\x08', rest)
  | 't' :: rest => some ('\t', rest)
  | 'n' :: rest => some ('\n', rest)
  | 'f' :: rest => some ('\x0c', rest)
  | 'r' :: rest => some ('\r', rest)
  | '"' :: rest => some ('"', rest)
  | '\\' :: rest => some ('\\', rest)
  | 'u' :: rest => codePoint? 4 rest
  | 'U' :: rest => codePoint? 8 rest
  | _ => none

/-- Reads a string in double quotes after the first of them. -/
def basicString? (fuel : Nat) (cs : List Char) : Option (List Char × List Char) :=
  match fuel, cs with
  | 0, _ => none
  | _, '"' :: rest => some ([], rest)
  | fuel + 1, '\\' :: rest => do
    let (c, rest) ← escape? rest
    let (text, rest) ← basicString? fuel rest
    pure (c :: text, rest)
  | fuel + 1, c :: rest =>
    if isPlain c then do
      let (text, rest) ← basicString? fuel rest
      pure (c :: text, rest)
    else none
  | _, [] => none

/-- Reads a string in single quotes after the first of them. -/
def literalString? : List Char → Option (List Char × List Char)
  | [] => none
  | '\'' :: rest => some ([], rest)
  | c :: rest =>
    if isPlain c then do
      let (text, rest) ← literalString? rest
      pure (c :: text, rest)
    else none

/-- Ends a string of several lines at a run of quotes. Up to two quotes in front of the closing
three belong to the string. -/
def closing? (quote : Char) (cs : List Char) : Option (List Char × List Char) :=
  let run := (cs.takeWhile (· = quote)).length
  if 3 ≤ run then
    let inside := min (run - 3) 2
    some (List.replicate inside quote, cs.drop (inside + 3))
  else none

/-- Passes over a line break in a string and all blanks and line breaks after it. -/
def skipFold (fuel : Nat) (cs : List Char) : List Char :=
  match fuel with
  | 0 => cs
  | fuel + 1 =>
    let rest := skipBlanks cs
    match lineBreak? rest with
    | some rest => skipFold fuel rest
    | none => rest

/-- Reads a string of several lines in double quotes after the opening ones. A backslash at the end
of a line joins the next line to it. -/
def longBasicString? (fuel : Nat) (cs : List Char) : Option (List Char × List Char) :=
  match fuel with
  | 0 => none
  | fuel + 1 =>
    match cs with
    | [] => none
    | '"' :: rest =>
      match closing? '"' cs with
      | some result => some result
      | none => do
        let (text, rest) ← longBasicString? fuel rest
        pure ('"' :: text, rest)
    | '\\' :: rest =>
      match lineBreak? (skipBlanks rest) with
      | some rest => longBasicString? fuel (skipFold rest.length rest)
      | none => do
        let (c, rest) ← escape? rest
        let (text, rest) ← longBasicString? fuel rest
        pure (c :: text, rest)
    | c :: rest =>
      match lineBreak? cs with
      | some rest => do
        let (text, rest) ← longBasicString? fuel rest
        pure ('\n' :: text, rest)
      | none =>
        if isPlain c then do
          let (text, rest) ← longBasicString? fuel rest
          pure (c :: text, rest)
        else none

/-- Reads a string of several lines in single quotes after the opening ones. -/
def longLiteralString? (fuel : Nat) (cs : List Char) : Option (List Char × List Char) :=
  match fuel with
  | 0 => none
  | fuel + 1 =>
    match cs with
    | [] => none
    | '\'' :: rest =>
      match closing? '\'' cs with
      | some result => some result
      | none => do
        let (text, rest) ← longLiteralString? fuel rest
        pure ('\'' :: text, rest)
    | c :: rest =>
      match lineBreak? cs with
      | some rest => do
        let (text, rest) ← longLiteralString? fuel rest
        pure ('\n' :: text, rest)
      | none =>
        if isPlain c then do
          let (text, rest) ← longLiteralString? fuel rest
          pure (c :: text, rest)
        else none

/-- Passes over the line break right after the opening quotes of a string of several lines. -/
def skipFirstBreak (cs : List Char) : List Char := (lineBreak? cs).getD cs

/-- Reads a string of any kind. -/
def string? (cs : List Char) : Option (String × List Char) :=
  let body : Option (List Char × List Char) :=
    match cs with
    | '"' :: '"' :: '"' :: rest =>
      longBasicString? (rest.length + 1) (skipFirstBreak rest)
    | '"' :: rest => basicString? (rest.length + 1) rest
    | '\'' :: '\'' :: '\'' :: rest =>
      longLiteralString? (rest.length + 1) (skipFirstBreak rest)
    | '\'' :: rest => literalString? rest
    | _ => none
  body.map (fun (text, rest) => (String.ofList text, rest))

/-- Whether a character may stand in a key without quotes. -/
def isBareKey (c : Char) : Bool := c.isAlphanum || c = '_' || c = '-'

/-- Reads one part of a key. -/
def simpleKey? (cs : List Char) : Option (String × List Char) :=
  match cs with
  | '"' :: rest =>
    (basicString? (rest.length + 1) rest).map (fun (text, rest) => (String.ofList text, rest))
  | '\'' :: rest => (literalString? rest).map (fun (text, rest) => (String.ofList text, rest))
  | _ =>
    let name := cs.takeWhile isBareKey
    if name.isEmpty then none else some (String.ofList name, cs.dropWhile isBareKey)

/-- Reads a key, whose parts are divided by points. Blanks may surround each part. -/
def key? (fuel : Nat) (cs : List Char) : Option (List String × List Char) :=
  match fuel with
  | 0 => none
  | fuel + 1 => do
    let (name, rest) ← simpleKey? (skipBlanks cs)
    match skipBlanks rest with
    | '.' :: rest => do
      let (names, rest) ← key? fuel rest
      pure (name :: names, rest)
    | rest => pure ([name], rest)

/-- Reads at least one digit. Single underscores may divide digits. -/
def digits? (isDigit : Char → Bool) : List Char → Option (List Char × List Char)
  | [] => none
  | c :: rest =>
    if isDigit c then
      let continued :=
        match rest with
        | '_' :: rest => digits? isDigit rest
        | d :: more =>
          if isDigit d then digits? isDigit (d :: more) else some ([], d :: more)
        | [] => some ([], [])
      continued.map (fun (ds, rest) => (c :: ds, rest))
    else none

/-- Reads a sign. -/
def sign (cs : List Char) : Bool × List Char :=
  match cs with
  | '-' :: rest => (true, rest)
  | '+' :: rest => (false, rest)
  | _ => (false, cs)

/-- Reads the digits of a decimal integer: a zero alone, or digits that do not start with zero. -/
def wholeDigits? (cs : List Char) : Option (List Char × List Char) :=
  match cs with
  | '0' :: rest => some (['0'], rest)
  | _ => digits? Char.isDigit cs

/-- Reads the digits after a point, if there is one. -/
def fraction? : List Char → Option (List Char × List Char)
  | '.' :: rest => digits? Char.isDigit rest
  | cs => some ([], cs)

/-- Reads an exponent, if there is one. -/
def exponent? : List Char → Option (Option Int × List Char)
  | [] => some (none, [])
  | c :: rest =>
    if c = 'e' ∨ c = 'E' then do
      let (negative, rest) := sign rest
      let (ds, rest) ← digits? Char.isDigit rest
      let n : Int := digitsValue ds
      pure (some (if negative then -n else n), rest)
    else some (none, c :: rest)

/-- Reads the words for infinity and for what is no number, with or without a sign. -/
def specialFloat? (cs : List Char) : Option (Toml × List Char) :=
  match (sign cs).2 with
  | 'i' :: 'n' :: 'f' :: rest => some (.float, rest)
  | 'n' :: 'a' :: 'n' :: rest => some (.float, rest)
  | _ => none

/-- Reads a float, which has a point or an exponent. One that would be infinite is refused. -/
def float? (cs : List Char) : Option (Toml × List Char) := do
  let (negative, rest) := sign cs
  let (whole, rest) ← wholeDigits? rest
  let (fraction, rest) ← fraction? rest
  let (exponent, rest) ← exponent? rest
  let n : Decimal := ⟨negative, whole, fraction, exponent⟩
  if n.isWhole || (n.overflows && !negative) then none else some (.float, rest)

/-- Whether an integer fits into 64 bits with a sign. -/
def fits (n : Int) : Bool := -0x8000000000000000 ≤ n && n < 0x8000000000000000

/-- Reads an integer in a base that is given in front. -/
def basedInteger? (base : Nat) (cs : List Char) : Option (Toml × List Char) := do
  let (ds, rest) ← digits? (fun c => (digitValue? base c).isSome) cs
  let n := baseValue base ds
  if fits n then some (.integer n, rest) else none

/-- Reads an integer. -/
def integer? (cs : List Char) : Option (Toml × List Char) :=
  match cs with
  | '0' :: 'x' :: rest => basedInteger? 16 rest
  | '0' :: 'o' :: rest => basedInteger? 8 rest
  | '0' :: 'b' :: rest => basedInteger? 2 rest
  | _ => do
    let (negative, rest) := sign cs
    let (ds, rest) ← wholeDigits? rest
    let n : Int := digitsValue ds
    let n := if negative then -n else n
    if fits n then some (.integer n, rest) else none

/-- Reads a number of digits whose value lies in a range. -/
def field? (size low high : Nat) (cs : List Char) : Option (Nat × List Char) :=
  let ds := cs.take size
  if ds.length = size ∧ ds.all Char.isDigit then
    let n := digitsValue ds
    if low ≤ n ∧ n ≤ high then some (n, cs.drop size) else none
  else none

/-- Reads a given character. -/
def expect? (c : Char) : List Char → Option (List Char)
  | d :: rest => if c = d then some rest else none
  | [] => none

/-- The number of days of a month. -/
def daysIn (year month : Nat) : Nat :=
  if month = 2 then
    if year % 4 = 0 ∧ (year % 100 ≠ 0 ∨ year % 400 = 0) then 29 else 28
  else if month = 4 ∨ month = 6 ∨ month = 9 ∨ month = 11 then 30
  else 31

/-- Reads a date. -/
def date? (cs : List Char) : Option (List Char) := do
  let (year, rest) ← field? 4 0 9999 cs
  let rest ← expect? '-' rest
  let (month, rest) ← field? 2 1 12 rest
  let rest ← expect? '-' rest
  let (_, rest) ← field? 2 1 (daysIn year month) rest
  pure rest

/-- Reads a time of day. A minute may have a leap second. -/
def time? (cs : List Char) : Option (List Char) := do
  let (_, rest) ← field? 2 0 23 cs
  let rest ← expect? ':' rest
  let (_, rest) ← field? 2 0 59 rest
  let rest ← expect? ':' rest
  let (_, rest) ← field? 2 0 60 rest
  match rest with
  | '.' :: more =>
    if (more.takeWhile Char.isDigit).isEmpty then none else some (more.dropWhile Char.isDigit)
  | _ => pure rest

/-- Reads the offset of a time zone, if there is one. -/
def offset (cs : List Char) : List Char :=
  match cs with
  | 'Z' :: rest => rest
  | 'z' :: rest => rest
  | c :: more =>
    if c = '+' ∨ c = '-' then
      let read : Option (List Char) := do
        let (_, rest) ← field? 2 0 23 more
        let rest ← expect? ':' rest
        let (_, rest) ← field? 2 0 59 rest
        pure rest
      read.getD cs
    else cs
  | [] => []

/-- Reads a date, a time of day, or both. -/
def moment? (cs : List Char) : Option (Toml × List Char) :=
  match date? cs with
  | some rest =>
    let timed : Option (List Char) :=
      match rest with
      | c :: more => if c = 'T' ∨ c = 't' ∨ c = ' ' then (time? more).map offset else none
      | [] => none
    some (.moment, timed.getD rest)
  | none => (time? cs).map (fun rest => (.moment, rest))

/-- Reads a truth value. -/
def boolean? : List Char → Option (Toml × List Char)
  | 't' :: 'r' :: 'u' :: 'e' :: rest => some (.boolean true, rest)
  | 'f' :: 'a' :: 'l' :: 's' :: 'e' :: rest => some (.boolean false, rest)
  | _ => none

/-- Reads a value that holds no other values. -/
def scalar? (cs : List Char) : Option (Toml × List Char) :=
  match cs with
  | [] => none
  | c :: _ =>
    if c = '"' ∨ c = '\'' then (string? cs).map (fun (s, rest) => (.string s, rest))
    else if c = 't' ∨ c = 'f' then boolean? cs
    else (moment? cs) <|> (float? cs) <|> (specialFloat? cs) <|> (integer? cs)

end TraceLogic.Toml
