import TraceLogic.Toml.Scalar

/-!
# Reading TOML documents

A document is a list of lines: assignments, and headers that say which table the assignments after
them belong to. While it is read, a table remembers how it came about, because a table may be given
only once: a header may not repeat a table that a header, an assignment or a key with points has
made, but it may give a table that so far only held other tables.
-/

namespace TraceLogic.Toml

/-- How a table came about. -/
inductive Origin
  | given
  | implied
  | dotted
deriving DecidableEq

/-- A part of a document while it is read. -/
inductive Node
  | value (v : Toml)
  | table (origin : Origin) (entries : List (String × Node))
  | tables (elements : List (List (String × Node)))

/-- How many arrays and inline tables may be open at once, and how many parts a key may have. -/
def nestingLimit : Nat := 79

/-- Replaces or adds the entry of a key. -/
def setEntry {α : Type} (key : String) (a : α) : List (String × α) → List (String × α)
  | [] => [(key, a)]
  | (k, b) :: rest => if k = key then (key, a) :: rest else (k, b) :: setEntry key a rest

/-- Assigns a value inside tables. The tables on the way are made if they are missing; they have to
be made by keys with points only. -/
def assign (v : Toml) : List String → List (String × Node) → Option (List (String × Node))
  | [], _ => none
  | [key], entries =>
    match entries.lookup key with
    | none => some (setEntry key (.value v) entries)
    | some _ => none
  | key :: rest, entries =>
    match entries.lookup key with
    | none => (assign v rest []).map (fun inner => setEntry key (.table .dotted inner) entries)
    | some (.table .dotted inner) =>
      (assign v rest inner).map (fun inner => setEntry key (.table .dotted inner) entries)
    | some _ => none

/-- Applies a change to the tables of an array that came last. -/
def changeLast {α : Type} (change : α → Option α) : List α → Option (List α)
  | [] => none
  | [a] => (change a).map ([·])
  | a :: b :: rest => (changeLast change (b :: rest)).map (a :: ·)

/-- Applies a change to the table at a path. Tables on the way are made if they are missing, and of
an array of tables the last one counts. -/
def changeAt (change : List (String × Node) → Option (List (String × Node))) :
    List String → List (String × Node) → Option (List (String × Node))
  | [], entries => change entries
  | key :: rest, entries =>
    match entries.lookup key with
    | none =>
      (changeAt change rest []).map (fun inner => setEntry key (.table .implied inner) entries)
    | some (.table origin inner) =>
      (changeAt change rest inner).map (fun inner => setEntry key (.table origin inner) entries)
    | some (.tables elements) =>
      (changeLast (changeAt change rest) elements).map
        (fun elements => setEntry key (.tables elements) entries)
    | some (.value _) => none

/-- Gives a table under a key. -/
def giveTable (key : String) (entries : List (String × Node)) : Option (List (String × Node)) :=
  match entries.lookup key with
  | none => some (setEntry key (.table .given []) entries)
  | some (.table .implied inner) => some (setEntry key (.table .given inner) entries)
  | some _ => none

/-- Gives one more table of an array under a key. -/
def giveElement (key : String) (entries : List (String × Node)) : Option (List (String × Node)) :=
  match entries.lookup key with
  | none => some (setEntry key (.tables [[]]) entries)
  | some (.tables elements) => some (setEntry key (.tables (elements ++ [[]])) entries)
  | some _ => none

mutual

/-- The value of a part of a document. -/
def Node.toToml : Node → Toml
  | .value v => v
  | .table _ entries => .table (entriesToToml entries)
  | .tables elements => .array (elementsToToml elements)

/-- The values of the entries of a table. -/
def entriesToToml : List (String × Node) → List (String × Toml)
  | [] => []
  | (key, n) :: rest => (key, n.toToml) :: entriesToToml rest

/-- The values of the tables of an array. -/
def elementsToToml : List (List (String × Node)) → List Toml
  | [] => []
  | entries :: rest => .table (entriesToToml entries) :: elementsToToml rest

end

/-- Reads a key of an assignment. -/
def assignedKey? (cs : List Char) : Option (List String × List Char) := do
  let (key, rest) ← key? (cs.length + 1) cs
  if key.length ≤ nestingLimit then some (key, rest) else none

mutual

/-- Reads a value. The depth is the number of brackets that may still be opened. -/
def value? (fuel depth : Nat) (cs : List Char) : Option (Toml × List Char) :=
  match fuel with
  | 0 => none
  | fuel + 1 =>
    match cs, depth with
    | '[' :: rest, d + 1 => do
      let (items, rest) ← items? fuel d (skipLines rest.length rest)
      pure (.array items, rest)
    | '{' :: rest, d + 1 =>
      match skipBlanks rest with
      | '}' :: rest => some (.table [], rest)
      | rest => do
        let (entries, rest) ← pairs? fuel d [] rest
        pure (.table (entriesToToml entries), rest)
    | _, _ => scalar? cs

/-- Reads the items of an array up to its end. A comma may stand behind the last one. -/
def items? (fuel depth : Nat) (cs : List Char) : Option (List Toml × List Char) :=
  match fuel with
  | 0 => none
  | fuel + 1 =>
    match cs with
    | ']' :: rest => some ([], rest)
    | _ => do
      let (item, rest) ← value? fuel depth cs
      match skipLines rest.length rest with
      | ',' :: rest => do
        let (items, rest) ← items? fuel depth (skipLines rest.length rest)
        pure (item :: items, rest)
      | ']' :: rest => some ([item], rest)
      | _ => none

/-- Reads the assignments of an inline table up to its end. -/
def pairs? (fuel depth : Nat) (entries : List (String × Node)) (cs : List Char) :
    Option ((List (String × Node)) × List Char) :=
  match fuel with
  | 0 => none
  | fuel + 1 => do
    let (key, rest) ← assignedKey? cs
    let rest ← expect? '=' rest
    let (v, rest) ← value? fuel depth (skipBlanks rest)
    let entries ← assign v key entries
    match skipBlanks rest with
    | ',' :: rest => pairs? fuel depth entries rest
    | '}' :: rest => some (entries, rest)
    | _ => none

end

/-- Reads a header after its opening bracket: the key, the brackets that close it, and the rest of
the line. -/
def header? (closing : List Char) (cs : List Char) : Option (List String × List Char) := do
  let (key, rest) ← assignedKey? cs
  let rest ← closing.foldlM (fun rest c => expect? c rest) rest
  let rest ← lineEnd? rest
  pure (key, rest)

/-- Applies a change to the last key of a path. -/
def changeNamed (change : String → List (String × Node) → Option (List (String × Node)))
    (path : List String) (root : List (String × Node)) : Option (List (String × Node)) := do
  let key ← path.getLast?
  changeAt (change key) path.dropLast root

/-- Reads the lines of a document. The path is that of the table that assignments belong to. -/
def lines? (fuel : Nat) (path : List String) (root : List (String × Node)) (cs : List Char) :
    Option (List (String × Node)) :=
  match fuel with
  | 0 => none
  | fuel + 1 =>
    match skipBlanks cs with
    | [] => some root
    | '#' :: rest => do
      let rest ← lineEnd? ('#' :: rest)
      lines? fuel path root rest
    | '[' :: '[' :: rest => do
      let (key, rest) ← header? "]]".toList rest
      let root ← changeNamed giveElement key root
      lines? fuel key root rest
    | '[' :: rest => do
      let (key, rest) ← header? "]".toList rest
      let root ← changeNamed giveTable key root
      lines? fuel key root rest
    | c :: rest =>
      match lineBreak? (c :: rest) with
      | some rest => lines? fuel path root rest
      | none => do
        let (key, rest) ← assignedKey? (c :: rest)
        let rest ← expect? '=' rest
        let (v, rest) ← value? (2 * rest.length + 2) nestingLimit (skipBlanks rest)
        let rest ← lineEnd? rest
        let root ← changeAt (assign v key) path root
        lines? fuel path root rest

/-- Passes over the byte order mark. -/
def skipMark : List Char → List Char
  | '\uFEFF' :: rest => rest
  | cs => cs

/-- Reads a TOML document as the entries of its root table. -/
def parse? (text : String) : Option (List (String × Toml)) :=
  let cs := skipMark text.toList
  (lines? (cs.length + 1) [] [] cs).map entriesToToml

end TraceLogic.Toml
