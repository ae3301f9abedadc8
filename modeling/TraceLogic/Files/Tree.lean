import TraceLogic.Data.Table
import TraceLogic.Files.Access

/-!
# File trees

A file system as a value: files and directories by the list of names that leads to them from the
root. Paths are followed name by name; each name is looked up in a directory that has to exist.
-/

namespace TraceLogic

/-- What is found at a place of a file tree. -/
inductive FileEntry
  | file (content : List UInt8)
  | directory

/-- A file system as a value. The root is a directory and has no entry. -/
structure FileTree where
  entries : Table (List String) FileEntry := .empty

namespace FileTree

/-- What is found at a place. -/
def entry? (t : FileTree) (place : List String) : Option FileEntry :=
  if place = [] then some .directory else t.entries.get? place

/-- Puts something at a place. -/
def put (t : FileTree) (place : List String) (e : FileEntry) : FileTree :=
  ⟨t.entries.insert place e⟩

/-- Checks that there is a directory at a place. -/
def requireDirectory (t : FileTree) (place : List String) : Except ReadFault Unit :=
  match t.entry? place with
  | some .directory => .ok ()
  | some (.file _) => .error .notDirectory
  | none => .error .notFound

/-- The place that a segment leads to from a directory. -/
def advance (place : List String) (segment : String) : List String :=
  if segment = "" || segment = "." then place
  else if segment = ".." then place.dropLast
  else place ++ [segment]

/-- Follows segments from a place. Each one is looked up in a directory. -/
def follow (t : FileTree) (place : List String) : List String → Except ReadFault (List String)
  | [] => .ok place
  | segment :: rest => do
    t.requireDirectory place
    t.follow (advance place segment) rest

/-- The segments of a path, and the place from which they are followed. -/
def route (workplace : List String) (p : Path) : List String × List String :=
  (if p.isAbsolute then [] else workplace, (Path.divide p.text.toList).map String.ofList)

/-- Finds what a path leads to. The empty path leads nowhere. -/
def find (t : FileTree) (workplace : List String) (p : Path) :
    Except ReadFault (List String × FileEntry) := do
  if p.text = "" then .error .notFound
  else
    let (start, segments) := route workplace p
    let place ← t.follow start segments
    match t.entry? place with
    | some e => .ok (place, e)
    | none => .error .notFound

/-- Whether a path leads to a file. -/
def isFile (t : FileTree) (workplace : List String) (p : Path) : Bool :=
  match t.find workplace p with
  | .ok (_, .file _) => true
  | _ => false

/-- Whether a path leads to a directory. -/
def isDirectory (t : FileTree) (workplace : List String) (p : Path) : Bool :=
  match t.find workplace p with
  | .ok (_, .directory) => true
  | _ => false

/-- The text of the file that a path leads to. -/
def readText (t : FileTree) (workplace : List String) (p : Path) : Except ReadFault String := do
  match ← t.find workplace p with
  | (_, .directory) => .error .isDirectory
  | (_, .file content) =>
    match String.fromUTF8? ⟨content.toArray⟩ with
    | some text => .ok text
    | none => .error .notText

/-- Why nothing new can be made at a path. -/
inductive MakeFault
  | notFound
  | refused
deriving DecidableEq

/-- The directory in which a path makes something new, and the name that it gets there. The last
segment has to be a name. -/
def destination (t : FileTree) (start : List String) (segments : List String) :
    Except MakeFault (List String × String) :=
  match segments.getLast? with
  | none => .error .refused
  | some name =>
    match t.follow start segments.dropLast with
    | .error .notFound => .error .notFound
    | .error _ => .error .refused
    | .ok place =>
      match t.requireDirectory place with
      | .error .notFound => .error .notFound
      | .error _ => .error .refused
      | .ok () =>
        if name = "" || name = "." || name = ".." then .error .refused else .ok (place, name)

/-- Drops the empty segments at the end. -/
def trimSlashes (segments : List String) : List String :=
  (segments.reverse.dropWhile (· = "")).reverse

/-- Makes one directory. -/
def makeDirectory (t : FileTree) (workplace : List String) (p : Path) :
    Except MakeFault FileTree := do
  if p.text = "" then .error .notFound
  else
    let (start, segments) := route workplace p
    let (place, name) ← t.destination start (trimSlashes segments)
    match t.entry? (place ++ [name]) with
    | some _ => .error .refused
    | none => .ok (t.put (place ++ [name]) .directory)

/-- Makes a directory and those above it, up to a number of them. Tells whether that worked. -/
def makeDirectoriesUpTo (workplace : List String) : Nat → FileTree → Path → Bool × FileTree
  | fuel, t, p =>
    if p.text = "" then (true, t)
    else
      match t.makeDirectory workplace p with
      | .ok u => (true, u)
      | .error .refused => (t.isDirectory workplace p, t)
      | .error .notFound =>
        match fuel, p.parent? with
        | n + 1, some q =>
          match makeDirectoriesUpTo workplace n t q with
          | (false, u) => (false, u)
          | (true, u) =>
            match u.makeDirectory workplace p with
            | .ok w => (true, w)
            | .error _ => (u.isDirectory workplace p, u)
        | _, _ => (false, t)

/-- Makes a directory and all directories above it that are missing. -/
def makeDirectories (t : FileTree) (workplace : List String) (p : Path) : Bool × FileTree :=
  makeDirectoriesUpTo workplace (p.text.length + 1) t p

/-- Writes a text to the file that a path leads to. -/
def writeText (t : FileTree) (workplace : List String) (p : Path) (text : String) :
    Bool × FileTree :=
  if p.text = "" then (false, t)
  else
    let (start, segments) := route workplace p
    match t.destination start segments with
    | .error _ => (false, t)
    | .ok (place, name) =>
      match t.entry? (place ++ [name]) with
      | some .directory => (false, t)
      | _ => (true, t.put (place ++ [name]) (.file text.toUTF8.toList))

/-- Access to a file tree from a place in it. -/
def access (workplace : List String) : FileAccess (StateM FileTree) where
  isFile p := do return (← get).isFile workplace p
  readText p := do return (← get).readText workplace p
  makeDirectories p := modifyGet (·.makeDirectories workplace p)
  writeText p text := modifyGet (·.writeText workplace p text)

end FileTree

end TraceLogic
