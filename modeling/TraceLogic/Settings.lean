import TraceLogic.Files.Access
import TraceLogic.Toml.Document

/-!
# Settings

Settings come from a TOML file: where to write the result, and how to make it. A file that is not
named is looked for in the directory of the program and in the directories above it; the nearest one
counts, and without any the settings are the default ones.

A section is a table, or an array of its fields in order, of which those at the end may be missing
and what is too much is passed over. Nothing but the known fields may be given.
-/

namespace TraceLogic

/-- What a settings file says. -/
structure Settings where
  /-- The file that the result is written to. -/
  output : Option String := none
  twoTraces : Bool := false
  timepoints : Bool := false
  parallel : Bool := false
deriving DecidableEq

/-- Why settings cannot be used. -/
inductive SettingsFault
  | unreadable (path : Path) (fault : ReadFault)
  | malformed (path : Path)
deriving DecidableEq

namespace SettingsFault

/-- The text of a fault. -/
def message : SettingsFault → String
  | unreadable path fault =>
    "config error: failed to read " ++ path.text ++ ": " ++ fault.describe
  | malformed path => "config error: failed to parse " ++ path.text

/-- The code under which a fault is reported. -/
def code : String := "tlv::config"

end SettingsFault

namespace Settings

/-- A truth value. -/
def flag? : Toml → Option Bool
  | .boolean b => some b
  | _ => none

/-- Sets a field of the output section. -/
def setOutput (s : Settings) (field : String) (v : Toml) : Option Settings :=
  match field, v with
  | "file", .string name => some { s with output := some name }
  | _, _ => none

/-- Sets a field of the semantics section. -/
def setSemantics (s : Settings) (field : String) (v : Toml) : Option Settings := do
  let b ← flag? v
  match field with
  | "two_traces" => some { s with twoTraces := b }
  | "timepoints" => some { s with timepoints := b }
  | "parallel" => some { s with parallel := b }
  | _ => none

/-- Sets fields one after the other. -/
def setAll (set : Settings → String → Toml → Option Settings) :
    Settings → List (String × Toml) → Option Settings
  | s, [] => some s
  | s, (field, v) :: rest => do
    let s ← set s field v
    setAll set s rest

/-- Reads a section with the given fields. -/
def section? (fields : List String) (set : Settings → String → Toml → Option Settings)
    (s : Settings) : Toml → Option Settings
  | .table entries => setAll set s entries
  | .array items => setAll set s (fields.zip items)
  | _ => none

/-- Reads a section by its name. -/
def setSection (s : Settings) (name : String) (v : Toml) : Option Settings :=
  match name with
  | "output" => section? ["file"] setOutput s v
  | "semantics" => section? ["two_traces", "timepoints", "parallel"] setSemantics s v
  | _ => none

/-- Reads the text of a settings file. -/
def parse? (text : String) : Option Settings := do
  let entries ← Toml.parse? text
  setAll setSection {} entries

/-- The name of a settings file. -/
def fileName : Path := ⟨"tlv.toml"⟩

end Settings

/-- Settings in force: what a settings file says, and the file, if there is one. -/
structure ResolvedSettings where
  /-- The settings file. -/
  source : Option Path := none
  /-- The file that the result is written to. -/
  output : Option Path := none
  twoTraces : Bool := false
  timepoints : Bool := false
  parallel : Bool := false
deriving DecidableEq

namespace Settings

/-- Settings of a file. A relative output is meant from the directory of the file. -/
def resolve (s : Settings) (source : Path) : ResolvedSettings where
  source := some source
  output := s.output.map (fun file => (source.parent?.getD ⟨"."⟩).join ⟨file⟩)
  twoTraces := s.twoTraces
  timepoints := s.timepoints
  parallel := s.parallel

variable {m : Type → Type} [Monad m]

/-- The first of several directories that holds a settings file. -/
def findIn (files : FileAccess m) : List Path → m (Option Path)
  | [] => pure none
  | directory :: rest => do
    let candidate := directory.join fileName
    if ← files.isFile candidate then pure (some candidate) else findIn files rest

/-- The directories in which the settings for a path are looked for. A path that is not a file is
taken for a directory. -/
def searched (isFile : Bool) (start : Path) : List Path :=
  if isFile then
    match start.parent? with
    | some directory => directory.ancestors
    | none => []
  else start.ancestors

/-- The nearest settings file. -/
def find (files : FileAccess m) (start : Path) : m (Option Path) := do
  let isFile ← files.isFile start
  findIn files (searched isFile start)

/-- Reads a settings file. -/
def readFrom (files : FileAccess m) (path : Path) : m (Except SettingsFault ResolvedSettings) := do
  match ← files.readText path with
  | .error fault => pure (.error (.unreadable path fault))
  | .ok text =>
    match parse? text with
    | some s => pure (.ok (s.resolve path))
    | none => pure (.error (.malformed path))

/-- The settings for a program: those of the named file, or of the nearest one. -/
def load (files : FileAccess m) (program : Path) (explicit : Option Path) :
    m (Except SettingsFault ResolvedSettings) := do
  match explicit with
  | some path => readFrom files path
  | none =>
    match ← find files program with
    | some path => readFrom files path
    | none => pure (.ok {})

end Settings

end TraceLogic
