import TraceLogic.CommandLine

/-!
# The program

Runs the command line on the file system of the machine.
-/

namespace TraceLogic.Main

/-- Why the machine cannot read a file. -/
def readFault : IO.Error → ReadFault
  | .noFileOrDirectory _ _ _ => .notFound
  | e => .other (toString e)

/-- The text of a file. -/
def readText (path : Path) : IO (Except ReadFault String) := do
  try
    let bytes ← IO.FS.readBinFile path.text
    match String.fromUTF8? bytes with
    | some text => return .ok text
    | none => return .error .notText
  catch e => return .error (readFault e)

/-- Whether an action works. -/
def works (action : IO Unit) : IO Bool := do
  try
    action
    return true
  catch _ => return false

/-- Whether a path leads to a file, readable or not. -/
def isFile (path : Path) : IO Bool := do
  try
    let metadata ← (System.mkFilePath [path.text]).metadata
    return metadata.type == .file
  catch _ => return false

/-- Access to the file system of the machine. -/
def files : FileAccess IO where
  isFile := isFile
  readText := readText
  makeDirectories path := works (IO.FS.createDirAll path.text)
  writeText path text := works (IO.FS.writeFile path.text text)

end TraceLogic.Main

/-- Runs the command line. -/
def main (args : List String) : IO UInt32 := do
  let outcome ← TraceLogic.CommandLine.run TraceLogic.Main.files args
  IO.print outcome.stdout
  IO.eprint outcome.stderr
  return outcome.exit.toUInt32
