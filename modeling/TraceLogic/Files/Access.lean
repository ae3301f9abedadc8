import TraceLogic.Files.Path

/-!
# Access to files

What the program needs of a file system: to look for files, to read texts, to make directories and
to write texts. The program's work is the same whether a value or the machine stands behind it.
-/

namespace TraceLogic

/-- Why a text cannot be read. -/
inductive ReadFault
  | notFound
  | notDirectory
  | isDirectory
  | notText
  | other (reason : String)
deriving DecidableEq

/-- The words for why a text cannot be read. -/
def ReadFault.describe : ReadFault → String
  | notFound => "No such file or directory (os error 2)"
  | notDirectory => "Not a directory (os error 20)"
  | isDirectory => "Is a directory (os error 21)"
  | notText => "stream did not contain valid UTF-8"
  | other reason => reason

/-- Access to a file system. -/
structure FileAccess (m : Type → Type) where
  /-- Whether there is a file at a path. -/
  isFile : Path → m Bool
  /-- The text of a file. -/
  readText : Path → m (Except ReadFault String)
  /-- Makes a directory and all directories above it that are missing. Tells whether that worked. -/
  makeDirectories : Path → m Bool
  /-- Writes a text to a file, in place of what it held. Tells whether that worked. -/
  writeText : Path → String → m Bool

end TraceLogic
