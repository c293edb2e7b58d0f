import EntityLoom.Digest.Sha256
import EntityLoom.Files.Scan
import EntityLoom.Text.Utf8

/-!
# Fingerprints of inputs

What is compared to find out whether an input has changed.  A file is known by the time of its last
change and its size, and a directory by the number of its class files and a digest of a listing of
them.
-/

namespace EntityLoom.Fingerprint

variable {m : Type → Type} [Monad m] [FileStore m]

/-- The latest time that is told apart from later ones, in nanoseconds since the start of 1970. -/
def lastTime : Nat := 0xFFFFFFFFFFFFFFFF

/-- The time of the last change and the size of a file.  Both are zero if it is not there. -/
def timeAndSize (file : Path) : m (Nat × Nat) := do
  match ← FileStore.status? file with
  | some (.file size modified) => return (min modified lastTime, size)
  | _ => return (0, 0)

/-- The line of a listing for a file. -/
def line (names : List String) (modified size : Nat) : String :=
  "/".intercalate names ++ "\t" ++ toString modified ++ "\t" ++ toString size ++ "\n"

/-- The fingerprint of a directory with the given number of class files and listing. -/
def ofListing (count : Nat) (listing : String) : String :=
  toString count ++ ":" ++ Sha256.hexDigest (Text.Utf8.encode listing)

/-- The fingerprint of a directory. -/
def ofDirectory (directory : Path) : Attempt m String := do
  let files ← Files.scanClasses directory
  let lines ← files.mapM fun names => do
    let (modified, size) ← timeAndSize (directory.below names)
    return line names modified size
  return ofListing files.length (String.join lines)

/-- The fingerprint of an input. -/
def ofInput (input : Path) : m String := do
  if ← FileStore.isDirectory input then
    return (← (ofDirectory input : Attempt m _).run).toOption.getD ""
  else
    let (modified, size) ← timeAndSize input
    return toString modified ++ ":" ++ toString size

end EntityLoom.Fingerprint
