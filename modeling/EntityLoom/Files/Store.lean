import EntityLoom.Bytes
import EntityLoom.Files.Path

/-!
# Access to files

What the library asks of the place where files are kept.  Everything that works on files is written
over this class, so it runs on the files of a system as it does on a `FileTree`.

A request that cannot be met answers `none` or `false`; why it cannot be met makes no difference
here.
-/

namespace EntityLoom

/-- What is at a path. -/
inductive FileStatus where
  /-- A file of some size, last changed at a time in nanoseconds since the start of 1970. -/
  | file (size modified : Nat)
  | directory
  deriving DecidableEq, Repr

/-- The requests about files that a monad can carry out. -/
class FileStore (m : Type → Type) where
  status? (path : Path) : m (Option FileStatus)
  /-- The content of a file. -/
  read? (path : Path) : m (Option Bytes)
  /-- The one path from the root, without `.` and `..`, to what is at a path. -/
  canonical? (path : Path) : m (Option Path)
  /-- All files below a directory, each by the names that lead to it. -/
  filesBelow (path : Path) : m (List (List String))
  /-- Makes a directory and those above it, as far as they are not there. -/
  makeDirectories (path : Path) : m Bool
  /-- Makes an empty file, or empties the one that is there. -/
  create (path : Path) : m Bool
  /-- Replaces the content of a file that is there. -/
  write (path : Path) (data : Bytes) : m Bool
  /-- Moves a file, over another one if need be. -/
  rename (source target : Path) : m Bool
  /-- Removes a file. -/
  remove (path : Path) : m Bool
  /-- The time in nanoseconds since the start of 1970. -/
  now : m Nat

namespace FileStore

/-- Requests can be made by steps that may fail. -/
instance [Monad m] [FileStore m] : FileStore (ExceptT ε m) where
  status? path := ExceptT.lift (status? path)
  read? path := ExceptT.lift (read? path)
  canonical? path := ExceptT.lift (canonical? path)
  filesBelow path := ExceptT.lift (filesBelow path)
  makeDirectories path := ExceptT.lift (makeDirectories path)
  create path := ExceptT.lift (create path)
  write path data := ExceptT.lift (write path data)
  rename source target := ExceptT.lift (rename source target)
  remove path := ExceptT.lift (remove path)
  now := ExceptT.lift now

variable [Monad m] [FileStore m]

/-- Whether there is anything at a path. -/
def exists? (path : Path) : m Bool :=
  return (← status? path).isSome

/-- Whether there is a directory at a path. -/
def isDirectory (path : Path) : m Bool :=
  return (← status? path) = some .directory

/-- Whether there is a file at a path. -/
def isFile (path : Path) : m Bool := do
  match ← status? path with
  | some (.file ..) => return true
  | _ => return false

end FileStore

end EntityLoom
