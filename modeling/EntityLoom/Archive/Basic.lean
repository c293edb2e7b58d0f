import EntityLoom.Bytes

/-!
# Archives

An archive is a row of named entries.  Each entry carries its data, how it is compressed, when it
was changed and the permissions of the file that it stands for.  Names may repeat.
-/

namespace EntityLoom

/-- How the data of an entry is kept. -/
inductive Compression where
  | stored
  | deflated
  deriving DecidableEq, Repr

/-- A time in the two words by which archives write it: years from 1980 on, and even seconds. -/
structure ArchiveTime where
  date : UInt16
  time : UInt16
  deriving DecidableEq, Repr

namespace ArchiveTime

/-- The time with the given year, month, day, hour, minute and second. -/
def ofFields (year month day hour minute second : Nat) : ArchiveTime :=
  { date := UInt16.ofNat (((year - 1980) * 16 + month) * 32 + day)
    time := UInt16.ofNat ((hour * 64 + minute) * 32 + second / 2) }

/-- The year, month, day, hour, minute and second of a time. -/
def fields (t : ArchiveTime) : List Nat :=
  let d := t.date.toNat
  let s := t.time.toNat
  [d / 512 + 1980, d / 32 % 16, d % 32, s / 2048, s / 32 % 64, s % 32 * 2]

end ArchiveTime

/-- An entry of an archive. -/
structure ArchiveEntry where
  name : String
  data : Bytes
  compression : Compression
  modified : ArchiveTime
  /-- The file mode, for an archive from a system that has one. -/
  mode : Option Nat
  deriving DecidableEq, Repr

namespace ArchiveEntry

/-- Whether a name is that of a folder. -/
def isFolderName (name : String) : Bool :=
  match name.toList.getLast? with
  | some c => c = '/' || c = '\\'
  | none => false

/-- Whether an entry is a folder. -/
def isFolder (e : ArchiveEntry) : Bool :=
  isFolderName e.name

/-- An entry for a folder. -/
def folder (name : String) (modified : ArchiveTime) (mode : Option Nat) : ArchiveEntry :=
  { name := if isFolderName name then name else name ++ "/"
    data := [], compression := .stored, modified, mode }

/-- The permissions of an entry. -/
def permissions? (e : ArchiveEntry) : Option Nat :=
  e.mode.map (· % 512)

end ArchiveEntry

end EntityLoom
