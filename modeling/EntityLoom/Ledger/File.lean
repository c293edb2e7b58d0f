import EntityLoom.Ledger.Fingerprint
import EntityLoom.Ledger.Json

/-!
# Ledger files

A ledger is kept in one file, with a second one beside it as a lock.  An empty file is that of a new
ledger.
-/

namespace EntityLoom

/-- A ledger that is kept in a file. -/
structure LedgerFile where
  /-- The path by which the ledger was asked for. -/
  path : Path
  /-- The canonical path of its file. -/
  place : Path
  deriving DecidableEq, Repr

namespace LedgerFile

variable {m : Type → Type} [Monad m] [FileStore m]

/-- The lock beside a ledger file. -/
def lockOf (file : Path) : Path :=
  file.withSuffix "-lock"

/-- The canonical path of what is at a path, or the path itself. -/
def key (path : Path) : m String := do
  return ((← FileStore.canonical? path).getD path).text

/-- The canonical path of a file that need not be there yet.  Its directory must be there, and must
be named. -/
def place? (file : Path) : m (Option Path) := do
  match ← FileStore.canonical? file, file.parent?, file.components.getLast? with
  | some place, _, _ => return some place
  | none, some parent, some (.name name) =>
    match ← FileStore.canonical? parent with
    | none => return none
    | some directory =>
      let place := directory.join name
      return if ← FileStore.exists? place then none else some place
  | none, _, _ => return none

/-- Makes the directory for a ledger. -/
def makeDirectory (file : Path) : Attempt m Unit := do
  match file.parent? with
  | none => return
  | some parent => unless ← FileStore.makeDirectories parent do throw (.ledgerDirectory parent)

/-- Makes the file of a new ledger. -/
def makeNew? (place : Path) : m Bool := do
  if ← FileStore.create place then FileStore.write place Ledger.empty.toBytes else return false

/-- Finds the ledger in a file, or makes a new one there. -/
def enter? (place : Path) : m Bool := do
  unless ← FileStore.isFile (lockOf place) do
    unless ← FileStore.create (lockOf place) do return false
  match ← FileStore.read? place with
  | none | some [] => makeNew? place
  | some data => return (Ledger.ofBytes? data).isSome

/-- Opens the ledger in a file. -/
def enter (file : Path) : Attempt m LedgerFile := do
  makeDirectory file
  match ← place? file with
  | none => throw (.ledgerOpening file)
  | some place =>
    unless ← enter? place do throw (.ledgerOpening file)
    return ⟨file, place⟩

/-- The ledger in a file. -/
def ledger (f : LedgerFile) : m Ledger := do
  return ((← FileStore.read? f.place).bind Ledger.ofBytes?).getD .empty

/-- The row of an input. -/
def get? (f : LedgerFile) (input : Path) : m (Option LedgerRow) := do
  return (← f.ledger).get? (← key input)

/-- Whether an input was woven with the given settings into the given output, which is there, and
has not been changed since. -/
def isCurrent (f : LedgerFile) (input output : Path) (settings : WeaveSettings) : m Bool := do
  match ← f.get? input with
  | none => return false
  | some row =>
    unless ← FileStore.exists? output do return false
    return row.covers settings (← key output) (← Fingerprint.ofInput input)

/-- Keeps what was done to an input.  The input is looked at now, after it was woven. -/
def record (f : LedgerFile) (input output : Path) (settings : WeaveSettings)
    (classes woven : Nat) : m Unit := do
  let row : LedgerRow :=
    { fingerprint := ← Fingerprint.ofInput input, settings, output := ← key output
      classes, woven, wovenAt := (← FileStore.now) / 1000000000 }
  let ledger := (← f.ledger).put (← key input) row
  let _ ← FileStore.write f.place ledger.toBytes

/-- Removes a file, if it is there. -/
def removeIfThere (file : Path) (fault : RunError) : Attempt m Unit := do
  if ← FileStore.exists? file then
    unless ← FileStore.remove file do throw fault

/-- Removes the ledger in a file. -/
def clear (file : Path) : Attempt m Unit := do
  removeIfThere file (.ledgerRemoval file)
  removeIfThere (lockOf file) (.ledgerLockRemoval (lockOf file))

end LedgerFile

end EntityLoom
