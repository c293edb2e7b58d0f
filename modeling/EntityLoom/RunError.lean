import EntityLoom.Files.Path
import EntityLoom.Weaving.WeaveError

/-!
# Faults of a run

The causes for which a run over files ends, and the text of each.  Where a class or a model is at
fault, its own fault is kept as the cause.
-/

namespace EntityLoom

/-- Why a run ends. -/
inductive RunError where
  | notDirectory (path : Path)
  | unreadableFile (file : Path)
  /-- There is no such archive. -/
  | missingArchive (archive : Path)
  /-- The bytes of an archive cannot be had, as for a directory. -/
  | unmappedArchive (archive : Path)
  /-- The bytes of an archive on the class path cannot be had. -/
  | unmappedProbe (archive : Path)
  | brokenArchive (archive : Path)
  /-- An entry is encrypted, is compressed by an unknown method, or is not where it should be. -/
  | brokenEntry
  | brokenData (name : String) (archive : Path)
  | entryWeaving (name : String) (archive : Path) (cause : WeaveError)
  | fileWeaving (file : Path) (cause : WeaveError)
  | classWeaving (className : String) (cause : WeaveError)
  | directoryCreation (path : Path)
  | fileCreation (path : Path)
  | writing (path : Path)
  /-- The staged file cannot take the place of the output. -/
  | replacement (path : Path)
  | unreadableModel (file : Path)
  | undecodableModel (file : Path)
  | invalidModel (file : Path) (cause : ModelError)
  | unreadableClass (file : Path)
  | malformedClass (file : Path) (cause : FormatError)
  /-- The members of a class cannot be named. -/
  | unnamedMembers (cause : FormatError)
  | ledgerDirectory (path : Path)
  | ledgerOpening (file : Path)
  | ledgerRemoval (file : Path)
  | ledgerLockRemoval (file : Path)
  | severalInputs
  | noDataDirectory
  deriving DecidableEq, Repr

namespace RunError

/-- The text of a fault. -/
def message : RunError → String
  | notDirectory path => s!"Not a directory: {path.text}"
  | unreadableFile file => s!"Failed to read: {file.text}"
  | missingArchive archive => s!"Failed to open jar: {archive.text}"
  | unmappedArchive archive => s!"Failed to mmap jar: {archive.text}"
  | unmappedProbe archive => s!"Failed to mmap: {archive.text}"
  | brokenArchive archive => s!"Failed to read zip structure: {archive.text}"
  | brokenEntry => "Unsupported or misplaced archive entry"
  | brokenData name archive => s!"Failed to read {name} in {archive.text}"
  | entryWeaving name archive _ => s!"Failed to weave {name} in {archive.text}"
  | fileWeaving file _ => s!"Failed to weave {file.text}"
  | classWeaving className _ => s!"Failed to weave {className}"
  | directoryCreation path => s!"Failed to create directory: {path.text}"
  | fileCreation path => s!"Failed to create: {path.text}"
  | writing path => s!"Failed to write: {path.text}"
  | replacement path => s!"Failed to atomically replace output file: {path.text}"
  | unreadableModel file => s!"Failed to read weaving model: {file.text}"
  | undecodableModel file => s!"Weaving model is not UTF-8: {file.text}"
  | invalidModel file _ => s!"Invalid weaving model: {file.text}"
  | unreadableClass file => s!"Failed to read class file: {file.text}"
  | malformedClass file _ => s!"Malformed class file: {file.text}"
  | unnamedMembers cause => cause.message
  | ledgerDirectory path => s!"Failed to create ledger directory: {path.text}"
  | ledgerOpening file => s!"Failed to create/open db env: {file.text}"
  | ledgerRemoval file => s!"Failed to remove db file: {file.text}"
  | ledgerLockRemoval file => s!"Failed to remove db lock file: {file.text}"
  | severalInputs => "--output needs exactly one input"
  | noDataDirectory => "Failed to resolve data directory"

/-- A fault of one class or model that ends a run. -/
inductive Cause where
  | weaving (fault : WeaveError)
  | model (fault : ModelError)
  | classFormat (fault : FormatError)
  deriving DecidableEq, Repr

/-- The text of a cause. -/
def Cause.message : Cause → String
  | weaving fault => fault.message
  | model fault => fault.message
  | classFormat fault => fault.message

/-- The fault of a class or model behind a fault. -/
def cause? : RunError → Option Cause
  | entryWeaving _ _ cause | fileWeaving _ cause | classWeaving _ cause => some (.weaving cause)
  | invalidModel _ cause => some (.model cause)
  | malformedClass _ cause | unnamedMembers cause => some (.classFormat cause)
  | _ => none

end RunError

/-- A step of a run. -/
abbrev Attempt (m : Type → Type) := ExceptT RunError m

end EntityLoom
