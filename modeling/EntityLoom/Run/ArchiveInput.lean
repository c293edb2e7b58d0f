import EntityLoom.Archive.Reader
import EntityLoom.ClassName
import EntityLoom.Files.Replace
import EntityLoom.Run.Weaver

/-!
# Archives as inputs

A run over an archive keeps its entries in order and replaces the data of those that it weaves.  A
signature holds no longer once a class has changed, so the entries of signatures are dropped then.
The first entry that cannot be woven ends the run, and nothing is written.
-/

namespace EntityLoom

/-! ## Entries -/

namespace ArchiveEntry

/-- The class of the class file in an entry. -/
def className? (e : ArchiveEntry) : Option String :=
  if e.isFolder then none else ClassName.ofEntry? e.name

/-- What the names of signature files end with, when they are written in capitals. -/
def signatureSuffixes : List String := [".SF", ".RSA", ".DSA", ".EC"]

/-- Whether an entry belongs to a signature of the archive.  Letters count as capitals. -/
def isSignature (e : ArchiveEntry) : Bool :=
  match ClassName.metadataFolder.toList.isPrefixOf? (e.name.toList.map Char.toUpper) with
  | none => false
  | some file =>
    !file.contains '/' &&
      ("SIG-".toList.isPrefixOf file ||
        signatureSuffixes.any fun suffix => suffix.toList.isSuffixOf file)

end ArchiveEntry

/-! ## Weaving -/

namespace Weaver

/-- What a run makes of an entry. -/
def weaveEntry (w : Weaver) (e : ArchiveEntry) : Except WeaveError FileOutcome :=
  w.weaveNamed e.className? e.data

/-- What a run makes of entries.  A fault comes with the name of the entry. -/
def weaveEntries (w : Weaver) (entries : List ArchiveEntry) :
    Except (String × WeaveError) (List FileOutcome) :=
  entries.mapM fun e => (w.weaveEntry e).mapError fun fault => (e.name, fault)

end Weaver

namespace Archive

/-- The entries that a run leaves behind. -/
def applyOutcomes (entries : List ArchiveEntry) (outcomes : List FileOutcome) :
    List ArchiveEntry :=
  let replaced := entries.zipWith
    (fun e outcome => { e with data := outcome.content e.data }) outcomes
  if outcomes.any (·.report?.isSome) then replaced.filter (!·.isSignature) else replaced

/-- The number of class files in an archive. -/
def classCount (entries : List ArchiveEntry) : Nat :=
  entries.countP (·.className?.isSome)

end Archive

/-! ## Files of archives -/

namespace ArchiveInput

variable {m : Type → Type} [Monad m] [FileStore m]

/-- The bytes of an archive.  The fault for what is there but has no bytes is given. -/
def bytes (archive : Path) (unmapped : RunError) : Attempt m Bytes := do
  match ← FileStore.read? archive with
  | some data => return data
  | none => throw (if ← FileStore.exists? archive then unmapped else .missingArchive archive)

/-- The entries of an archive. -/
def read (archive : Path) : Attempt m (List ArchiveEntry) := do
  match Archive.read (← bytes archive (.unmappedArchive archive)) with
  | .ok entries => return entries
  | .error .layout => throw (.brokenArchive archive)
  | .error .entry => throw .brokenEntry
  | .error (.data name) => throw (.brokenData name archive)

/-- Looks at the headers of all classes in an archive, and counts them.  What is no class is passed
over. -/
def observe (archive : Path) (context : Context) : Attempt m (Nat × Context) := do
  let classes := (← read archive).filter (·.className?.isSome)
  return (classes.length, context.observeInputs (classes.map ArchiveEntry.data))

/-- Weaves an archive into another one, or into itself. -/
def weave (w : Weaver) (input output : Path) : Attempt m WeaveSummary := do
  let entries ← read input
  match w.weaveEntries entries with
  | .error (name, fault) => throw (.entryWeaving name input fault)
  | .ok outcomes =>
    Files.replace output (Archive.write (Archive.applyOutcomes entries outcomes))
    return WeaveSummary.ofOutcomes input output (Archive.classCount entries) outcomes

end ArchiveInput

end EntityLoom
