import EntityLoom.Archive.Reader
import EntityLoom.ClassName
import EntityLoom.Files.Scan
import EntityLoom.Run.ArchiveInput
import EntityLoom.Weaving.Names

/-!
# Class paths

A class path is a list of archives and directories.  A directory provides its class files, and those
in the archives below it.  What cannot be read provides nothing.
-/

namespace EntityLoom.ClassPath

variable {m : Type → Type} [Monad m] [FileStore m]

/-- Whether an archive has an entry. -/
def archiveHolds (archive : Path) (entry : String) : Attempt m Bool := do
  match Archive.holds? (← ArchiveInput.bytes archive (.unmappedProbe archive)) entry with
  | some found => return found
  | none => throw (.brokenArchive archive)

/-- Whether an archive that may be unreadable provides a class file. -/
def archiveProvides (entry : String) (archive : Path) : m Bool := do
  return (← (archiveHolds archive entry).run).toOption.getD false

/-- Whether a directory provides a class file. -/
def directoryProvides (entry : String) (directory : Path) : m Bool := do
  if ← FileStore.isFile (directory.join entry) then return true
  match ← (Files.scanArchives directory : Attempt m _).run with
  | .ok archives => archives.anyM fun names => archiveProvides entry (directory.below names)
  | .error _ => return false

/-- Whether a class path provides a class. -/
def provides (classPath : List Path) (className : String) : m Bool :=
  let entry := ClassName.toEntry className
  classPath.anyM fun path => do
    if ← FileStore.isDirectory path then directoryProvides entry path
    else archiveProvides entry path

/-- Whether a class path provides the annotation that hides fields from XML binding. -/
def providesXmlTransient (classPath : List Path) : m Bool :=
  provides classPath Names.xmlTransientClass

end EntityLoom.ClassPath
