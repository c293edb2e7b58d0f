import EntityLoom.Files.Store
import EntityLoom.RunError

/-!
# Replacing files

New content is first staged in a file beside its target and then moved over it.  Of several files
all are staged before the first one is moved, and if one of them cannot be staged, the staged files
are removed.
-/

namespace EntityLoom.Files

variable {m : Type → Type} [Monad m] [FileStore m]

/-- Where the content for a file is staged. -/
def stagingPath (target : Path) : Path :=
  target.withSuffix ".tmp"

/-- Makes the directory for a file. -/
def makeParent (target : Path) : Attempt m Unit := do
  match target.parent? with
  | none => return
  | some parent =>
    unless ← FileStore.makeDirectories parent do throw (.directoryCreation parent)

/-- Stages the content for a file. -/
def stage (target : Path) (data : Bytes) : Attempt m Unit := do
  makeParent target
  unless ← FileStore.create (stagingPath target) do throw (.fileCreation (stagingPath target))
  unless ← FileStore.write (stagingPath target) data do
    let _ ← FileStore.remove (stagingPath target)
    throw (.writing target)

/-- Moves the staged content for a file over it. -/
def commit (target : Path) : Attempt m Unit := do
  unless ← FileStore.rename (stagingPath target) target do throw (.replacement target)

/-- Removes the staged content for files. -/
def unstage (targets : List Path) : Attempt m Unit :=
  targets.forM fun target => do
    let _ ← FileStore.remove (stagingPath target)

/-- Stages the content for files; `staged` are the targets before. -/
def stageAll (staged : List Path) : List (Path × Bytes) → Attempt m Unit
  | [] => return
  | (target, data) :: rest => do
    tryCatch (stage target data) fun fault => do
      unstage staged
      throw fault
    stageAll (staged ++ [target]) rest

/-- Replaces the content of a file. -/
def replace (target : Path) (data : Bytes) : Attempt m Unit := do
  stage target data
  commit target

/-- Replaces the content of files. -/
def replaceAll (files : List (Path × Bytes)) : Attempt m Unit := do
  stageAll [] files
  files.forM fun (target, _) => commit target

end EntityLoom.Files
