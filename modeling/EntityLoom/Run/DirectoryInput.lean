import EntityLoom.ClassName
import EntityLoom.Files.Replace
import EntityLoom.Files.Scan
import EntityLoom.Run.Weaver

/-!
# Directories as inputs

A run over a directory weaves the class files below it into the same places below its output.  If
that is another directory, the classes that are not woven are copied.
-/

namespace EntityLoom.DirectoryInput

variable {m : Type → Type} [Monad m] [FileStore m]

/-- The content of a file. -/
def read (file : Path) : Attempt m Bytes := do
  match ← FileStore.read? file with
  | some data => return data
  | none => throw (.unreadableFile file)

/-- Looks at the headers of all classes below a directory, and counts them.  What is no class is
passed over. -/
def observe (directory : Path) (context : Context) : Attempt m (Nat × Context) := do
  let files ← Files.scanClasses directory
  let context ← files.foldlM (fun c names => do
    return c.observeInput (← read (directory.below names))) context
  return (files.length, context)

/-- A class file below an input, and what a run makes of it. -/
structure WovenFile where
  /-- The names that lead to the file. -/
  names : List String
  given : Bytes
  outcome : FileOutcome

/-- What a run makes of a class file below its input. -/
def weaveFile (w : Weaver) (input : Path) (names : List String) : Attempt m WovenFile := do
  let file := input.below names
  let given ← read file
  match w.weaveNamed (ClassName.ofFile? input file) given with
  | .ok outcome => return { names, given, outcome }
  | .error fault => throw (.fileWeaving file fault)

/-- Whether a file is written to the output of a run. -/
def WovenFile.isWritten (inPlace : Bool) (f : WovenFile) : Bool :=
  !inPlace || f.outcome.report?.isSome

/-- Weaves the class files below a directory into another directory, or into itself. -/
def weave (w : Weaver) (input output : Path) : Attempt m WeaveSummary := do
  let names ← Files.scanClasses input
  let files ← names.mapM (weaveFile w input)
  let written := files.filter (WovenFile.isWritten (input.same output))
  Files.replaceAll (written.map fun f =>
    (output.below f.names, f.outcome.content f.given))
  return WeaveSummary.ofOutcomes input output files.length (files.map WovenFile.outcome)

end EntityLoom.DirectoryInput
