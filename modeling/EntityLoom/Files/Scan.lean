import EntityLoom.Files.IgnoreRules
import EntityLoom.Files.Store
import EntityLoom.RunError
import EntityLoom.Sorting

/-!
# Scanning directories

The files with a given extension below a directory, in the order of the names that lead to them.
What ignore files in the directory, below it or above it rule out is passed over.  The rules nearest
to a file or folder that say anything of it decide, and nothing below an ignored folder is found.
-/

namespace EntityLoom.Files

/-! ## Ignored files -/

/-- A directory, by the names that lead to it from the root, with the rules in its ignore file. -/
structure RuleSet where
  directory : List String
  rules : List IgnoreRule

/-- What a set of rules says of a file or folder. -/
def RuleSet.verdict? (s : RuleSet) (names : List String) (isFolder : Bool) : Option Bool :=
  match s.directory.isPrefixOf? names with
  | none | some [] => none
  | some rest => IgnoreRule.verdict? s.rules rest isFolder

/-- Whether a file or folder itself is ruled out by sets of rules, the ones for the longest paths
first. -/
def isRuledOut (sets : List RuleSet) (names : List String) (isFolder : Bool) : Bool :=
  (sets.findSome? (·.verdict? names isFolder)).getD false

/-- Whether a file below a directory is ignored, for itself or for a folder that it is in. -/
def isIgnored (sets : List RuleSet) (base names : List String) : Bool :=
  (List.range names.length).any fun n =>
    isRuledOut sets (base ++ names.take (n + 1)) (n + 1 < names.length)

/-! ## Found files -/

/-- Whether the last of some names has the given extension. -/
def hasExtension (extension : String) (names : List String) : Bool :=
  names.getLast?.bind Path.extension? = some extension

/-- The names that lead to a canonical path from the root. -/
def namesOf (canonical : Path) : List String :=
  canonical.components.filterMap fun
    | .name text => some text
    | _ => none

variable {m : Type → Type} [Monad m] [FileStore m]

/-- The rules in the ignore file of a directory that is given by the names from the root. -/
def readRules (directory : List String) : m RuleSet := do
  let file := (Path.mk "/").below (directory ++ [IgnoreRule.fileName])
  return ⟨directory, ((← FileStore.read? file).map IgnoreRule.ofBytes).getD []⟩

/-- The directories whose ignore files count for a scan, the ones with longer paths first: those
below the base that have one, the base, and all above it. -/
def ruledDirectories (base : List String) (found : List (List String)) : List (List String) :=
  let below := found.filter (·.getLast? = some IgnoreRule.fileName) |>.map fun names =>
    base ++ names.dropLast
  let above := (List.range base.length).map base.take
  sortBy (fun a b => b.length ≤ a.length) (below ++ above)

/-- The files below a directory that are not ignored. -/
def notIgnored (base : Path) (found : List (List String)) : m (List (List String)) := do
  match ← FileStore.canonical? base with
  | none => return found
  | some canonical =>
    let base := namesOf canonical
    let sets ← (ruledDirectories base found).mapM readRules
    return found.filter (!isIgnored sets base ·)

/-- Whether some names come no later than others, compared name by name. -/
def precedes (names others : List String) : Bool :=
  !List.lex others names fun a b => a < b

/-- The files with the given extension below a directory, each by the names that lead to it. -/
def scan (extension : String) (base : Path) : Attempt m (List (List String)) := do
  unless ← FileStore.isDirectory base do throw (.notDirectory base)
  let found ← notIgnored base (← FileStore.filesBelow base)
  return sortBy precedes (found.filter (hasExtension extension))

/-- The class files below a directory. -/
def scanClasses (base : Path) : Attempt m (List (List String)) :=
  scan "class" base

/-- The archives below a directory. -/
def scanArchives (base : Path) : Attempt m (List (List String)) :=
  scan "jar" base

end EntityLoom.Files
