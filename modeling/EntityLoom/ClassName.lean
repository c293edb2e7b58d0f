import EntityLoom.Files.Path

/-!
# Class names and class files

Which class a class file holds follows from its name in an archive, or from its path below a
directory.  Files of metadata hold none, and neither do the descriptors of modules and packages.
-/

namespace EntityLoom.ClassName

/-- What the names of class files end with. -/
def suffix : String := ".class"

/-- The name of the class file of a class, which is given with dots or with slashes. -/
def toEntry (name : String) : String :=
  String.ofList (name.toList.map fun c => if c = '.' then '/' else c) ++ suffix

/-- Where archives keep their metadata. -/
def metadataFolder : String := "META-INF/"

/-- The class of the class file with the given name. -/
def ofEntry? (entry : String) : Option String :=
  match suffix.toList.isSuffixOf? entry.toList with
  | none => none
  | some name =>
    if name = [] ∨ metadataFolder.toList.isPrefixOf entry.toList ∨
        "module-info".toList.isSuffixOf name ∨ "package-info".toList.isSuffixOf name then none
    else some (String.ofList name)

/-- The class of a file below a directory. -/
def ofFile? (root file : Path) : Option String := do
  let components ← root.behind? file
  ofEntry? ("/".intercalate (components.map Path.Component.text))

end EntityLoom.ClassName
