import EntityLoom.Code.Member
import EntityLoom.Release
import EntityLoom.Weaving.WeaveError

/-!
# Extending a class

An extension is a class file together with a record of what was added to it.  Interfaces, fields and
methods are added at the end; what the class had before stays as it is.  A member that the class
declares already is refused.  A step that fails leaves all but the pool as it was.
-/

namespace EntityLoom

/-- What was added to a class, in order.  Methods are given by name and descriptor. -/
structure Added where
  interfaces : List String := []
  fields : List String := []
  methods : List String := []
  deriving DecidableEq, Repr

/-- A field or a method that is to be added. -/
inductive MemberDecl where
  | field (f : FieldDecl)
  | method (m : MethodDecl)
  deriving DecidableEq, Repr

/-- A class that is being extended. -/
structure Extension where
  file : ClassFile
  name : String
  /-- Whether class files of this version carry stack maps. -/
  withFrames : Bool
  added : Added

namespace Extension

/-- Starts extending a class. -/
def ofFile (file : ClassFile) : Except FormatError Extension := do
  let name ← file.name
  return ⟨file, name, (Release.ofMajor file.major).1.hasStackMaps, {}⟩

/-- A step that extends a class. -/
abbrev Step := ExceptT WeaveError (StateM Extension)

/-- Runs a step on the class file; a fault is one of emitting the given member. -/
def emitting (member : String) (step : Extending EmissionError α) : Step α := fun x =>
  let (result, file) := step.run.run x.file
  let x' := { x with file }
  match result with
  | .ok a => (.ok a, x')
  | .error e => (.error (.emission x.name member e), x')

/-- Adds an interface. -/
def addInterface (name : String) : Step Unit := do
  emitting name (ClassFile.addInterface name)
  modify fun x => { x with added.interfaces := x.added.interfaces ++ [name] }

/-- Adds a field, unless the class has one of that name. -/
def addField (f : FieldDecl) : Step Unit := do
  let x ← get
  if x.file.hasField f.name then
    throw (.duplicateMember x.name f.name f.descriptor)
  let member ← emitting f.name (ClassFile.interning f.toMember)
  modify fun x =>
    { x with
      file.fields := x.file.fields ++ [member]
      added.fields := x.added.fields ++ [f.name] }

/-- Adds a method, unless the class has one of that name and descriptor. -/
def addMethod (m : MethodDecl) : Step Unit := do
  let x ← get
  if x.file.hasMethod m.name m.descriptor then
    throw (.duplicateMember x.name m.name m.descriptor)
  let member ← emitting m.signature (ClassFile.interning (m.toMember x.name x.withFrames))
  modify fun x =>
    { x with
      file.methods := x.file.methods ++ [member]
      added.methods := x.added.methods ++ [m.signature] }

/-- Adds a member. -/
def addMember : MemberDecl → Step Unit
  | .field f => addField f
  | .method m => addMethod m

/-- Writes the signature of the class. -/
def setSignature (signature : String) : Step Unit :=
  emitting Attribute.signatureName (ClassFile.setSignature signature)

end Extension

end EntityLoom
