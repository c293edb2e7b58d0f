import EntityLoom.Code.Assembly

/-!
# Members

Methods and fields as members of a class: the code attribute of an assembled body, and fields with
marker annotations.  The annotations of a member can be read back.
-/

namespace EntityLoom

/-- Wraps an assembled body into a code attribute. -/
def CodeBody.toAttribute (b : CodeBody) : Interning Attribute := do
  let nested ←
    match b.stackMap with
    | some table => do
      let name ← Interning.utf8 Attribute.stackMapTableName
      pure (Bytes.ofLength16 1 ++ Bytes.ofWord16 name ++ Bytes.ofLength32 table.length ++ table)
    | none => pure (Bytes.ofLength16 0)
  let name ← Interning.utf8 Attribute.codeName
  return ⟨name, Bytes.ofWord16 b.maxStack ++ Bytes.ofWord16 b.maxLocals ++
    Bytes.ofLength32 b.code.length ++ b.code ++ Bytes.ofLength16 0 ++ nested⟩

/-- Assembles a method into a member of a class. -/
def MethodDecl.toMember (m : MethodDecl) (thisClass : String) (withFrames : Bool) :
    Interning Member := do
  let body ← m.assemble thisClass withFrames
  let name ← Interning.utf8 m.name
  let descriptor ← Interning.utf8 m.descriptor
  let code ← body.toAttribute
  return ⟨m.access, name, descriptor, [code]⟩

/-- A field with marker annotations, which are given by their type descriptors. -/
structure FieldDecl where
  access : UInt16
  name : String
  descriptor : String
  annotations : List String := []
  deriving DecidableEq, Repr

/-- The written form of an annotation without elements. -/
def FieldDecl.writeAnnotation (type : String) : Interning Bytes :=
  return Bytes.ofWord16 (← Interning.utf8 type) ++ Bytes.ofLength16 0

/-- Turns a field into a member of a class. -/
def FieldDecl.toMember (f : FieldDecl) : Interning Member := do
  let attributes ←
    if f.annotations.isEmpty then pure []
    else do
      let parts ← f.annotations.mapM FieldDecl.writeAnnotation
      let name ← Interning.utf8 Attribute.visibleAnnotationsName
      pure [⟨name, Bytes.ofLength16 f.annotations.length ++ parts.flatten⟩]
  let name ← Interning.utf8 f.name
  let descriptor ← Interning.utf8 f.descriptor
  return ⟨f.access, name, descriptor, attributes⟩

/-! ## Reading annotations back -/

namespace Member

/-- Reads `n` annotations up to the first that has elements, whose type is the last one answered.
`acc` holds the types read so far, last first. -/
def readAnnotations (pool : Pool) (acc : List String) : Nat → Reader (List String)
  | 0 => return acc.reverse
  | n + 1 => do
    let type ← pool.utf8At (← Reader.word16)
    let elements ← Reader.word16
    if elements ≠ 0 then return (type :: acc).reverse
    readAnnotations pool (type :: acc) n

/-- The annotation types of an attribute's content. -/
def annotationsOf (pool : Pool) (info : Bytes) : Except FormatError (List String) :=
  Reader.onData (do readAnnotations pool [] (← Reader.word16).toNat) info

/-- The annotation types of a member, from all its annotation attributes. -/
def annotationTypes (m : Member) (pool : Pool) : Except FormatError (List String) := do
  let parts ← m.attributes.mapM fun a => do
    if (← pool.utf8At a.name) = Attribute.visibleAnnotationsName then annotationsOf pool a.info
    else pure []
  return parts.flatten

end Member

end EntityLoom
