import EntityLoom.Pool.Basic

/-!
# Class files

The structure of a compiled class: versions, pool, names, members and attributes.  Attributes keep
their bytes as they are, so that nothing is lost of what is not looked at.  The file also holds the
look-ups by name, the signature attribute and a summary with all names resolved.
-/

namespace EntityLoom

/-! ## Access flags -/

namespace Access

def publicFlag : UInt16 := 0x0001
def privateFlag : UInt16 := 0x0002
def protectedFlag : UInt16 := 0x0004
def staticFlag : UInt16 := 0x0008
def superFlag : UInt16 := 0x0020
def transientFlag : UInt16 := 0x0080

/-- Whether a set of flags contains the static one. -/
def isStatic (flags : UInt16) : Bool :=
  flags.toNat / 8 % 2 = 1

end Access

/-! ## The structure of a class -/

/-- An attribute: the slot of its name and its content. -/
structure Attribute where
  name : UInt16
  info : Bytes
  deriving DecidableEq, Repr

/-- A field or a method. -/
structure Member where
  access : UInt16
  /-- The slot of the name. -/
  name : UInt16
  /-- The slot of the descriptor. -/
  descriptor : UInt16
  attributes : List Attribute
  deriving DecidableEq, Repr

/-- A class file. -/
structure ClassFile where
  minor : UInt16
  major : UInt16
  pool : Pool
  access : UInt16
  /-- The slot of the class itself. -/
  thisClass : UInt16
  /-- The slot of the superclass, or 0. -/
  superClass : UInt16
  interfaces : List UInt16
  fields : List Member
  methods : List Member
  attributes : List Attribute

/-! ## Attribute names -/

namespace Attribute

def codeName : String := "Code"
def signatureName : String := "Signature"
def stackMapTableName : String := "StackMapTable"
def visibleAnnotationsName : String := "RuntimeVisibleAnnotations"

end Attribute

/-- A field or method with its names resolved. -/
structure MemberSummary where
  name : String
  descriptor : String
  access : UInt16
  deriving DecidableEq, Repr

/-- A class with its names resolved. -/
structure ClassSummary where
  name : String
  superName : Option String
  major : UInt16
  interfaces : List String
  signature : Option String
  fields : List MemberSummary
  methods : List MemberSummary
  deriving DecidableEq, Repr

namespace ClassFile

/-- A class without members. -/
def empty (name : String) (superName : Option String) (access major : UInt16) :
    Except EmissionError ClassFile :=
  let slots : Interning (UInt16 × UInt16) := do
    let this ← Interning.classRef name
    match superName with
    | some s => return (this, ← Interning.classRef s)
    | none => return (this, 0)
  match slots.run.run .empty with
  | (.error e, _) => .error e
  | (.ok (this, super), pool) =>
    .ok ⟨0, major, pool, access, this, super, [], [], [], []⟩

/-! ## Names -/

/-- The name of the class. -/
def name (c : ClassFile) : Except FormatError String :=
  c.pool.classNameAt c.thisClass

/-- The name of the superclass, if there is one. -/
def superName (c : ClassFile) : Except FormatError (Option String) :=
  if c.superClass = 0 then .ok none else some <$> c.pool.classNameAt c.superClass

/-- The names of the interfaces. -/
def interfaceNames (c : ClassFile) : Except FormatError (List String) :=
  c.interfaces.mapM c.pool.classNameAt

/-- Whether the class declares a field of the given name, whatever its descriptor. -/
def hasField (c : ClassFile) (name : String) : Bool :=
  c.fields.any fun f => c.pool.holdsText f.name name

/-- Whether the class declares a method of the given name and descriptor. -/
def hasMethod (c : ClassFile) (name descriptor : String) : Bool :=
  c.methods.any fun m => c.pool.holdsText m.name name && c.pool.holdsText m.descriptor descriptor

/-! ## Attributes -/

/-- The position of the first attribute with the given name.  Attributes whose name cannot be read
are passed over. -/
def findAttribute? (c : ClassFile) (attributes : List Attribute) (name : String) : Option Nat :=
  attributes.findIdx? fun a => c.pool.holdsText a.name name

/-- The text of the first signature attribute, if there is one. -/
def signature (c : ClassFile) : Except FormatError (Option String) :=
  match c.attributes.find? fun a => c.pool.holdsText a.name Attribute.signatureName with
  | none => .ok none
  | some a => do
    let index ← Reader.word16.onData a.info
    some <$> c.pool.utf8At index

/-! ## Summary -/

/-- Resolves the names of a field or method. -/
def summarizeMember (c : ClassFile) (m : Member) : Except FormatError MemberSummary := do
  let name ← c.pool.utf8At m.name
  let descriptor ← c.pool.utf8At m.descriptor
  return ⟨name, descriptor, m.access⟩

/-- Resolves all names of a class. -/
def summary (c : ClassFile) : Except FormatError ClassSummary := do
  let name ← c.name
  let superName ← c.superName
  let interfaces ← c.interfaceNames
  let signature ← c.signature
  let fields ← c.fields.mapM c.summarizeMember
  let methods ← c.methods.mapM c.summarizeMember
  return ⟨name, superName, c.major, interfaces, signature, fields, methods⟩

end ClassFile

/-! ## Extending a class

A step that may extend a class.  What a failing step added to the pool before it failed stays. -/

/-- A step that may extend a class and fails with a cause of type `ε`. -/
abbrev Extending (ε : Type) := ExceptT ε (StateM ClassFile)

namespace ClassFile

/-- Runs a step on the pool of the class. -/
def interning (step : Interning α) : Extending EmissionError α := fun c =>
  let (result, pool) := step.run.run c.pool
  (result, { c with pool })

/-- Adds an interface at the end. -/
def addInterface (name : String) : Extending EmissionError Unit := do
  let index ← interning (Interning.classRef name)
  modify fun c => { c with interfaces := c.interfaces ++ [index] }

/-- Writes a signature into the first signature attribute, or into a new one at the end. -/
def setSignature (signature : String) : Extending EmissionError Unit := do
  let value ← interning (Interning.utf8 signature)
  let info := Bytes.ofWord16 value
  let c ← get
  match c.findAttribute? c.attributes Attribute.signatureName with
  | some i => set { c with attributes := c.attributes.modify i ({ · with info }) }
  | none =>
    let name ← interning (Interning.utf8 Attribute.signatureName)
    modify fun c => { c with attributes := c.attributes ++ [⟨name, info⟩] }

end ClassFile

end EntityLoom
