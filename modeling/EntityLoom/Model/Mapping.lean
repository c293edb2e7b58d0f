import EntityLoom.ClassFile.Descriptor
import EntityLoom.Frame.VerificationType

/-!
# Mapped classes and attributes

What the metadata of an application says about its persistent classes: for each class the support
that is to be woven into it, and for each attribute its type, its accessors and how it is loaded.
-/

namespace EntityLoom

/-- What is known of a mapped attribute. -/
structure MappedAttribute where
  name : String
  type : Descriptor
  /-- Whether the class declares a field of that name; an attribute may have accessors alone. -/
  hasField : Bool := true
  getter : Option String := none
  setter : Option String := none
  /-- Whether the attribute is loaded lazily. -/
  valueHolders : Bool := false
  /-- Whether the holder's field is hidden from the mapping layer in any case. -/
  transientHolders : Bool := false
  /-- Whether a mapped superclass declares the attribute. -/
  onSuperclass : Bool := false
  virtualProperty : Bool := false
  mapAccessor : Bool := false
  keyMapAccessor : Bool := false
  deriving DecidableEq, Repr

namespace MappedAttribute

/-- The descriptor of the attribute's type. -/
def descriptor (a : MappedAttribute) : String :=
  a.type.text

/-- The class that values of the attribute are cast to: the boxing class of a primitive type, or
the type itself. -/
def castTarget (a : MappedAttribute) : String :=
  (a.type.wrapper? <|> a.type.classOperand?).getD VerificationType.rootClass

/-- The application's getter; an empty name counts as none. -/
def getterName? (a : MappedAttribute) : Option String :=
  a.getter.filter (· ≠ "")

/-- The application's setter; an empty name counts as none. -/
def setterName? (a : MappedAttribute) : Option String :=
  a.setter.filter (· ≠ "")

/-- Whether the accessors take the attribute's name as a key. -/
def usesKeyedAccessors (a : MappedAttribute) : Bool :=
  a.virtualProperty && (a.mapAccessor || a.keyMapAccessor)

/-- Whether the class itself declares the attribute; members are synthesized for these alone. -/
def isOwn (a : MappedAttribute) : Bool :=
  !a.onSuperclass

/-- Whether the value can be read and written: through a field or through both accessors. -/
def isReachable (a : MappedAttribute) : Bool :=
  a.hasField || (a.getterName?.isSome && a.setterName?.isSome)

end MappedAttribute

/-- What is to be woven into a class. -/
structure MappedClass where
  name : String
  /-- The superclass, where that is mapped too; none marks the root of a hierarchy. -/
  superclass : Option String := none
  /-- Cloning, identity, construction and keyed access. -/
  internal : Bool := false
  /-- Lazy loading. -/
  valueHolders : Bool := false
  changeTracking : Bool := false
  fetchGroups : Bool := false
  rest : Bool := false
  constructorOptimization : Bool := false
  embeddable : Bool := false
  attributeAccess : Bool := false
  /-- The attributes in declaration order. -/
  attributes : List MappedAttribute := []
  deriving DecidableEq, Repr

namespace MappedClass

/-- Whether the class is the root of its hierarchy. -/
def isRoot (c : MappedClass) : Bool :=
  c.superclass.isNone

/-- The first attribute of the given name. -/
def attribute? (c : MappedClass) (name : String) : Option MappedAttribute :=
  c.attributes.find? (·.name = name)

/-- The attributes that the class itself declares. -/
def ownAttributes (c : MappedClass) : List MappedAttribute :=
  c.attributes.filter MappedAttribute.isOwn

/-- Whether the class itself declares an attribute of the given name. -/
def ownsAttribute (c : MappedClass) (name : String) : Bool :=
  (c.attribute? name).any MappedAttribute.isOwn

/-- A class name with slashes for dots. -/
def internalName (name : String) : String :=
  String.ofList (name.toList.map fun c => if c = '.' then '/' else c)

/-- The class with internal names, and without a superclass that every class has. -/
def normalized (c : MappedClass) : MappedClass :=
  { c with
    name := internalName c.name
    superclass := (c.superclass.map internalName).filter (· ≠ VerificationType.rootClass) }

end MappedClass

end EntityLoom
