import EntityLoom.ClassFile.Basic
import EntityLoom.Pool.Codec

/-!
# The written form of a class file

A class file is written as the magic number, the versions, the pool, the flags and names, and the
counted tables of interfaces, fields, methods and attributes.  Counts are written modulo `2 ^ 16`
and the length of an attribute modulo `2 ^ 32`.  Reading takes the same items in the same order and
refuses bytes that are left over.
-/

namespace EntityLoom

/-- The number that starts every class file. -/
def ClassFile.magic : UInt32 := 0xCAFEBABE

/-- The written form of a table: a 16 bit count and the items. -/
def Bytes.ofTable (item : α → Bytes) (items : List α) : Bytes :=
  Bytes.ofLength16 items.length ++ items.flatMap item

namespace Attribute

/-- The written form of an attribute. -/
def toBytes (a : Attribute) : Bytes :=
  Bytes.ofWord16 a.name ++ Bytes.ofLength32 a.info.length ++ a.info

/-- Reads an attribute. -/
def read : Reader Attribute := do
  let name ← Reader.word16
  let length ← Reader.word32
  let info ← Reader.bytes length.toNat
  return ⟨name, info⟩

end Attribute

namespace Member

/-- The written form of a field or method. -/
def toBytes (m : Member) : Bytes :=
  Bytes.ofWord16 m.access ++ Bytes.ofWord16 m.name ++ Bytes.ofWord16 m.descriptor ++
    Bytes.ofTable Attribute.toBytes m.attributes

/-- Reads a field or method. -/
def read : Reader Member := do
  let access ← Reader.word16
  let name ← Reader.word16
  let descriptor ← Reader.word16
  let attributes ← Reader.counted Attribute.read
  return ⟨access, name, descriptor, attributes⟩

end Member

namespace ClassFile

/-- The written form of a class. -/
def toBytes (c : ClassFile) : Bytes :=
  Bytes.ofWord32 magic ++ (Bytes.ofWord16 c.minor ++ (Bytes.ofWord16 c.major ++
    (c.pool.toBytes ++
      (Bytes.ofWord16 c.access ++ (Bytes.ofWord16 c.thisClass ++ (Bytes.ofWord16 c.superClass ++
        (Bytes.ofTable Bytes.ofWord16 c.interfaces ++
          (Bytes.ofTable Member.toBytes c.fields ++
            (Bytes.ofTable Member.toBytes c.methods ++
              Bytes.ofTable Attribute.toBytes c.attributes)))))))))

/-- Reads a class and leaves the bytes after it. -/
def read : Reader ClassFile := do
  let found ← Reader.word32
  unless found = magic do throw (.invalidMagic found)
  let minor ← Reader.word16
  let major ← Reader.word16
  let pool ← Pool.read
  let access ← Reader.word16
  let thisClass ← Reader.word16
  let superClass ← Reader.word16
  let interfaces ← Reader.counted Reader.word16
  let fields ← Reader.counted Member.read
  let methods ← Reader.counted Member.read
  let attributes ← Reader.counted Attribute.read
  return ⟨minor, major, pool, access, thisClass, superClass, interfaces, fields, methods,
    attributes⟩

/-- Reads data that is one class. -/
def parse (data : Bytes) : Except FormatError ClassFile :=
  match read.run (.start data) with
  | .error e => .error e
  | .ok (c, end_) =>
    if end_.rest = [] then .ok c else .error (.trailingBytes end_.rest.length)

end ClassFile

end EntityLoom
