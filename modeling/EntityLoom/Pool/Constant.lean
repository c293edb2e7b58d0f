import EntityLoom.Bytes
import EntityLoom.ClassFile.Cursor

/-!
# Constants

The entries of a constant pool and their written form: a tag byte and the operands.  A constant is
read back by the tag's reader; long and double constants take two slots of the pool.
-/

namespace EntityLoom

/-- An entry of a constant pool.  References to other entries are slot numbers. -/
inductive Constant where
  /-- A text in modified UTF-8. -/
  | utf8 (bytes : Bytes)
  | integer (value : Int32)
  /-- A float by its bits. -/
  | float (bits : UInt32)
  | long (value : Int64)
  /-- A double by its bits. -/
  | double (bits : UInt64)
  | classRef (name : UInt16)
  | string (text : UInt16)
  | fieldRef (owner nameAndType : UInt16)
  | methodRef (owner nameAndType : UInt16)
  | interfaceMethodRef (owner nameAndType : UInt16)
  | nameAndType (name descriptor : UInt16)
  | methodHandle (kind : UInt8) (reference : UInt16)
  | methodType (descriptor : UInt16)
  | dynamic (bootstrap nameAndType : UInt16)
  | invokeDynamic (bootstrap nameAndType : UInt16)
  | moduleName (name : UInt16)
  | packageName (name : UInt16)
  deriving DecidableEq, Repr

namespace Constant

/-- Whether a constant takes two slots. -/
def isWide : Constant → Bool
  | long _ | double _ => true
  | _ => false

/-- How many slots a constant takes. -/
def slots (c : Constant) : Nat :=
  if c.isWide then 2 else 1

/-- The tag byte of a constant. -/
def tag : Constant → UInt8
  | utf8 _ => 1
  | integer _ => 3
  | float _ => 4
  | long _ => 5
  | double _ => 6
  | classRef _ => 7
  | string _ => 8
  | fieldRef _ _ => 9
  | methodRef _ _ => 10
  | interfaceMethodRef _ _ => 11
  | nameAndType _ _ => 12
  | methodHandle _ _ => 15
  | methodType _ => 16
  | dynamic _ _ => 17
  | invokeDynamic _ _ => 18
  | moduleName _ => 19
  | packageName _ => 20

/-- The operands of a constant as written after its tag. -/
def operands : Constant → Bytes
  | utf8 bytes => Bytes.ofLength16 bytes.length ++ bytes
  | integer value => Bytes.ofWord32 value.toUInt32
  | float bits => Bytes.ofWord32 bits
  | long value => Bytes.ofWord64 value.toUInt64
  | double bits => Bytes.ofWord64 bits
  | classRef i | string i | methodType i | moduleName i | packageName i => Bytes.ofWord16 i
  | fieldRef i j | methodRef i j | interfaceMethodRef i j | nameAndType i j | dynamic i j
  | invokeDynamic i j => Bytes.ofWord16 i ++ Bytes.ofWord16 j
  | methodHandle kind i => kind :: Bytes.ofWord16 i

/-- The written form of a constant. -/
def toBytes (c : Constant) : Bytes :=
  c.tag :: c.operands

/-! ## Order -/

/-- The bytes by which constants are ordered: the written form, or a text without its length. -/
def orderKey : Constant → Bytes
  | utf8 bytes => tag (utf8 bytes) :: bytes
  | c => c.toBytes

theorem int32_bits_inj {v w : Int32} : v.toUInt32 = w.toUInt32 ↔ v = w :=
  ⟨congrArg Int32.ofUInt32, congrArg _⟩

theorem int64_bits_inj {v w : Int64} : v.toUInt64 = w.toUInt64 ↔ v = w :=
  ⟨congrArg Int64.ofUInt64, congrArg _⟩

/-- The order tells constants apart. -/
theorem orderKey_inj {c d : Constant} : c.orderKey = d.orderKey ↔ c = d := by
  cases c <;> cases d <;>
    simp [orderKey, toBytes, tag, operands, Bytes.ofWord16_inj, Bytes.ofWord16_append_inj,
      Bytes.ofWord32_inj, Bytes.ofWord64_inj, int32_bits_inj, int64_bits_inj]

instance : Ord Constant where
  compare c d := compare c.orderKey d.orderKey

theorem compare_eq (c d : Constant) : compare c d = compare c.orderKey d.orderKey := rfl

instance : Std.TransOrd Constant where
  eq_swap := by
    intro c d
    rw [compare_eq, compare_eq]
    exact Std.OrientedCmp.eq_swap
  isLE_trans := by
    intro c d e hcd hde
    rw [compare_eq] at hcd hde ⊢
    exact Std.TransCmp.isLE_trans hcd hde

instance : Std.LawfulEqOrd Constant where
  compare_self := by
    intro c
    rw [compare_eq]
    exact Std.ReflCmp.compare_self
  eq_of_compare := by
    intro c d h
    rw [compare_eq] at h
    exact orderKey_inj.1 (Std.LawfulEqCmp.eq_of_compare h)

/-! ## Reading -/

/-- Reads two slot numbers. -/
def readPair (make : UInt16 → UInt16 → Constant) : Reader Constant := do
  let i ← Reader.word16
  let j ← Reader.word16
  return make i j

/-- Reads the operands that follow a tag; `index` is the slot that is being read. -/
def readOperands (tag : UInt8) (index : UInt16) : Reader Constant :=
  match tag with
  | 1 => do
    let length ← Reader.word16
    return utf8 (← Reader.bytes length.toNat)
  | 3 => return integer (← Reader.word32).toInt32
  | 4 => return float (← Reader.word32)
  | 5 => return long (← Reader.word64).toInt64
  | 6 => return double (← Reader.word64)
  | 7 => return classRef (← Reader.word16)
  | 8 => return string (← Reader.word16)
  | 9 => readPair fieldRef
  | 10 => readPair methodRef
  | 11 => readPair interfaceMethodRef
  | 12 => readPair nameAndType
  | 15 => do
    let kind ← Reader.byte
    return methodHandle kind (← Reader.word16)
  | 16 => return methodType (← Reader.word16)
  | 17 => readPair dynamic
  | 18 => readPair invokeDynamic
  | 19 => return moduleName (← Reader.word16)
  | 20 => return packageName (← Reader.word16)
  | _ => throw (.invalidConstantTag tag index)

/-- Reads one constant. -/
def read (index : UInt16) : Reader Constant := do
  readOperands (← Reader.byte) index

end Constant

end EntityLoom
