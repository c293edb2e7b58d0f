import EntityLoom.Code.EmissionError
import EntityLoom.Pool.Constant
import EntityLoom.Text.ModifiedUtf8
import Std.Data.ExtTreeMap

/-!
# Constant pools

A pool is its slots and a table from each constant to the first slot that holds it.  Slots are only
ever appended, so a slot number that was once handed out stays valid.  The table is extensional: two
pools with the same slots and the same look-ups are equal.
-/

namespace EntityLoom

/-- A constant pool. -/
structure Pool where
  /-- The slots; slot 0 and the second slot of a long or double hold nothing. -/
  slots : Array (Option Constant)
  /-- The first slot of each constant. -/
  firstSlot : Std.ExtTreeMap Constant UInt16

namespace Pool

/-- The pool without constants. -/
def empty : Pool := ⟨#[none], ∅⟩

instance : EmptyCollection Pool := ⟨empty⟩

instance : Inhabited Pool := ⟨empty⟩

/-- How many slots the pool has, slot 0 included. -/
def count (p : Pool) : Nat := p.slots.size

/-- The largest count of slots a pool may have. -/
def maxCount : Nat := 65535

/-! ## Look-ups -/

/-- The constant in a slot. -/
def get? (p : Pool) (index : UInt16) : Option Constant :=
  (p.slots[index.toNat]?).join

/-- The text in a slot. -/
def utf8At (p : Pool) (index : UInt16) : Except FormatError String :=
  match p.get? index with
  | some (.utf8 bytes) => .ok (Text.ModifiedUtf8.decode bytes)
  | _ => .error (.badConstantRef index .utf8)

/-- Whether a slot holds the given text. -/
def holdsText (p : Pool) (index : UInt16) (text : String) : Bool :=
  match p.utf8At index with
  | .ok t => t == text
  | .error _ => false

/-- The name of the class that a slot refers to. -/
def classNameAt (p : Pool) (index : UInt16) : Except FormatError String :=
  match p.get? index with
  | some (.classRef name) => p.utf8At name
  | _ => .error (.badConstantRef index .classRef)

/-- The member that a class slot and a name-and-type slot describe together. -/
def memberAt (p : Pool) (owner nameAndType : UInt16) :
    Except FormatError (String × String × String) :=
  match p.get? nameAndType with
  | some (.nameAndType name descriptor) => do
    let owner ← p.classNameAt owner
    let name ← p.utf8At name
    let descriptor ← p.utf8At descriptor
    return (owner, name, descriptor)
  | _ => .error (.badConstantRef nameAndType .nameAndType)

/-- The owner, name and descriptor of the field that a slot refers to. -/
def fieldRefAt (p : Pool) (index : UInt16) : Except FormatError (String × String × String) :=
  match p.get? index with
  | some (.fieldRef owner nameAndType) => p.memberAt owner nameAndType
  | _ => .error (.badConstantRef index .fieldRef)

/-- The owner, name and descriptor of the field or method that a slot refers to. -/
def memberRefAt (p : Pool) (index : UInt16) : Except FormatError (String × String × String) :=
  match p.get? index with
  | some (.fieldRef owner nameAndType) | some (.methodRef owner nameAndType)
  | some (.interfaceMethodRef owner nameAndType) => p.memberAt owner nameAndType
  | _ => .error (.badConstantRef index .memberRef)

/-! ## Interning -/

/-- Appends a constant, with an empty slot after a wide one. -/
def append (p : Pool) (c : Constant) : Pool :=
  let ⟨slots, firstSlot⟩ := p
  let firstSlot := firstSlot.insertIfNew c (UInt16.ofNat slots.size)
  let slots := slots.push (some c)
  ⟨if c.isWide then slots.push none else slots, firstSlot⟩

theorem count_append (p : Pool) (c : Constant) : (p.append c).count = p.count + c.slots := by
  simp only [count, append, Constant.slots]
  split <;> simp

theorem count_lt_count_append (p : Pool) (c : Constant) : p.count < (p.append c).count := by
  rw [count_append, Constant.slots]
  split <;> omega

end Pool

/-- A step that may extend a pool.  What a failing step added before it failed stays. -/
abbrev Interning := ExceptT EmissionError (StateM Pool)

namespace Interning

/-- The slot of a constant, which is appended when the pool does not hold it yet. -/
def constant (c : Constant) : Interning UInt16 := fun p =>
  match p.firstSlot[c]? with
  | some index => (.ok index, p)
  | none =>
    if Pool.maxCount < p.count + c.slots then (.error .constantPoolOverflow, p)
    else
      let index := UInt16.ofNat p.count
      (.ok index, p.append c)

/-- The slot of a text. -/
def utf8 (text : String) : Interning UInt16 :=
  constant (.utf8 (Text.ModifiedUtf8.encode text))

/-- The slot of a reference to a class, or to an array type by its descriptor. -/
def classRef (name : String) : Interning UInt16 := do
  constant (.classRef (← utf8 name))

/-- The slot of a string constant. -/
def string (text : String) : Interning UInt16 := do
  constant (.string (← utf8 text))

/-- The slot of a name with a descriptor. -/
def nameAndType (name descriptor : String) : Interning UInt16 := do
  let name ← utf8 name
  let descriptor ← utf8 descriptor
  constant (.nameAndType name descriptor)

/-- The slot of a reference to a field. -/
def fieldRef (owner name descriptor : String) : Interning UInt16 := do
  let owner ← classRef owner
  let nameAndType ← nameAndType name descriptor
  constant (.fieldRef owner nameAndType)

/-- The slot of a reference to a method of a class, or of an interface. -/
def methodRef (owner name descriptor : String) (ofInterface : Bool) : Interning UInt16 := do
  let owner ← classRef owner
  let nameAndType ← nameAndType name descriptor
  constant (if ofInterface then .interfaceMethodRef owner nameAndType
    else .methodRef owner nameAndType)

end Interning

end EntityLoom
