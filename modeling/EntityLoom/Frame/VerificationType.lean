import EntityLoom.ClassFile.Descriptor

/-!
# Verification types

What the frame analysis knows of a value in a local variable slot or on the operand stack, and the
join of two such facts.  The join knows no class hierarchy: two distinct classes meet at
`java/lang/Object`.
-/

namespace EntityLoom

/-- What is known of a value. -/
inductive VerificationType where
  /-- Nothing is known; also the second slot of a long or double. -/
  | top
  | integer
  | float
  | long
  | double
  | null
  /-- The receiver of a constructor, before another constructor was called on it. -/
  | uninitializedThis
  /-- A class by its internal name, or an array by its descriptor. -/
  | object (name : String)
  /-- The result of the `new` at a bytecode offset, before its constructor was called. -/
  | uninitialized (offset : UInt16)
  deriving DecidableEq, Repr

namespace VerificationType

/-- The class that every class extends. -/
def rootClass : String := "java/lang/Object"

/-- What is known of a value of a declared type. -/
def ofDescriptor : Descriptor → VerificationType
  | .boolean | .byte | .char | .short | .int => integer
  | .float => float
  | .long => long
  | .double => double
  | .object name => object name
  | .array element => object (Descriptor.array element).text
  | .void => top

/-- Whether a value takes two slots. -/
def isWide : VerificationType → Bool
  | long | double => true
  | _ => false

/-- Whether a value is a reference, initialized or not. -/
def isReference : VerificationType → Bool
  | null | object _ | uninitializedThis | uninitialized _ => true
  | _ => false

/-- How many slots a value takes. -/
def slots (v : VerificationType) : Nat :=
  if v.isWide then 2 else 1

/-- The least that holds of either value. -/
def merge (a b : VerificationType) : VerificationType :=
  if a = b then a
  else
    match a, b with
    | null, object name | object name, null => object name
    | object _, object _ => object rootClass
    | _, _ => top

/-- The name of a verification type in messages. -/
def describe : VerificationType → String
  | top => "top"
  | integer => "integer"
  | float => "float"
  | long => "long"
  | double => "double"
  | null => "null"
  | uninitializedThis => "uninitializedthis"
  | object name => name
  | uninitialized offset => s!"uninitialized@{offset}"

/-! ## The join -/

@[simp] theorem merge_self (a : VerificationType) : a.merge a = a := by
  simp [merge]

@[simp] theorem merge_top (a : VerificationType) : a.merge top = top := by
  cases a <;> simp [merge]

@[simp] theorem top_merge (a : VerificationType) : top.merge a = top := by
  cases a <;> simp [merge]

theorem merge_comm (a b : VerificationType) : a.merge b = b.merge a := by
  by_cases h : a = b
  · rw [h]
  · have h' : ¬b = a := fun e => h e.symm
    cases a <;> cases b <;> simp_all [merge]

/-- How far a verification type can still rise in the order of the join. -/
def height : VerificationType → Nat
  | top => 0
  | object name => if name = rootClass then 1 else 2
  | null => 3
  | _ => 1

/-- A join that changes its left side rises. -/
theorem height_merge_lt {a b : VerificationType} (h : a.merge b ≠ a) :
    (a.merge b).height < a.height := by
  by_cases hab : a = b
  · subst hab; simp at h
  · unfold merge at h ⊢
    rw [if_neg hab] at h ⊢
    cases a <;> cases b <;> simp_all [height] <;> grind

end VerificationType

end EntityLoom
