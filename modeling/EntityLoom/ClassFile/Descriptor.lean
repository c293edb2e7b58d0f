import EntityLoom.ClassFile.FormatError
import EntityLoom.Text.Blank
import EntityLoom.Total

/-!
# Descriptors

The types that fields, parameters and results of a method have, and their two spellings: the
descriptor of a class file (`I`, `[Ljava/lang/String;`) and the source spelling (`int`,
`java.lang.String[]`).  Descriptors are read by one function that takes a descriptor off the front
of a text; method descriptors are read with it.
-/

namespace EntityLoom

/-- The type of a field, a parameter or a result. -/
inductive Descriptor where
  | boolean
  | byte
  | char
  | short
  | int
  | long
  | float
  | double
  /-- The absence of a result. -/
  | void
  /-- A class by its internal name, such as `java/lang/String`. -/
  | object (name : String)
  | array (element : Descriptor)
  deriving DecidableEq, Repr

namespace Descriptor

/-- The class with the given name, dotted or internal. -/
def ofClassName (name : List Char) : Descriptor :=
  object (String.ofList (name.map fun c => if c = '.' then '/' else c))

/-- The array type with `depth` dimensions over a type. -/
def arrayOf : Nat → Descriptor → Descriptor
  | 0, d => d
  | depth + 1, d => arrayOf depth (array d)

/-! ## The descriptor spelling -/

/-- The characters of a descriptor. -/
def chars : Descriptor → List Char
  | boolean => ['Z']
  | byte => ['B']
  | char => ['C']
  | short => ['S']
  | int => ['I']
  | long => ['J']
  | float => ['F']
  | double => ['D']
  | void => ['V']
  | object name => 'L' :: (name.toList ++ [';'])
  | array element => '[' :: element.chars

/-- The text of a descriptor. -/
def text (d : Descriptor) : String :=
  String.ofList d.chars

/-- Takes a descriptor that is no array off the front of a text. -/
def takeElement? : List Char → Option (Descriptor × List Char)
  | 'Z' :: rest => some (boolean, rest)
  | 'B' :: rest => some (byte, rest)
  | 'C' :: rest => some (char, rest)
  | 'S' :: rest => some (short, rest)
  | 'I' :: rest => some (int, rest)
  | 'J' :: rest => some (long, rest)
  | 'F' :: rest => some (float, rest)
  | 'D' :: rest => some (double, rest)
  | 'V' :: rest => some (void, rest)
  | 'L' :: rest =>
    match rest.takeWhile (· ≠ ';'), rest.dropWhile (· ≠ ';') with
    | c :: name, _ :: rest' => some (object (String.ofList (c :: name)), rest')
    | _, _ => none
  | _ => none

/-- Takes a descriptor off the front of a text.  The element of an array is not `void`. -/
def take? (cs : List Char) : Option (Descriptor × List Char) :=
  match takeElement? (cs.dropWhile (· = '[')) with
  | none => none
  | some (d, rest) =>
    let depth := (cs.takeWhile (· = '[')).length
    if d = void ∧ depth ≠ 0 then none else some (arrayOf depth d, rest)

theorem length_of_takeElement? {cs rest : List Char} {d : Descriptor}
    (h : takeElement? cs = some (d, rest)) : rest.length < cs.length := by
  unfold takeElement? at h
  split at h
  case h_10 r =>
    split at h
    · next _ _ _ _ _ heq =>
      have hle := (List.dropWhile_suffix (l := r) (· ≠ ';')).length_le
      simp only [Option.some.injEq, Prod.mk.injEq] at h
      rw [heq, ← h.2] at *
      simp only [List.length_cons] at *
      omega
    · simp at h
  case h_11 => simp at h
  all_goals
    simp only [Option.some.injEq, Prod.mk.injEq] at h
    simp [← h.2]

theorem length_of_take? {cs rest : List Char} {d : Descriptor}
    (h : take? cs = some (d, rest)) : rest.length < cs.length := by
  have hle := (List.dropWhile_suffix (l := cs) (· = '[')).length_le
  unfold take? at h
  split at h
  · simp at h
  · next heq =>
    have := length_of_takeElement? heq
    dsimp only at h
    split at h
    · simp at h
    · simp only [Option.some.injEq, Prod.mk.injEq] at h
      rw [← h.2]
      omega

/-- Reads a text that is one descriptor. -/
def ofText (s : String) : Except FormatError Descriptor :=
  match take? s.toList with
  | some (d, []) => .ok d
  | _ => .error (.invalidDescriptor s)

/-! ## The source spelling -/

/-- The type that a keyword or a class name without brackets spells. -/
def ofWord (name : List Char) : Except FormatError Descriptor :=
  match String.ofList name with
  | "boolean" => .ok boolean
  | "byte" => .ok byte
  | "char" => .ok char
  | "short" => .ok short
  | "int" => .ok int
  | "long" => .ok long
  | "float" => .ok float
  | "double" => .ok double
  | "void" => .ok void
  | "" => .error (.invalidDescriptor "")
  | _ => .ok (ofClassName name)

/-- The text before a final pair of brackets. -/
def beforeBrackets? (cs : List Char) : Option (List Char) :=
  match cs.reverse with
  | ']' :: '[' :: rest => some rest.reverse
  | _ => none

theorem length_of_beforeBrackets? {cs es : List Char} (h : beforeBrackets? cs = some es) :
    es.length + 2 = cs.length := by
  unfold beforeBrackets? at h
  split at h
  · next rest heq =>
    have := congrArg List.length heq
    simp only [List.length_reverse, List.length_cons] at this
    simp only [Option.some.injEq] at h
    subst h
    simp only [List.length_reverse]
    omega
  · simp at h

/-- Reads a source spelling.  Blanks around the name, and around the name before each pair of
brackets, are left out. -/
def ofSourceName (cs : List Char) : Except FormatError Descriptor :=
  match _h : beforeBrackets? (Text.trim cs) with
  | some element => do
    let d ← ofSourceName element
    if d = void then .error (.invalidDescriptor (String.ofList (Text.trim cs)))
    else .ok (array d)
  | none => ofWord (Text.trim cs)
termination_by cs.length
decreasing_by
  have h₁ := length_of_beforeBrackets? _h
  have h₂ := Text.length_trim_le cs
  omega

/-- Whether a trimmed text is read as a descriptor rather than as a source spelling: it starts like
an array, is bracketed like a class, or is one of the letters of a primitive type or `void`. -/
def looksLikeDescriptor (cs : List Char) : Bool :=
  match cs with
  | '[' :: _ => true
  | ['Z'] | ['B'] | ['C'] | ['S'] | ['I'] | ['J'] | ['F'] | ['D'] | ['V'] => true
  | 'L' :: rest => rest.getLast? == some ';'
  | _ => false

/-- Reads either spelling. -/
def ofEither (s : String) : Except FormatError Descriptor :=
  let cs := Text.trim s.toList
  if looksLikeDescriptor cs then ofText (String.ofList cs) else ofSourceName cs

/-! ## Properties of a type -/

/-- Whether values of the type are references. -/
def isReference : Descriptor → Bool
  | object _ | array _ => true
  | _ => false

/-- Whether the type is primitive. -/
def isPrimitive (d : Descriptor) : Bool :=
  !d.isReference && d ≠ void

/-- How many local variable slots a value of the type takes. -/
def slots : Descriptor → Nat
  | void => 0
  | long | double => 2
  | _ => 1

/-- The operand by which an instruction names a reference type: the internal name of a class, the
descriptor of an array. -/
def classOperand? : Descriptor → Option String
  | object name => some name
  | array element => some (array element).text
  | _ => none

/-- The class whose instances box values of a primitive type. -/
def wrapper? : Descriptor → Option String
  | boolean => some "java/lang/Boolean"
  | byte => some "java/lang/Byte"
  | char => some "java/lang/Character"
  | short => some "java/lang/Short"
  | int => some "java/lang/Integer"
  | long => some "java/lang/Long"
  | float => some "java/lang/Float"
  | double => some "java/lang/Double"
  | _ => none

/-- The method of the boxing class that answers the primitive value. -/
def unboxMethod? : Descriptor → Option String
  | boolean => some "booleanValue"
  | byte => some "byteValue"
  | char => some "charValue"
  | short => some "shortValue"
  | int => some "intValue"
  | long => some "longValue"
  | float => some "floatValue"
  | double => some "doubleValue"
  | _ => none

end Descriptor

/-! ## Method descriptors -/

/-- The types of a method's parameters and of its result. -/
structure MethodDescriptor where
  params : List Descriptor
  result : Descriptor
  deriving DecidableEq, Repr

namespace MethodDescriptor

/-- The characters of a method descriptor. -/
def chars (m : MethodDescriptor) : List Char :=
  '(' :: (m.params.flatMap Descriptor.chars ++ ')' :: m.result.chars)

/-- The text of a method descriptor. -/
def text (m : MethodDescriptor) : String :=
  String.ofList m.chars

/-- Takes parameter types and the closing bracket off a text; `acc` holds the types taken so far,
last first. -/
def takeParams? (acc : List Descriptor) (cs : List Char) :
    Option (List Descriptor × List Char) :=
  match cs with
  | ')' :: rest => some (acc.reverse, rest)
  | cs =>
    match _h : Descriptor.take? cs with
    | none => none
    | some (d, rest) => if d = .void then none else takeParams? (d :: acc) rest
termination_by cs.length
decreasing_by exact Descriptor.length_of_take? _h

/-- Reads a text that is one method descriptor. -/
def ofText (s : String) : Except FormatError MethodDescriptor :=
  let read? : Option MethodDescriptor :=
    match s.toList with
    | '(' :: cs => do
      let (params, rest) ← takeParams? [] cs
      match Descriptor.take? rest with
      | some (result, []) => some ⟨params, result⟩
      | _ => none
    | _ => none
  match read? with
  | some m => .ok m
  | none => .error (.invalidDescriptor s)

/-- How many local variable slots the arguments take, as a 16 bit count. -/
def argSlots (m : MethodDescriptor) : UInt16 :=
  UInt16.ofNat (total Descriptor.slots m.params)

end MethodDescriptor

end EntityLoom
