import EntityLoom.Frame.Basic
import EntityLoom.Pool.Basic

/-!
# Stack maps

The content of a stack map attribute: one entry for each of the frames that are given with their
bytecode offsets.  An entry says how far its offset lies behind the one before and repeats only what
differs: the locals of the entry before, or of the entry frame, are left out when they are the same
and the stack holds at most one value.
-/

namespace EntityLoom

/-- The written form of a verification type. -/
def VerificationType.write : VerificationType → Interning Bytes
  | top => return [0]
  | integer => return [1]
  | float => return [2]
  | double => return [3]
  | long => return [4]
  | null => return [5]
  | uninitializedThis => return [6]
  | object name => return 7 :: Bytes.ofWord16 (← Interning.classRef name)
  | uninitialized offset => return 8 :: Bytes.ofWord16 offset

namespace StackMap

/-- The written form of a list of verification types, after its length. -/
def writeTypes (vs : List VerificationType) : Interning Bytes := do
  let parts ← vs.mapM VerificationType.write
  return Bytes.ofLength16 vs.length ++ parts.flatten

/-- The largest distance that fits the first byte of an entry. -/
def shortDistance : Nat := 63

/-- An entry at a distance from the entry before, for a frame with the given locals and the given
stack, topmost value first. -/
def writeEntry (distance : Nat) (sameLocals : Bool) (locals stack : List VerificationType) :
    Interning Bytes := do
  let wide := Bytes.ofLength16 distance
  match sameLocals, stack with
  | true, [] =>
    return if distance ≤ shortDistance then [UInt8.ofNat distance] else 251 :: wide
  | true, [v] =>
    let head := if distance ≤ shortDistance then [UInt8.ofNat (64 + distance)] else 247 :: wide
    return head ++ (← v.write)
  | _, _ =>
    let locals ← writeTypes locals
    let stack ← writeTypes stack.reverse
    return 255 :: (wide ++ locals ++ stack)

/-- The entries for frames at increasing offsets.  `previous` holds the locals of the entry before,
`next` the first offset behind it, and `acc` the entries written so far, last first. -/
def writeEntries (acc : List Bytes) (previous : List VerificationType) (next : Nat) :
    List (Nat × Frame) → Interning (List Bytes)
  | [] => return acc.reverse
  | (offset, f) :: rest => do
    let distance := offset - next
    unless distance < 0x10000 do throw (.codeTooLarge distance)
    let locals := f.encodedLocals
    let entry ← writeEntry distance (locals = previous) locals f.stack
    writeEntries (entry :: acc) locals (offset + 1) rest

/-- The content of a stack map attribute for frames at increasing offsets, in a method with the
given entry frame. -/
def write (entry : Frame) (targets : List (Nat × Frame)) : Interning Bytes := do
  let entries ← writeEntries [] entry.encodedLocals 0 targets
  return Bytes.ofLength16 targets.length ++ entries.flatten

end StackMap

end EntityLoom
