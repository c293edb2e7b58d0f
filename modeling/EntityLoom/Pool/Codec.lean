import EntityLoom.Pool.Basic

/-!
# The written form of a constant pool

A pool is written as its count of slots followed by its constants in slot order; an empty slot
writes nothing.  A count beyond 16 bits is written modulo `2 ^ 16`.  Reading takes constants until
the slots they fill reach the count, so a long or double at the last slot fills one slot more.
-/

namespace EntityLoom.Pool

/-- The written form of a pool. -/
def toBytes (p : Pool) : Bytes :=
  Bytes.ofLength16 p.count ++
    p.slots.toList.flatMap fun slot =>
      match slot with
      | none => []
      | some c => c.toBytes

/-- Reads constants until the pool has `count` slots.  Each constant fills at least one slot. -/
def readConstants (count : Nat) (p : Pool) : Reader Pool := do
  if _h : p.count < count then
    let c ← Constant.read (UInt16.ofNat p.count)
    readConstants count (p.append c)
  else
    return p
termination_by count - p.count
decreasing_by
  have := p.count_lt_count_append c
  omega

/-- Reads a pool. -/
def read : Reader Pool := do
  let count ← Reader.word16
  readConstants count.toNat .empty

end EntityLoom.Pool
