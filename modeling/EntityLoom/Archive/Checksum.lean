import EntityLoom.Bytes

/-!
# Checksums of archive entries

The 32 bit cyclic redundancy check that an archive keeps of the data of each entry.
-/

namespace EntityLoom.Checksum

/-- The generator of the check, lowest power first. -/
def generator : UInt32 := 0xEDB88320

/-- Shifts one bit out of a remainder. -/
def shift (r : UInt32) : UInt32 :=
  if r &&& 1 = 1 then (r >>> 1) ^^^ generator else r >>> 1

/-- Takes a byte into a remainder. -/
def step (r : UInt32) (b : UInt8) : UInt32 :=
  shift (shift (shift (shift (shift (shift (shift (shift (r ^^^ b.toUInt32))))))))

/-- The check of a byte string. -/
def of (bs : Bytes) : UInt32 :=
  ~~~ bs.foldl step 0xFFFFFFFF

end EntityLoom.Checksum
