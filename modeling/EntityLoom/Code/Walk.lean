import EntityLoom.ClassFile.Cursor

/-!
# Walking existing code

The lengths of the instructions of a code array, and the walk from one instruction to the next.  A
length depends on the bytes from the instruction on and, for the two switches, on the position of
the instruction modulo four.  The walk ends at the end of the code or at the first instruction whose
length cannot be told.
-/

namespace EntityLoom

/-- Whether a list has at least `n` items. -/
def hasAtLeast : Nat → List α → Bool
  | 0, _ => true
  | _ + 1, [] => false
  | n + 1, _ :: rest => hasAtLeast n rest

theorem hasAtLeast_iff {n : Nat} {xs : List α} : hasAtLeast n xs = true ↔ n ≤ xs.length := by
  induction xs generalizing n with
  | nil => cases n <;> simp [hasAtLeast]
  | cons x xs ih => cases n <;> simp [hasAtLeast, ih]

namespace Walk

/-- How the length of an instruction follows from its first byte. -/
inductive Shape where
  /-- The instruction always has this many bytes. -/
  | fixed (length : Nat)
  | tableSwitch
  | lookupSwitch
  | wide
  /-- No instruction has this first byte. -/
  | undefined
  deriving DecidableEq, Repr

/-- The shape of the instructions with a given first byte. -/
def shape (opcode : UInt8) : Shape :=
  let n := opcode.toNat
  if n ≤ 0x0F then .fixed 1
  else if n = 0x10 then .fixed 2
  else if n = 0x11 then .fixed 3
  else if n = 0x12 then .fixed 2
  else if n ≤ 0x14 then .fixed 3
  else if n ≤ 0x19 then .fixed 2
  else if n ≤ 0x35 then .fixed 1
  else if n ≤ 0x3A then .fixed 2
  else if n ≤ 0x83 then .fixed 1
  else if n = 0x84 then .fixed 3
  else if n ≤ 0x98 then .fixed 1
  else if n ≤ 0xA8 then .fixed 3
  else if n = 0xA9 then .fixed 2
  else if n = 0xAA then .tableSwitch
  else if n = 0xAB then .lookupSwitch
  else if n ≤ 0xB1 then .fixed 1
  else if n ≤ 0xB8 then .fixed 3
  else if n ≤ 0xBA then .fixed 5
  else if n = 0xBB then .fixed 3
  else if n = 0xBC then .fixed 2
  else if n = 0xBD then .fixed 3
  else if n ≤ 0xBF then .fixed 1
  else if n ≤ 0xC1 then .fixed 3
  else if n ≤ 0xC3 then .fixed 1
  else if n = 0xC4 then .wide
  else if n = 0xC5 then .fixed 4
  else if n ≤ 0xC7 then .fixed 3
  else if n ≤ 0xC9 then .fixed 5
  else if n = 0xCA then .fixed 1
  else .undefined

/-- How many bytes after a switch at `pc` fill it up to a multiple of four. -/
def padding (pc : Nat) : Nat :=
  (4 - (pc + 1) % 4) % 4

/-- The signed word `k` bytes into the code that starts at `pc`. -/
def int32At (pc : Nat) (code : Bytes) (k : Nat) : Except FormatError Int :=
  match code.drop k with
  | b₃ :: b₂ :: b₁ :: b₀ :: _ => .ok (Bytes.word32 b₃ b₂ b₁ b₀).toInt32.toInt
  | _ => .error (.unexpectedEnd (pc + k))

/-- The length that an instruction claims; `code` holds the bytes from the instruction on, which
stands at `pc`. -/
def claimedLength (pc : Nat) (opcode : UInt8) (code : Bytes) : Except FormatError Nat :=
  match shape opcode with
  | .fixed n => .ok n
  | .tableSwitch => do
    let header := 1 + padding pc
    let low ← int32At pc code (header + 4)
    let high ← int32At pc code (header + 8)
    if high < low then .error (.invalidInstruction opcode pc)
    else .ok (header + 12 + (high - low + 1).toNat * 4)
  | .lookupSwitch => do
    let header := 1 + padding pc
    let pairs ← int32At pc code (header + 4)
    if pairs < 0 then .error (.invalidInstruction opcode pc)
    else .ok (header + 8 + pairs.toNat * 8)
  | .wide =>
    match code with
    | _ :: next :: _ => .ok (if next = 0x84 then 6 else 4)
    | _ => .error (.unexpectedEnd (pc + 1))
  | .undefined => .error (.invalidInstruction opcode pc)

/-- The length of the instruction at `pc`, operands included; `code` holds the bytes from the
instruction on. -/
def instructionLength (pc : Nat) (code : Bytes) : Except FormatError Nat :=
  match code with
  | [] => .error (.unexpectedEnd pc)
  | opcode :: _ => do
    let n ← claimedLength pc opcode code
    if hasAtLeast n code then .ok n else .error (.unexpectedEnd (pc + code.length))

end Walk

/-- The instructions that a walk came by, and the fault that ended it early. -/
structure Walk where
  /-- The position and first byte of each instruction. -/
  visited : List (Nat × UInt8)
  fault : Option FormatError
  deriving DecidableEq, Repr

namespace Walk

/-- Walks on from `pc`; `acc` holds the instructions visited so far, last first. -/
def continueFrom (acc : List (Nat × UInt8)) (pc : Nat) (code : Bytes) : Walk :=
  match code with
  | [] => ⟨acc.reverse, none⟩
  | opcode :: rest =>
    match instructionLength pc code with
    | .error e => ⟨acc.reverse, some e⟩
    | .ok n => continueFrom ((pc, opcode) :: acc) (pc + n) (rest.drop (n - 1))
termination_by code.length
decreasing_by simp only [List.length_drop, List.length_cons]; omega

/-- Walks a code array from its start. -/
def ofCode (code : Bytes) : Walk :=
  continueFrom [] 0 code

/-- The instructions of a code array that can be walked to its end. -/
def instructions (code : Bytes) : Except FormatError (List (Nat × UInt8)) :=
  match ofCode code with
  | ⟨visited, none⟩ => .ok visited
  | ⟨_, some e⟩ => .error e

/-! ## The code array of a method -/

/-- Where the code array starts in the content of a code attribute. -/
def codeStart : Nat := 8

/-- Reads past the stack and local limits and answers the code array. -/
def readCode : Reader Bytes := do
  let _ ← Reader.word16
  let _ ← Reader.word16
  let length ← Reader.word32
  Reader.bytes length.toNat

/-- The bounds of the code array in the content of a code attribute. -/
def codeRange (info : Bytes) : Except FormatError (Nat × Nat) := do
  let code ← readCode.onData info
  return (codeStart, codeStart + code.length)

end Walk

end EntityLoom
