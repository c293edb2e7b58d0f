import EntityLoom.ClassFile.FormatError

/-!
# Reading class file data

A cursor is a position in class file data together with the bytes from there on.  A reader takes
some bytes off the cursor and answers a value, or fails at the position where the item that is cut
short starts.
-/

namespace EntityLoom

/-- A position in class file data. -/
structure Cursor where
  /-- How many bytes lie before the position. -/
  offset : Nat
  /-- The bytes from the position on. -/
  rest : Bytes
  deriving DecidableEq, Repr

/-- The cursor at the start of some data. -/
def Cursor.start (data : Bytes) : Cursor := ⟨0, data⟩

/-- A step that takes bytes off a cursor. -/
abbrev Reader := StateT Cursor (Except FormatError)

namespace Reader

/-- Takes one byte. -/
def byte : Reader UInt8
  | ⟨offset, b :: rest⟩ => .ok (b, ⟨offset + 1, rest⟩)
  | ⟨offset, []⟩ => .error (.unexpectedEnd offset)

/-- Takes a 16 bit word. -/
def word16 : Reader UInt16
  | ⟨offset, b₁ :: b₀ :: rest⟩ => .ok (Bytes.word16 b₁ b₀, ⟨offset + 2, rest⟩)
  | ⟨offset, _⟩ => .error (.unexpectedEnd offset)

/-- Takes a 32 bit word. -/
def word32 : Reader UInt32
  | ⟨offset, b₃ :: b₂ :: b₁ :: b₀ :: rest⟩ => .ok (Bytes.word32 b₃ b₂ b₁ b₀, ⟨offset + 4, rest⟩)
  | ⟨offset, _⟩ => .error (.unexpectedEnd offset)

/-- Takes a 64 bit word, one half after the other. -/
def word64 : Reader UInt64 := do
  let hi ← word32
  let lo ← word32
  return Bytes.word64 hi lo

/-- Takes `n` bytes. -/
def bytes (n : Nat) : Reader Bytes
  | ⟨offset, rest⟩ =>
    let parts := rest.splitAt n
    if parts.1.length = n then .ok (parts.1, ⟨offset + n, parts.2⟩)
    else .error (.unexpectedEnd offset)

/-- Takes `n` items one after the other; `acc` holds the items taken so far, last first. -/
def repeated (item : Reader α) (acc : List α) : Nat → Reader (List α)
  | 0 => return acc.reverse
  | n + 1 => do
    let x ← item
    repeated item (x :: acc) n

/-- Takes a 16 bit count and as many items. -/
def counted (item : Reader α) : Reader (List α) := do
  let n ← word16
  repeated item [] n.toNat

/-- Runs a reader from the start of some data and answers its value. -/
def onData (reader : Reader α) (data : Bytes) : Except FormatError α :=
  return (← reader.run (.start data)).1

end Reader

end EntityLoom
