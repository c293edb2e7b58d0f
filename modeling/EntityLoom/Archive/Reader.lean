import EntityLoom.Archive.Writer
import EntityLoom.Text.CodePage437

/-!
# Reading archives

An archive is read from its end: the last end record says where the directory is, and the directory
says where the entries are.  Bytes in front of the archive are passed over.  The check of the data
of each entry must hold.
-/

namespace EntityLoom

namespace Archive

/-- Why an archive cannot be read. -/
inductive Fault where
  /-- The directory cannot be found or read. -/
  | layout
  /-- An entry is encrypted, is compressed by an unknown method, or is not where it should be. -/
  | entry
  /-- The data of an entry is damaged. -/
  | data (name : String)
  deriving DecidableEq, Repr

/-! ## Records -/

/-- A step that takes bytes off some data. -/
abbrev Scanner := StateT Bytes Option

namespace Scanner

/-- Takes `n` bytes. -/
def bytes (n : Nat) : Scanner Bytes := fun data =>
  let (taken, rest) := data.splitAt n
  if taken.length = n then some (taken, rest) else none

/-- Takes a number of `n` bytes. -/
def number (n : Nat) : Scanner Nat :=
  Bytes.ofLittleEndian <$> bytes n

/-- Takes the given bytes. -/
def mark (expected : Bytes) : Scanner Unit := do
  let found ← bytes expected.length
  unless found = expected do failure

end Scanner

/-- A record of the directory. -/
structure CentralRecord where
  name : String
  isEncrypted : Bool
  method : Nat
  modified : ArchiveTime
  check : UInt32
  size : Nat
  mode : Option Nat
  /-- The place of the entry. -/
  offset : Nat
  deriving DecidableEq, Repr

/-- The file mode that follows from the attributes of an entry and the system that wrote it. -/
def modeOf (system attributes : Nat) : Option Nat :=
  if attributes = 0 then none
  else if system = 3 then some (attributes / 0x10000)
  else if system = 0 then
    let mode := if attributes / 16 % 2 = 1 then 0o40775 else 0o100664
    some (if attributes % 2 = 1 then mode &&& 0o555 else mode)
  else none

/-- Takes a record of the directory of an archive that starts at the given place. -/
def readCentral (start : Nat) : Scanner CentralRecord := do
  Scanner.mark centralMark
  let madeBy ← Scanner.number 2
  let _ ← Scanner.number 2
  let flags ← Scanner.number 2
  let method ← Scanner.number 2
  let time ← Scanner.number 2
  let date ← Scanner.number 2
  let check ← Scanner.number 4
  let size ← Scanner.number 4
  let _ ← Scanner.number 4
  let nameLength ← Scanner.number 2
  let extraLength ← Scanner.number 2
  let commentLength ← Scanner.number 2
  let _ ← Scanner.number 4
  let attributes ← Scanner.number 4
  let offset ← Scanner.number 4
  let name ← Scanner.bytes nameLength
  let _ ← Scanner.bytes extraLength
  let _ ← Scanner.bytes commentLength
  return {
    name :=
      if flags / utf8Flag % 2 = 1 then Text.Utf8.decodeLossy name
      else Text.CodePage437.decode name
    isEncrypted := flags % 2 = 1
    method
    modified := ⟨UInt16.ofNat date, UInt16.ofNat time⟩
    check := UInt32.ofNat check
    size
    mode := modeOf (madeBy / 256) attributes
    offset := start + offset }

/-- Takes `n` records of the directory; `acc` holds the records taken so far, last first. -/
def readRecords (start : Nat) (acc : List CentralRecord) : Nat → Scanner (List CentralRecord)
  | 0 => return acc.reverse
  | n + 1 => do
    let record ← readCentral start
    readRecords start (record :: acc) n

/-! ## The directory -/

/-- The number of bytes of an end record without its comment. -/
def endLength : Nat := 22

/-- The last end record in data that starts at the given place, with its own place.  `found` is the
last one before. -/
def lastEnd (found : Option (Nat × Bytes)) (place : Nat) (data : Bytes) : Option (Nat × Bytes) :=
  match data with
  | [] => found
  | b :: rest =>
    let found :=
      if endMark.isPrefixOf (b :: rest) ∧ endLength ≤ rest.length + 1 then some (place, b :: rest)
      else found
    lastEnd found (place + 1) rest

/-- What an end record says. -/
structure EndRecord where
  disk : Nat
  directoryDisk : Nat
  count : Nat
  directorySize : Nat
  directoryOffset : Nat
  deriving DecidableEq, Repr

/-- Takes an end record. -/
def readEnd : Scanner EndRecord := do
  Scanner.mark endMark
  let disk ← Scanner.number 2
  let directoryDisk ← Scanner.number 2
  let count ← Scanner.number 2
  let _ ← Scanner.number 2
  let directorySize ← Scanner.number 4
  let directoryOffset ← Scanner.number 4
  let commentLength ← Scanner.number 2
  let _ ← Scanner.bytes commentLength
  return { disk, directoryDisk, count, directorySize, directoryOffset }

/-- The records of the directory of an archive. -/
def records? (data : Bytes) : Option (List CentralRecord) := do
  let searched := data.length - (endLength + 65535)
  let (place, tail) ← lastEnd none searched (data.drop searched)
  let (e, _) ← readEnd.run tail
  guard (e.disk = e.directoryDisk)
  guard (e.directorySize + e.directoryOffset ≤ place)
  let start := place - e.directorySize - e.directoryOffset
  let (records, _) ← (readRecords start [] e.count).run (data.drop (start + e.directoryOffset))
  return records

/-! ## Entries -/

/-- Takes the header of an entry, which stands before its content. -/
def readLocal : Scanner Unit := do
  Scanner.mark localMark
  let _ ← Scanner.bytes 22
  let nameLength ← Scanner.number 2
  let extraLength ← Scanner.number 2
  let _ ← Scanner.bytes (nameLength + extraLength)

/-- The method of compression with the given number. -/
def methodOf? (code : Nat) : Option Compression :=
  if code = Compression.stored.code then some .stored
  else if code = Compression.deflated.code then some .deflated
  else none

/-- The content of an entry with its method of compression. -/
def CentralRecord.content? (data : Bytes) (r : CentralRecord) : Option (Compression × Bytes) := do
  guard !r.isEncrypted
  let ((), rest) ← readLocal.run (data.drop r.offset)
  let method ← methodOf? r.method
  return (method, rest.take r.size)

/-- Decompresses data. -/
def Compression.decode? : Compression → Bytes → Option Bytes
  | .stored, content => some content
  | .deflated, content => Deflated.decode? content

/-- The entry of a record. -/
def CentralRecord.entry (data : Bytes) (r : CentralRecord) : Except Fault ArchiveEntry :=
  match r.content? data with
  | none => .error .entry
  | some (compression, content) =>
    match Compression.decode? compression content with
    | none => .error (.data r.name)
    | some bytes =>
      if Checksum.of bytes = r.check then
        .ok { name := r.name, data := bytes, compression, modified := r.modified, mode := r.mode }
      else .error (.data r.name)

/-- The entries of an archive. -/
def read (data : Bytes) : Except Fault (List ArchiveEntry) :=
  match records? data with
  | none => .error .layout
  | some records => records.mapM (·.entry data)

/-- Whether an archive has an entry of the given name.  Of entries with one name the last counts. -/
def holds? (data : Bytes) (name : String) : Option Bool :=
  (records? data).map fun records =>
    (records.reverse.find? (·.name = name)).any fun r => (r.content? data).isSome

end Archive

end EntityLoom
