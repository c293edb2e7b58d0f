import EntityLoom.Archive.Basic
import EntityLoom.Archive.Checksum
import EntityLoom.Archive.Deflated
import EntityLoom.Text.Utf8

/-!
# Writing archives

The written form of an archive: each entry with a header of its own, then a directory that repeats
the headers with the places of the entries, then a record of where the directory is.
-/

namespace EntityLoom

namespace Compression

/-- The number of a method of compression. -/
def code : Compression → Nat
  | stored => 0
  | deflated => 8

/-- Compresses data. -/
def encode : Compression → Bytes → Bytes
  | stored, data => data
  | deflated, data => Deflated.encode data

end Compression

namespace Archive

/-! ## The marks of records -/

def localMark : Bytes := [0x50, 0x4B, 0x03, 0x04]
def centralMark : Bytes := [0x50, 0x4B, 0x01, 0x02]
def endMark : Bytes := [0x50, 0x4B, 0x05, 0x06]

/-- The flag of names in UTF-8. -/
def utf8Flag : Nat := 0x0800

/-- An entry as it is written. -/
structure Packed where
  entry : ArchiveEntry
  name : Bytes
  content : Bytes
  /-- The fields that the header of the entry and the directory share. -/
  header : Bytes

/-- The method of compression by which an entry is written; a folder has no data. -/
def methodOf (e : ArchiveEntry) : Compression :=
  if e.isFolder then .stored else e.compression

/-- Prepares an entry. -/
def pack (e : ArchiveEntry) : Packed :=
  let name := Text.Utf8.encode e.name
  let data := if e.isFolder then [] else e.data
  let content := (methodOf e).encode data
  let flags := if name.all (·.toNat < 128) then 0 else utf8Flag
  { entry := e, name, content
    header :=
      Bytes.littleEndian 2 20 ++ Bytes.littleEndian 2 flags ++
      Bytes.littleEndian 2 (methodOf e).code ++
      Bytes.littleEndian 2 e.modified.time.toNat ++ Bytes.littleEndian 2 e.modified.date.toNat ++
      Bytes.littleEndian 4 (Checksum.of data).toNat ++ Bytes.littleEndian 4 content.length ++
      Bytes.littleEndian 4 data.length ++ Bytes.littleEndian 2 name.length ++
      Bytes.littleEndian 2 0 }

/-- An entry with its header. -/
def writeLocal (p : Packed) : Bytes :=
  localMark ++ p.header ++ p.name ++ p.content

/-- The mode by which an entry is written. -/
def writtenMode (e : ArchiveEntry) : Nat :=
  if e.isFolder then 0o40000 + e.permissions?.getD 0o755
  else 0o100000 + e.permissions?.getD 0o644

/-- The system whose modes are written, and the version of the format. -/
def madeBy : Nat := 3 * 256 + 20

/-- The record of the directory for an entry at the given place. -/
def writeCentral (p : Packed) (offset : Nat) : Bytes :=
  centralMark ++ Bytes.littleEndian 2 madeBy ++ p.header ++
    Bytes.littleEndian 2 0 ++ Bytes.littleEndian 2 0 ++ Bytes.littleEndian 2 0 ++
    Bytes.littleEndian 4 (writtenMode p.entry * 0x10000) ++ Bytes.littleEndian 4 offset ++ p.name

/-- The records of the directory, where the first entry is at the given place. -/
def writeDirectory (offset : Nat) : List Packed → Bytes
  | [] => []
  | p :: rest => writeCentral p offset ++ writeDirectory (offset + (writeLocal p).length) rest

/-- The record of where the directory is. -/
def writeEnd (count size offset : Nat) : Bytes :=
  endMark ++ Bytes.littleEndian 2 0 ++ Bytes.littleEndian 2 0 ++
    Bytes.littleEndian 2 count ++ Bytes.littleEndian 2 count ++
    Bytes.littleEndian 4 size ++ Bytes.littleEndian 4 offset ++ Bytes.littleEndian 2 0

/-- The written form of an archive. -/
def write (entries : List ArchiveEntry) : Bytes :=
  let packed := entries.map pack
  let content := packed.flatMap writeLocal
  let directory := writeDirectory 0 packed
  content ++ directory ++ writeEnd packed.length directory.length content.length

end Archive

end EntityLoom
