import EntityLoom.Proofs.Archive.Content
import EntityLoom.Proofs.Text.Utf8

/-!
# Archives are read back

The entries of a written archive are read back one for one, in order, as far as the format has room
for their numbers (`Archive.read_written`).  What is read back of an entry is `ArchiveEntry.written`:
its name, data and time, but the data of a folder is not written, and the mode is filled up.

A record is scanned back from its written form whatever stands behind it (`Archive.Scanner.Reads`).
The last end record of a written archive is the one at its end, whatever the entries hold: any mark
that starts behind it has no room for a record.
-/

namespace EntityLoom

/-- What is written of an entry. -/
def ArchiveEntry.written (e : ArchiveEntry) : ArchiveEntry :=
  { e with
    data := if e.isFolder then [] else e.data
    compression := Archive.methodOf e
    mode := some (Archive.writtenMode e) }

namespace Archive

/-- The format has room for the numbers of an archive. -/
structure Fits (entries : List ArchiveEntry) : Prop where
  count : entries.length < 0x10000
  names : ∀ e ∈ entries, (Text.Utf8.encode e.name).length < 0x10000
  size : (write entries).length < 0x100000000

/-! ## Scanning -/

namespace Scanner

variable {α β : Type} {x : Scanner α} {k : α → Scanner β} {bs cs : Bytes} {a a' : α} {b : β}

/-- Data that starts with the given bytes is scanned with the given answer up to their end. -/
def Reads (x : Scanner α) (bs : Bytes) (a : α) : Prop :=
  ∀ rest, x.run (bs ++ rest) = some (a, rest)

theorem Reads.pure (h : a = a') : Reads (pure a) [] a' := by
  subst h
  exact fun _ => rfl

theorem Reads.bind (hx : Reads x bs a) (hk : Reads (k a) cs b) : Reads (x >>= k) (bs ++ cs) b := by
  intro rest
  rw [List.append_assoc, StateT.run_bind, hx, Option.bind_eq_bind, Option.bind_some]
  exact hk rest

/-- A step that takes nothing behind it. -/
theorem Reads.bind_last (hx : Reads x bs a) (hk : Reads (k a) [] b) : Reads (x >>= k) bs b :=
  List.append_nil bs ▸ hx.bind hk

theorem reads_bytes {n : Nat} (h : bs.length = n) : Reads (bytes n) bs bs := by
  subst h
  intro rest
  unfold bytes
  rw [StateT.run]
  dsimp only
  rw [List.splitAt_eq, List.take_left, List.drop_left, if_pos rfl]

theorem reads_nothing : Reads (bytes 0) [] [] :=
  reads_bytes rfl

theorem reads_number (width n : Nat) :
    Reads (number width) (Bytes.littleEndian width n) (n % 256 ^ width) := by
  intro rest
  unfold number
  rw [StateT.run_map, reads_bytes (Bytes.length_littleEndian width n) rest,
    ← Bytes.ofLittleEndian_littleEndian]
  rfl

/-- A number that fits is read back. -/
theorem reads_number_of_lt {width n : Nat} (h : n < 256 ^ width) :
    Reads (number width) (Bytes.littleEndian width n) n := by
  have hnumber := reads_number width n
  rwa [Nat.mod_eq_of_lt h] at hnumber

theorem reads_mark (expected : Bytes) : Reads (mark expected) expected () := by
  unfold mark
  refine (reads_bytes rfl).bind_last ?_
  rw [if_pos rfl]
  exact .pure rfl

end Scanner

open Scanner (Reads reads_bytes reads_nothing reads_number reads_number_of_lt reads_mark)

/-! ## Records -/

/-- The record of the directory for an entry at the given place. -/
def recordOf (e : ArchiveEntry) (offset : Nat) : CentralRecord where
  name := e.name
  isEncrypted := false
  method := (methodOf e).code
  modified := e.modified
  check := Checksum.of e.written.data
  size := (pack e).content.length
  mode := some (writtenMode e)
  offset

/-- The flags of an entry. -/
def flagsOf (e : ArchiveEntry) : Nat :=
  if (Text.Utf8.encode e.name).all (·.toNat < 128) then 0 else utf8Flag

/-- The fields of a header in front of the length of the name. -/
def fieldsOf (e : ArchiveEntry) : Bytes :=
  Bytes.littleEndian 2 20 ++ Bytes.littleEndian 2 (flagsOf e) ++
    Bytes.littleEndian 2 (methodOf e).code ++
    Bytes.littleEndian 2 e.modified.time.toNat ++ Bytes.littleEndian 2 e.modified.date.toNat ++
    Bytes.littleEndian 4 (Checksum.of e.written.data).toNat ++
    Bytes.littleEndian 4 (pack e).content.length ++ Bytes.littleEndian 4 e.written.data.length

theorem header_pack (e : ArchiveEntry) :
    (pack e).header = fieldsOf e ++ Bytes.littleEndian 2 (Text.Utf8.encode e.name).length ++
      Bytes.littleEndian 2 0 :=
  rfl

@[simp] theorem entry_pack (e : ArchiveEntry) : (pack e).entry = e := rfl

@[simp] theorem name_pack (e : ArchiveEntry) : (pack e).name = Text.Utf8.encode e.name := rfl

@[simp] theorem content_pack (e : ArchiveEntry) :
    (pack e).content = (methodOf e).encode e.written.data :=
  rfl

theorem length_fieldsOf (e : ArchiveEntry) : (fieldsOf e).length = 22 := by
  simp only [fieldsOf, List.length_append, Bytes.length_littleEndian]

/-- A name is read back under its flags. -/
theorem decode_name (e : ArchiveEntry) :
    (if flagsOf e / utf8Flag % 2 = 1 then Text.Utf8.decodeLossy (Text.Utf8.encode e.name)
      else Text.CodePage437.decode (Text.Utf8.encode e.name)) = e.name := by
  unfold flagsOf
  split
  · next hascii =>
    rw [if_neg (by decide)]
    exact Text.CodePage437.decode_encode (by simpa using hascii)
  · rw [if_pos (by decide)]
    exact Text.Utf8.decodeLossy_encode e.name

theorem code_methodOf_lt (e : ArchiveEntry) : (methodOf e).code < 256 ^ 2 := by
  cases methodOf e <;> decide

theorem flagsOf_lt (e : ArchiveEntry) : flagsOf e < 256 ^ 2 ∧ flagsOf e % 2 ≠ 1 := by
  unfold flagsOf
  split <;> decide

theorem writtenMode_bounds (e : ArchiveEntry) : 0 < writtenMode e ∧ writtenMode e < 0x10000 := by
  have hpermissions : ∀ m, e.permissions? = some m → m < 512 := by
    intro m hm
    obtain ⟨mode, -, rfl⟩ := Option.map_eq_some_iff.1 hm
    exact Nat.mod_lt _ (by decide)
  unfold writtenMode
  cases hm : e.permissions? with
  | none =>
    simp only [Option.getD_none]
    split <;> omega
  | some m =>
    have hlt := hpermissions m hm
    simp only [Option.getD_some]
    split <;> omega

/-- The attributes that hold a mode give it back. -/
theorem modeOf_writtenMode (e : ArchiveEntry) :
    modeOf (madeBy / 256) (writtenMode e * 0x10000) = some (writtenMode e) := by
  have hpos := (writtenMode_bounds e).1
  unfold modeOf
  rw [if_neg (by omega), if_pos (by decide), Nat.mul_div_cancel _ (by decide)]

/-- The record for an entry, field by field as it is scanned. -/
theorem writeCentral_pack (e : ArchiveEntry) (offset : Nat) :
    writeCentral (pack e) offset =
      centralMark ++ (Bytes.littleEndian 2 madeBy ++ (Bytes.littleEndian 2 20 ++
        (Bytes.littleEndian 2 (flagsOf e) ++ (Bytes.littleEndian 2 (methodOf e).code ++
        (Bytes.littleEndian 2 e.modified.time.toNat ++
        (Bytes.littleEndian 2 e.modified.date.toNat ++
        (Bytes.littleEndian 4 (Checksum.of e.written.data).toNat ++
        (Bytes.littleEndian 4 (pack e).content.length ++
        (Bytes.littleEndian 4 e.written.data.length ++
        (Bytes.littleEndian 2 (Text.Utf8.encode e.name).length ++ (Bytes.littleEndian 2 0 ++
        (Bytes.littleEndian 2 0 ++ (Bytes.littleEndian 4 0 ++
        (Bytes.littleEndian 4 (writtenMode e * 0x10000) ++
        (Bytes.littleEndian 4 offset ++ Text.Utf8.encode e.name))))))))))))))) := by
  have hplace : Bytes.littleEndian 4 0 = Bytes.littleEndian 2 0 ++ Bytes.littleEndian 2 0 := rfl
  unfold writeCentral
  rw [hplace, header_pack, entry_pack, name_pack]
  unfold fieldsOf
  simp only [List.append_assoc]

/-- The record for an entry is read back. -/
theorem reads_readCentral {e : ArchiveEntry} {offset : Nat}
    (hname : (Text.Utf8.encode e.name).length < 0x10000)
    (hcontent : (pack e).content.length < 0x100000000) (hoffset : offset < 0x100000000) :
    Reads (readCentral 0) (writeCentral (pack e) offset) (recordOf e offset) := by
  have htime := e.modified.time.toNat_lt
  have hdate := e.modified.date.toNat_lt
  have hcheck := (Checksum.of e.written.data).toNat_lt
  have hmode := (writtenMode_bounds e).2
  have hflags := flagsOf_lt e
  rw [writeCentral_pack]
  unfold readCentral
  -- One step for each field.  The numbers in between that are passed over need not fit.
  refine (reads_mark _).bind ?_
  refine (reads_number_of_lt (by decide)).bind ?_
  refine (reads_number 2 20).bind ?_
  refine (reads_number_of_lt hflags.1).bind ?_
  refine (reads_number_of_lt (code_methodOf_lt e)).bind ?_
  refine (reads_number_of_lt (by omega)).bind ?_
  refine (reads_number_of_lt (by omega)).bind ?_
  refine (reads_number_of_lt (by omega)).bind ?_
  refine (reads_number_of_lt (by omega)).bind ?_
  refine (reads_number 4 _).bind ?_
  refine (reads_number_of_lt (by omega)).bind ?_
  refine (reads_number_of_lt (by decide)).bind ?_
  refine (reads_number_of_lt (by decide)).bind ?_
  refine (reads_number 4 0).bind ?_
  refine (reads_number_of_lt (by omega)).bind ?_
  refine (reads_number_of_lt (by omega)).bind ?_
  refine (reads_bytes rfl).bind_last ?_
  refine reads_nothing.bind_last ?_
  refine reads_nothing.bind_last (.pure ?_)
  unfold recordOf
  rw [decode_name, modeOf_writtenMode, decide_eq_false hflags.2, UInt16.ofNat_toNat,
    UInt16.ofNat_toNat, UInt32.ofNat_toNat, Nat.zero_add]

/-- The header of an entry is passed over. -/
theorem reads_readLocal {e : ArchiveEntry}
    (hname : (Text.Utf8.encode e.name).length < 0x10000) :
    Reads readLocal (localMark ++ (pack e).header ++ (pack e).name) () := by
  have hwritten : localMark ++ (pack e).header ++ (pack e).name =
      localMark ++ (fieldsOf e ++ (Bytes.littleEndian 2 (Text.Utf8.encode e.name).length ++
        (Bytes.littleEndian 2 0 ++ Text.Utf8.encode e.name))) := by
    rw [header_pack, name_pack]
    simp only [List.append_assoc]
  rw [hwritten]
  unfold readLocal
  refine (reads_mark _).bind ?_
  refine (reads_bytes (length_fieldsOf e)).bind ?_
  refine (reads_number_of_lt (by omega)).bind ?_
  refine (reads_number_of_lt (by decide)).bind ?_
  exact (reads_bytes rfl).bind_last (.pure rfl)

/-- The end record is read back. -/
theorem reads_readEnd {count size offset : Nat} (hcount : count < 0x10000)
    (hsize : size < 0x100000000) (hoffset : offset < 0x100000000) :
    Reads readEnd (writeEnd count size offset) ⟨0, 0, count, size, offset⟩ := by
  unfold writeEnd readEnd
  simp only [List.append_assoc]
  refine (reads_mark _).bind ?_
  refine (reads_number_of_lt (by decide)).bind ?_
  refine (reads_number_of_lt (by decide)).bind ?_
  refine (reads_number_of_lt (by omega)).bind ?_
  refine (reads_number 2 _).bind ?_
  refine (reads_number_of_lt (by omega)).bind ?_
  refine (reads_number_of_lt (by omega)).bind ?_
  refine (reads_number_of_lt (by decide)).bind_last ?_
  exact reads_nothing.bind_last (.pure rfl)

/-! ## The directory -/

/-- The written forms of entries. -/
def writeLocals (entries : List ArchiveEntry) : Bytes :=
  (entries.map pack).flatMap writeLocal

/-- The records for entries, where the first one is at the given place. -/
def recordsFrom (offset : Nat) : List ArchiveEntry → List CentralRecord
  | [] => []
  | e :: rest => recordOf e offset :: recordsFrom (offset + (writeLocal (pack e)).length) rest

theorem writeLocals_cons (e : ArchiveEntry) (rest : List ArchiveEntry) :
    writeLocals (e :: rest) = writeLocal (pack e) ++ writeLocals rest :=
  rfl

theorem length_content_le (e : ArchiveEntry) :
    (pack e).content.length ≤ (writeLocal (pack e)).length := by
  unfold writeLocal
  rw [List.length_append]
  omega

/-- The records for all entries are read back. -/
theorem reads_readRecords {entries : List ArchiveEntry} {offset : Nat} (acc : List CentralRecord)
    (hnames : ∀ e ∈ entries, (Text.Utf8.encode e.name).length < 0x10000)
    (hsize : offset + (writeLocals entries).length < 0x100000000) :
    Reads (readRecords 0 acc entries.length) (writeDirectory offset (entries.map pack))
      (acc.reverse ++ recordsFrom offset entries) := by
  induction entries generalizing offset acc with
  | nil => exact .pure (List.append_nil _).symm
  | cons e rest ih =>
    obtain ⟨hname, hnames⟩ := List.forall_mem_cons.1 hnames
    have hcontent := length_content_le e
    rw [writeLocals_cons, List.length_append] at hsize
    have hfirst := @reads_readCentral e offset hname (by omega) (by omega)
    have hrest := @ih (offset + (writeLocal (pack e)).length) (recordOf e offset :: acc) hnames
      (by omega)
    rw [List.reverse_cons, List.append_assoc, List.singleton_append] at hrest
    exact hfirst.bind hrest

/-! ## The end -/

theorem lastEnd_of_short {data : Bytes} (found : Option (Nat × Bytes)) (place : Nat)
    (h : data.length < endLength) : lastEnd found place data = found := by
  induction data generalizing found place with
  | nil => rfl
  | cons b rest ih =>
    rw [List.length_cons] at h
    unfold lastEnd
    dsimp only
    rw [if_neg (by omega), ih _ _ (by omega)]

/-- An end record without a comment at the end of data is the last one in it. -/
theorem lastEnd_append {front tail : Bytes} (found : Option (Nat × Bytes)) (place : Nat)
    (hmark : endMark.isPrefixOf tail) (hlength : tail.length = endLength) :
    lastEnd found place (front ++ tail) = some (place + front.length, tail) := by
  induction front generalizing found place with
  | nil =>
    cases tail with
    | nil => exact absurd hlength (by decide)
    | cons b rest =>
      rw [List.length_cons] at hlength
      rw [List.nil_append, lastEnd, if_pos ⟨hmark, by omega⟩, lastEnd_of_short _ _ (by omega)]
      rfl
  | cons b front ih =>
    rw [List.cons_append, lastEnd, ih, List.length_cons, Nat.add_right_comm, Nat.add_assoc]

theorem length_writeEnd (count size offset : Nat) :
    (writeEnd count size offset).length = endLength := by
  simp only [writeEnd, List.length_append, Bytes.length_littleEndian]
  rfl

theorem isPrefixOf_writeEnd (count size offset : Nat) :
    endMark.isPrefixOf (writeEnd count size offset) := by
  rw [List.isPrefixOf_iff_prefix]
  unfold writeEnd
  simp only [List.append_assoc]
  exact List.prefix_append _ _

theorem write_eq (entries : List ArchiveEntry) :
    write entries = writeLocals entries ++ writeDirectory 0 (entries.map pack) ++
      writeEnd entries.length (writeDirectory 0 (entries.map pack)).length
        (writeLocals entries).length := by
  unfold write writeLocals
  dsimp only
  rw [List.length_map]

/-- The records of an archive with nothing in front of it. -/
theorem records?_eq_some {data tail rest rest' : Bytes} {place : Nat} {e : EndRecord}
    {records : List CentralRecord}
    (hlast : lastEnd none (data.length - (endLength + 65535))
      (data.drop (data.length - (endLength + 65535))) = some (place, tail))
    (hend : readEnd.run tail = some (e, rest)) (hdisk : e.disk = e.directoryDisk)
    (hplace : place = e.directorySize + e.directoryOffset)
    (hrecords : (readRecords 0 [] e.count).run (data.drop e.directoryOffset) =
      some (records, rest')) : records? data = some records := by
  have hstart : place - e.directorySize - e.directoryOffset = 0 := by omega
  have hpassed : ∀ (p : Prop) [Decidable p], p → (guard p : Option Unit) = some () :=
    fun _ _ h => if_pos h
  unfold records?
  dsimp only
  rw [hlast, Option.bind_eq_bind, Option.bind_some]
  dsimp only
  rw [hend, Option.bind_eq_bind, Option.bind_some]
  dsimp only
  rw [hstart, Nat.zero_add, hrecords, hpassed _ hdisk, hpassed _ (Nat.le_of_eq hplace.symm)]
  rfl

/-- The records of a written archive. -/
theorem records?_write {entries : List ArchiveEntry} (h : Fits entries) :
    records? (write entries) = some (recordsFrom 0 entries) := by
  obtain ⟨hcount, hnames, hsize⟩ := h
  generalize hlocals : writeLocals entries = locals
  generalize hdirectory : writeDirectory 0 (entries.map pack) = directory
  generalize hend : writeEnd entries.length directory.length locals.length = tail
  have htail : tail.length = endLength := hend ▸ length_writeEnd _ _ _
  have hwrite : write entries = locals ++ directory ++ tail := by
    rw [write_eq, hlocals, hdirectory, hend]
  have hsizes : (write entries).length = locals.length + directory.length + endLength := by
    rw [hwrite, List.length_append, List.length_append, htail]
  -- The record at the end is found wherever the search starts in front of it.
  have hlast : ∀ searched ≤ directory.length + locals.length,
      lastEnd none searched ((write entries).drop searched) =
        some (directory.length + locals.length, tail) := by
    intro searched hsearched
    have hfront : searched ≤ (locals ++ directory).length := by
      rw [List.length_append]
      omega
    have hplace : searched + ((locals ++ directory).drop searched).length =
        directory.length + locals.length := by
      rw [List.length_drop, List.length_append]
      omega
    rw [hwrite, List.drop_append_of_le_length hfront,
      lastEnd_append _ _ (hend ▸ isPrefixOf_writeEnd _ _ _) htail, hplace]
  have hreadEnd := @reads_readEnd entries.length directory.length locals.length hcount (by omega)
    (by omega) []
  rw [hend, List.append_nil] at hreadEnd
  have hrecords := @reads_readRecords entries 0 [] hnames (by rw [hlocals]; omega) tail
  have hdrop : (write entries).drop locals.length = directory ++ tail := by
    rw [hwrite, List.append_assoc, List.drop_left]
  rw [hdirectory, ← hdrop] at hrecords
  exact records?_eq_some (hlast _ (by omega)) hreadEnd rfl rfl hrecords

/-! ## Entries -/

theorem methodOf?_code (c : Compression) : methodOf? c.code = some c := by
  cases c <;> rfl

theorem content?_eq_some {data rest : Bytes} {r : CentralRecord} {c : Compression}
    (hplain : r.isEncrypted = false) (hlocal : readLocal.run (data.drop r.offset) = some ((), rest))
    (hmethod : methodOf? r.method = some c) : r.content? data = some (c, rest.take r.size) := by
  unfold CentralRecord.content?
  rw [hplain, hlocal, hmethod]
  rfl

/-- An entry is read back from where it was written. -/
theorem entry_recordOf {e : ArchiveEntry} (front back : Bytes)
    (hname : (Text.Utf8.encode e.name).length < 0x10000) :
    (recordOf e front.length).entry (front ++ (writeLocal (pack e) ++ back)) = .ok e.written := by
  have hlocal : readLocal.run ((front ++ (writeLocal (pack e) ++ back)).drop front.length) =
      some ((), (pack e).content ++ back) := by
    rw [List.drop_left]
    unfold writeLocal
    rw [List.append_assoc]
    exact reads_readLocal hname _
  have hcontent : (recordOf e front.length).content? (front ++ (writeLocal (pack e) ++ back)) =
      some (methodOf e, (pack e).content) := by
    rw [@content?_eq_some _ _ (recordOf e front.length) _ rfl hlocal (methodOf?_code _)]
    exact congrArg (fun content => some (methodOf e, content)) List.take_left
  unfold CentralRecord.entry
  rw [hcontent]
  dsimp only
  rw [content_pack, Compression.decode_encode]
  exact if_pos rfl

theorem mapM_entry {entries : List ArchiveEntry} (front back : Bytes)
    (hnames : ∀ e ∈ entries, (Text.Utf8.encode e.name).length < 0x10000) :
    (recordsFrom front.length entries).mapM (·.entry (front ++ (writeLocals entries ++ back))) =
      .ok (entries.map ArchiveEntry.written) := by
  induction entries generalizing front with
  | nil => rfl
  | cons e rest ih =>
    obtain ⟨hname, hnames⟩ := List.forall_mem_cons.1 hnames
    have hrest := ih (front ++ writeLocal (pack e)) hnames
    rw [List.length_append, List.append_assoc] at hrest
    rw [writeLocals_cons, List.append_assoc, recordsFrom, List.mapM_cons,
      entry_recordOf front _ hname, hrest]
    rfl

theorem read_eq {data : Bytes} {records? : Option (List CentralRecord)}
    (h : Archive.records? data = records?) :
    read data = records?.elim (.error .layout) fun records => records.mapM (·.entry data) := by
  -- The definition is opened before it is applied: the search for the end record would be evaluated
  -- step by step, as far back as a comment can reach.
  have hopened : ∀ f, f = read →
      f data = records?.elim (.error .layout) fun records => records.mapM (·.entry data) := by
    intro f hf
    delta read at hf
    rw [hf]
    dsimp only
    rw [h]
    cases records? <;> rfl
  exact hopened read rfl

/-- What is read of a written archive. -/
theorem read_written {entries : List ArchiveEntry} (h : Fits entries) :
    read (write entries) = .ok (entries.map ArchiveEntry.written) := by
  have hentries := mapM_entry [] (writeDirectory 0 (entries.map pack) ++
    writeEnd entries.length (writeDirectory 0 (entries.map pack)).length
      (writeLocals entries).length) h.names
  rw [List.length_nil, List.nil_append, ← List.append_assoc, ← write_eq] at hentries
  exact (read_eq (records?_write h)).trans hentries

end Archive

end EntityLoom
