import EntityLoom.Proofs.ClassFile.Readers
import EntityLoom.Proofs.Frame.StackMap

/-!
# Reading stack maps

A stack map is read by the rules of the virtual machine: an entry says how far it lies behind the one
before, and what it does not say of the locals it takes over from there.  All kinds of entries are
read, also those that are never written.

`StackMap.read_write` says that the frames of a stack map that was written are read back, each once
and in order, exactly if the map can say them: counts are 16 bit numbers and are written modulo
`2 ^ 16`.  The frames of a body that passed the analysis are never that large.

The steps are stated by `Reader.ReadsIff`, which goes both ways: under a condition the bytes are a
written form of a value, and wherever they are read as that value the condition holds.
-/

namespace EntityLoom

open Interning (Interns)
open Reader (Reads Yields reads_byte reads_word16 yields_any)

/-! ## Readers -/

namespace Reader

variable {α β : Type}

/-- Refuses the bytes that are left. -/
def refuse : Reader α := fun c => .error (.trailingBytes c.rest.length)

/-- Under the condition the reader takes the bytes off the front of any data and answers the value,
and wherever it answers the value the condition holds. -/
structure ReadsIff (r : Reader α) (bs : Bytes) (a : α) (P : Prop) : Prop where
  reads : P → Reads r bs a
  holds : ∀ {offset rest c}, r.run ⟨offset, bs ++ rest⟩ = .ok (a, c) → P

theorem ReadsIff.holds_start {r : Reader α} {bs : Bytes} {a : α} {P : Prop} {c : Cursor}
    (h : ReadsIff r bs a P) (hrun : r.run (.start bs) = .ok (a, c)) : P := by
  refine @h.holds 0 [] c ?_
  rw [List.append_nil]
  exact hrun

theorem ReadsIff.of_reads {r : Reader α} {bs : Bytes} {a : α} {P : Prop} (hP : P)
    (h : Reads r bs a) : ReadsIff r bs a P :=
  ⟨fun _ => h, fun _ => hP⟩

/-- A value in front of a list. -/
theorem ReadsIff.cons {r : Reader α} {k : α → Reader (List α)} {bs cs : Bytes} {a : α}
    {as : List α} {P Q : Prop} (h : ReadsIff r bs a P) (hk : ReadsIff (k a) cs as Q) :
    ReadsIff (do let x ← r; let xs ← k x; return x :: xs) (bs ++ cs) (a :: as) (P ∧ Q) := by
  refine ⟨fun ⟨hP, hQ⟩ => (h.reads hP).bind (hk.reads hQ).map, fun {offset rest c} hrun => ?_⟩
  obtain ⟨x, c₁, hx, hrun⟩ := run_bind_eq_ok.1 hrun
  obtain ⟨xs, c₂, hxs, hrun⟩ := run_bind_eq_ok.1 hrun
  obtain ⟨rfl, rfl⟩ := List.cons.inj (run_pure_eq_ok.1 hrun).1
  rw [List.append_assoc] at hx
  have hP := h.holds hx
  -- The first part is taken whole, so what is read behind it is the second part.
  obtain ⟨-, rfl⟩ := Prod.mk.inj (Except.ok.inj (hx.symm.trans (h.reads hP _ _)))
  exact ⟨hP, hk.holds hxs⟩

/-- A step after which nothing more is taken. -/
theorem Reads.bind_nil {r : Reader α} {k : α → Reader β} {bs : Bytes} {a : α} {b : β}
    (h : Reads r bs a) (hk : Reads (k a) [] b) : Reads (r >>= k) bs b := by
  have hbind := h.bind hk
  rwa [List.append_nil] at hbind

theorem Reads.lift {x : Except FormatError α} {a : α} (h : x = .ok a) :
    Reads (liftM x) [] a := by
  intro offset rest
  exact run_lift_eq_ok.2 ⟨h, rfl⟩

/-- Items that were written one by one are read back. -/
theorem reads_repeated_parts {item : Reader α} {xs : List α} {parts : List Bytes} (acc : List α)
    (h : List.Forall₂ (fun x bs => Reads item bs x) xs parts) :
    Reads (repeated item acc xs.length) parts.flatten (acc.reverse ++ xs) := by
  induction h generalizing acc with
  | nil =>
    rw [List.append_nil]
    exact .pure acc.reverse
  | @cons x bs xs parts hx _ ih =>
    have hrest := ih (x :: acc)
    rw [List.reverse_cons, List.append_assoc, List.singleton_append] at hrest
    exact hx.bind hrest

/-- A table of such items is read back if its count fits. -/
theorem reads_counted_parts {item : Reader α} {xs : List α} {parts : List Bytes}
    (hlen : xs.length < 0x10000) (h : List.Forall₂ (fun x bs => Reads item bs x) xs parts) :
    Reads (counted item) (Bytes.ofLength16 xs.length ++ parts.flatten) xs := by
  refine (reads_word16 _).bind ?_
  rw [Bytes.toNat_length16 hlen]
  exact reads_repeated_parts [] h

end Reader

open Reader (ReadsIff)

/-! ## Verification types -/

namespace VerificationType

/-- Reads what follows the tag of a verification type; a class is named by a slot of the pool. -/
def readOf (pool : Pool) : UInt8 → Reader VerificationType
  | 0 => return top
  | 1 => return integer
  | 2 => return float
  | 3 => return double
  | 4 => return long
  | 5 => return null
  | 6 => return uninitializedThis
  | 7 => do
    let slot ← Reader.word16
    let name ← pool.classNameAt slot
    return object name
  | 8 => do
    let offset ← Reader.word16
    return uninitialized offset
  | _ => Reader.refuse

/-- Reads a verification type. -/
def read (pool : Pool) : Reader VerificationType := do
  readOf pool (← Reader.byte)

/-- A verification type is read back in every pool that extends the one it was written for. -/
theorem write_reads (v : VerificationType) : Interns v.write fun q bs => Reads (read q) bs v := by
  cases v with
  | object name =>
    refine (Interning.classRef_interns name).bind fun i => .pure fun q hname => ?_
    refine (reads_byte 7).bind ((reads_word16 i).bind_nil ?_)
    exact (Reads.lift hname).map
  | uninitialized offset => exact .pure fun q => (reads_byte 8).bind (reads_word16 offset).map
  | top => exact .pure fun q => (reads_byte 0).bind (.pure _)
  | integer => exact .pure fun q => (reads_byte 1).bind (.pure _)
  | float => exact .pure fun q => (reads_byte 2).bind (.pure _)
  | double => exact .pure fun q => (reads_byte 3).bind (.pure _)
  | long => exact .pure fun q => (reads_byte 4).bind (.pure _)
  | null => exact .pure fun q => (reads_byte 5).bind (.pure _)
  | uninitializedThis => exact .pure fun q => (reads_byte 6).bind (.pure _)

end VerificationType

namespace StackMap

theorem writeTypes_reads (vs : List VerificationType) :
    Interns (writeTypes vs) fun q bs => vs.length < 0x10000 →
      Reads (Reader.counted (VerificationType.read q)) bs vs :=
  (Interns.mapM VerificationType.write_reads vs).bind fun _ => .pure fun _ hparts hlen =>
    Reader.reads_counted_parts hlen hparts

/-! ## Entries -/

/-- What an entry says: the offset it is for, the locals without the second slots of wide values, and
the stack, topmost value first. -/
structure Entry where
  offset : Nat
  locals : List VerificationType
  stack : List VerificationType
  deriving DecidableEq, Repr

/-- What an entry should say of a frame at an offset. -/
def Entry.ofFrame (t : Nat × Frame) : Entry :=
  ⟨t.1, t.2.encodedLocals, t.2.stack⟩

variable {pool : Pool} {next : Nat} {previous locals stack : List VerificationType}

/-- Reads what follows the distance in an entry of a kind from 247 on. -/
def readExtended (pool : Pool) (offset : Nat) (previous : List VerificationType) (kind : Nat) :
    Reader Entry :=
  if kind = 247 then do
    let v ← VerificationType.read pool
    return ⟨offset, previous, [v]⟩
  else if kind ≤ 250 then
    -- The last locals are gone: one for 250, three for 248.
    return ⟨offset, previous.take (previous.length - (251 - kind)), []⟩
  else if kind = 251 then return ⟨offset, previous, []⟩
  else if kind ≤ 254 then do
    let more ← Reader.repeated (VerificationType.read pool) [] (kind - 251)
    return ⟨offset, previous ++ more, []⟩
  else do
    let locals ← Reader.counted (VerificationType.read pool)
    let stack ← Reader.counted (VerificationType.read pool)
    return ⟨offset, locals, stack.reverse⟩

/-- Reads what follows the first byte of an entry.  `next` is the first offset behind the entry
before, and `previous` holds the locals there. -/
def readEntryOf (pool : Pool) (next : Nat) (previous : List VerificationType) (kind : Nat) :
    Reader Entry :=
  if kind ≤ 63 then return ⟨next + kind, previous, []⟩
  else if kind ≤ 127 then do
    let v ← VerificationType.read pool
    return ⟨next + (kind - 64), previous, [v]⟩
  else if kind < 247 then Reader.refuse
  else do
    let distance ← Reader.word16
    readExtended pool (next + distance.toNat) previous kind

/-- Reads an entry. -/
def readEntry (pool : Pool) (next : Nat) (previous : List VerificationType) : Reader Entry := do
  let kind ← Reader.byte
  readEntryOf pool next previous kind.toNat

/-- Reads so many entries, each behind the one before. -/
def readEntries (pool : Pool) (next : Nat) (previous : List VerificationType) :
    Nat → Reader (List Entry)
  | 0 => return []
  | n + 1 => do
    let e ← readEntry pool next previous
    let es ← readEntries pool (e.offset + 1) e.locals n
    return e :: es

/-- Reads the content of a stack map attribute in a method with the given entry frame. -/
def read (pool : Pool) (entry : Frame) : Reader (List Entry) := do
  let count ← Reader.word16
  readEntries pool 0 entry.encodedLocals count.toNat

/-! ## What entries can say -/

/-- A frame that an entry can say: it has the locals of the entry before and at most one value on the
stack, or its locals and its stack can be counted in 16 bits. -/
def EntryFits (previous : List VerificationType) (f : Frame) : Prop :=
  f.encodedLocals = previous ∧ f.stack.length ≤ 1 ∨
    f.encodedLocals.length < 0x10000 ∧ f.stack.length < 0x10000

/-- Frames that entries can say one behind the other. -/
def EntriesFit (previous : List VerificationType) : List (Nat × Frame) → Prop
  | [] => True
  | (_, f) :: rest => EntryFits previous f ∧ EntriesFit f.encodedLocals rest

/-- Frames that a stack map can say. -/
structure Representable (entry : Frame) (targets : List (Nat × Frame)) : Prop where
  count : targets.length < 0x10000
  entries : EntriesFit entry.encodedLocals targets

/-- Frames that are not too large can be said, whatever came before. -/
theorem entriesFit_of_small {targets : List (Nat × Frame)} (previous : List VerificationType)
    (h : ∀ t ∈ targets, t.2.locals.length < 0x10000 ∧ t.2.stack.length < 0x10000) :
    EntriesFit previous targets := by
  induction targets generalizing previous with
  | nil => trivial
  | cons t rest ih =>
    obtain ⟨ht, hrest⟩ := List.forall_mem_cons.1 h
    have hlocals := Nat.lt_of_le_of_lt (Frame.length_encodedLocals_le t.2) ht.1
    exact ⟨.inr ⟨hlocals, ht.2⟩, ih _ hrest⟩

/-! ## Reading entries back -/

/-- The two forms of an entry without a distance of its own: a byte for a short distance, or a kind
and the distance behind it. -/
theorem reads_distance {distance base kind : Nat} {e : Entry} {bs : Bytes}
    (hdistance : distance < 0x10000) (hbase : base ≤ 64) (hkind : kind < 256)
    (hshort : distance ≤ shortDistance →
      Reads (readEntryOf pool next previous (base + distance)) bs e)
    (hlong : Reads (do
      let d ← Reader.word16
      readExtended pool (next + d.toNat) previous kind) (Bytes.ofLength16 distance ++ bs) e)
    (hextended : 247 ≤ kind) :
    Reads (readEntry pool next previous)
      ((if distance ≤ shortDistance then [UInt8.ofNat (base + distance)]
        else UInt8.ofNat kind :: Bytes.ofLength16 distance) ++ bs) e := by
  unfold readEntry
  split
  · next hle =>
    refine (reads_byte _).bind ?_
    unfold shortDistance at hle
    rw [Bytes.toNat_byte (by omega)]
    exact hshort hle
  · refine (reads_byte _).bind ?_
    rw [Bytes.toNat_byte hkind]
    unfold readEntryOf
    rw [if_neg (by omega), if_neg (by omega), if_neg (by omega)]
    exact hlong

theorem reads_extended {distance kind : Nat} {e : Entry} {bs : Bytes}
    (hdistance : distance < 0x10000)
    (h : Reads (readExtended pool (next + distance) previous kind) bs e) :
    Reads (do
      let d ← Reader.word16
      readExtended pool (next + d.toNat) previous kind) (Bytes.ofLength16 distance ++ bs) e := by
  refine (reads_word16 _).bind ?_
  rw [Bytes.toNat_length16 hdistance]
  exact h

/-- An entry that says its locals and its stack says them in 16 bit counts. -/
theorem yields_full (offset : Nat) : Yields (readExtended pool offset previous 255) fun e =>
    e.locals.length < 0x10000 ∧ e.stack.length < 0x10000 := by
  unfold readExtended
  refine (Reader.yields_counted (yields_any _)).bind fun locals hlocals => ?_
  refine (Reader.yields_counted (yields_any _)).bind fun stack hstack => .pure ⟨hlocals.1, ?_⟩
  rw [List.length_reverse]
  exact hstack.1

/-- An entry with all its locals and its stack is read back exactly if they can be counted. -/
theorem readsIff_full {distance : Nat} (hdistance : distance < 0x10000) {ls ss : Bytes}
    (hls : locals.length < 0x10000 → Reads (Reader.counted (VerificationType.read pool)) ls locals)
    (hss : stack.length < 0x10000 →
      Reads (Reader.counted (VerificationType.read pool)) ss stack.reverse) :
    ReadsIff (readEntry pool next previous) (255 :: (Bytes.ofLength16 distance ++ ls ++ ss))
      ⟨next + distance, locals, stack⟩
      (locals.length < 0x10000 ∧ stack.length < 0x10000) := by
  constructor
  · rintro ⟨hlocals, hstack⟩
    rw [List.append_assoc]
    refine (reads_byte 255).bind (reads_extended hdistance ?_)
    refine (hls hlocals).bind ?_
    have hread := (hss hstack).map (g := fun s : List VerificationType =>
      (⟨next + distance, locals, s.reverse⟩ : Entry))
    rwa [List.reverse_reverse] at hread
  · intro offset rest c hrun
    obtain ⟨kind, c₁, hkind, hrun⟩ := run_bind_eq_ok.1 hrun
    obtain ⟨rfl, rfl⟩ := Prod.mk.inj (Except.ok.inj hkind)
    obtain ⟨d, c₂, -, hrun⟩ := run_bind_eq_ok.1 hrun
    exact yields_full _ hrun

/-- An entry is read back exactly if it can say its frame. -/
theorem writeEntry_reads {distance : Nat} (hdistance : distance < 0x10000) {f : Frame} :
    Interns (writeEntry distance (decide (f.encodedLocals = previous)) f.encodedLocals f.stack)
      fun q bs => ReadsIff (readEntry q next previous) bs ⟨next + distance, f.encodedLocals, f.stack⟩
        (EntryFits previous f) := by
  unfold writeEntry
  dsimp only
  split
  · next hsame hstack =>
    have hlocals := of_decide_eq_true hsame
    refine .pure fun q => .of_reads (.inl ⟨hlocals, by simp [hstack]⟩) ?_
    rw [hlocals, hstack]
    have hread := @reads_distance q next previous distance 0 251 ⟨next + distance, previous, []⟩ []
      hdistance (by omega) (by omega) (fun hle => ?_) (reads_extended hdistance (.pure _)) (by omega)
    · simpa using hread
    · unfold readEntryOf shortDistance at *
      rw [if_pos (by omega), Nat.zero_add]
      exact .pure _
  · next v hsame hstack =>
    have hlocals := of_decide_eq_true hsame
    refine (VerificationType.write_reads v).bind fun bs => .pure fun q hv => ?_
    refine .of_reads (.inl ⟨hlocals, by simp [hstack]⟩) ?_
    rw [hlocals, hstack]
    refine @reads_distance q next previous distance 64 247 _ _ hdistance (Nat.le_refl 64) (by omega)
      (fun hle => ?_) (reads_extended hdistance hv.map) (by omega)
    unfold readEntryOf shortDistance at *
    rw [if_neg (by omega), if_pos (by omega), Nat.add_sub_cancel_left]
    exact hv.map
  · next hnil hone =>
    refine (writeTypes_reads _).bind fun ls => (writeTypes_reads _).bind fun ss => ?_
    refine .pure fun q hss hls => ?_
    rw [List.length_reverse] at hss
    have hfull := @readsIff_full q next previous _ _ _ hdistance _ _ hls hss
    refine ⟨fun hfits => hfull.reads (hfits.resolve_left ?_), fun hrun => .inr (hfull.holds hrun)⟩
    rintro ⟨hlocals, hstack⟩
    match hf : f.stack, hstack with
    | [], _ => exact hnil (decide_eq_true hlocals) hf
    | [v], _ => exact hone v (decide_eq_true hlocals) hf

/-- Entries at increasing offsets are read back exactly if they can say their frames. -/
theorem writeEntries_reads (acc : List Bytes) {targets : List (Nat × Frame)}
    (hnext : ∀ t ∈ targets, next ≤ t.1) (hsorted : targets.Pairwise fun t u => t.1 < u.1) :
    Interns (writeEntries acc previous next targets) fun q entries =>
      ∃ parts, entries = acc.reverse ++ parts ∧
        ReadsIff (readEntries q next previous targets.length) parts.flatten
          (targets.map Entry.ofFrame) (EntriesFit previous targets) := by
  induction targets generalizing acc previous next with
  | nil => exact .pure fun q => ⟨[], (List.append_nil _).symm, .of_reads trivial (.pure [])⟩
  | cons t rest ih =>
    obtain ⟨offset, f⟩ := t
    obtain ⟨hfirst, hsorted⟩ := List.pairwise_cons.1 hsorted
    have hle : next ≤ offset := hnext _ List.mem_cons_self
    unfold writeEntries
    dsimp only
    split
    · next hdistance =>
      refine (@writeEntry_reads next previous _ hdistance f).bind fun bs => ?_
      refine (ih (bs :: acc) hfirst hsorted).mono ?_
      rintro q entries ⟨parts, rfl, hparts⟩ hbs
      rw [Nat.add_sub_cancel' hle] at hbs
      refine ⟨bs :: parts, by rw [List.reverse_cons, List.append_assoc, List.singleton_append], ?_⟩
      exact hbs.cons (k := fun e => readEntries q (e.offset + 1) e.locals rest.length) hparts
    · exact .throw_bind _ _ _

theorem yields_entries (n : Nat) : Yields (readEntries pool next previous n) fun es =>
    es.length = n := by
  induction n generalizing next previous with
  | zero => exact .pure rfl
  | succ n ih =>
    refine (yields_any _).bind fun e _ => ih.bind fun es hes => .pure ?_
    rw [List.length_cons, hes]

/-- A stack map is read back exactly if it can say its frames. -/
theorem write_reads (entry : Frame) {targets : List (Nat × Frame)}
    (hsorted : targets.Pairwise fun t u => t.1 < u.1) :
    Interns (write entry targets) fun q table =>
      ReadsIff (read q entry) table (targets.map Entry.ofFrame) (Representable entry targets) := by
  refine (writeEntries_reads [] (fun _ _ => Nat.zero_le _) hsorted).bind fun entries => ?_
  refine .pure fun q ⟨parts, hentries, hparts⟩ => ?_
  obtain rfl : entries = parts := hentries
  constructor
  · rintro ⟨hcount, hfits⟩
    refine (reads_word16 _).bind ?_
    rw [Bytes.toNat_length16 hcount]
    exact hparts.reads hfits
  · intro offset rest c hrun
    rw [List.append_assoc] at hrun
    obtain ⟨n, c₁, hn, hrun⟩ := run_bind_eq_ok.1 hrun
    obtain ⟨rfl, rfl⟩ := Prod.mk.inj (Except.ok.inj (hn.symm.trans (reads_word16 _ _ _)))
    have hcount : (targets.map Entry.ofFrame).length = _ := yields_entries _ hrun
    rw [List.length_map] at hcount
    have hlt : targets.length < 0x10000 := hcount ▸ (UInt16.ofNat targets.length).toNat_lt
    rw [← hcount] at hrun
    exact ⟨hlt, hparts.holds hrun⟩

/-- A stack map that was written for frames at increasing offsets is read, in the pool that it left,
as one entry for each of them, in order, with the offset, the locals as they are encoded and the
stack, exactly if its counts fit their fields: there are fewer than 65536 frames, and so many locals
and values on the stack in each entry that says both.  Then the reader takes the whole map. -/
theorem read_write {entry : Frame} {targets : List (Nat × Frame)} {p p' : Pool} {table : Bytes}
    (hp : p.Built) (hsorted : targets.Pairwise fun t u => t.1 < u.1)
    (h : Succeeds (write entry targets) p table p') :
    ((∃ c, (read p' entry).run (.start table) = .ok (targets.map Entry.ofFrame, c)) ↔
      Representable entry targets) ∧
    (Representable entry targets → Reads (read p' entry) table (targets.map Entry.ofFrame)) := by
  have hread := (write_reads entry hsorted hp h).2 p' .refl
  refine ⟨⟨fun ⟨c, hc⟩ => ?_, fun hfits => ?_⟩, hread.reads⟩
  · exact hread.holds_start hc
  · have hrun := hread.reads hfits 0 []
    rw [List.append_nil] at hrun
    exact ⟨_, hrun⟩

/-- A method on an `A`, with a jump to where an int is in a local variable, too. -/
theorem read_write_grown :
    ∃ table p', Succeeds (write ⟨[.object "A"], []⟩
        [(5, ⟨[.object "A"], []⟩), (9, ⟨[.object "A", .integer], []⟩)]) .empty table p' ∧
      ∃ c, (read p' ⟨[.object "A"], []⟩).run (.start table) =
        .ok ([⟨5, [.object "A"], []⟩, ⟨9, [.object "A", .integer], []⟩], c) := by
  obtain ⟨table, p', h⟩ := exists_succeeds (x := write ⟨[.object "A"], []⟩
    [(5, ⟨[.object "A"], []⟩), (9, ⟨[.object "A", .integer], []⟩)]) (s := .empty) (by decide +kernel)
  have hread := (read_write .empty (by decide) h).1.2 ⟨by decide, entriesFit_of_small _ (by decide)⟩
  have hlocals : Frame.encodedLocals ⟨[.object "A"], []⟩ = [.object "A"] := by decide +kernel
  have hgrown : Frame.encodedLocals ⟨[.object "A", .integer], []⟩ = [.object "A", .integer] := by
    decide +kernel
  simp only [List.map, Entry.ofFrame, hlocals, hgrown] at hread
  exact ⟨table, p', h, hread⟩

theorem encodedLocals_nil (stack : List VerificationType) :
    (⟨[], stack⟩ : Frame).encodedLocals = [] := by
  simp [Frame.encodedLocals, Frame.valuesReversed]

theorem succeeds_writeTypes_integers (n : Nat) (p : Pool) :
    ∃ bs, Succeeds (writeTypes (List.replicate n .integer)) p bs p := by
  have hparts : Succeeds ((List.replicate n VerificationType.integer).mapM VerificationType.write) p
      (List.replicate n [1]) p := by
    induction n with
    | zero => exact succeeds_pure.2 ⟨rfl, rfl⟩
    | succ n ih =>
      rw [List.replicate_succ, List.mapM_cons]
      refine succeeds_bind.2 ⟨[1], p, succeeds_pure.2 ⟨rfl, rfl⟩, ?_⟩
      exact succeeds_bind.2 ⟨_, p, ih, succeeds_pure.2 ⟨rfl, rfl⟩⟩
  exact ⟨_, succeeds_bind.2 ⟨_, p, hparts, succeeds_pure.2 ⟨rfl, rfl⟩⟩⟩

/-- A stack of ints is written however tall it is. -/
theorem succeeds_write_integers (n : Nat) (p : Pool) :
    ∃ table, Succeeds (write ⟨[], []⟩ [(0, ⟨[], List.replicate (n + 2) .integer⟩)]) p table p := by
  obtain ⟨ls, hls⟩ := succeeds_writeTypes_integers 0 p
  obtain ⟨ss, hss⟩ := succeeds_writeTypes_integers (n + 2) p
  have hentry : ∃ bs, Succeeds (writeEntry 0 true [] (List.replicate (n + 2) .integer)) p bs p := by
    rw [List.replicate_succ, List.replicate_succ]
    unfold writeEntry
    dsimp only
    rw [← List.replicate_succ, ← List.replicate_succ, List.reverse_replicate]
    exact ⟨_, succeeds_bind.2 ⟨ls, p, hls, succeeds_bind.2 ⟨ss, p, hss, succeeds_pure.2 ⟨rfl, rfl⟩⟩⟩⟩
  obtain ⟨bs, hbs⟩ := hentry
  have hentries : Succeeds (writeEntries [] [] 0 [(0, ⟨[], List.replicate (n + 2) .integer⟩)]) p
      [bs] p := by
    simp only [writeEntries, encodedLocals_nil, decide_true]
    exact succeeds_bind.2 ⟨bs, p, hbs, succeeds_pure.2 ⟨rfl, rfl⟩⟩
  unfold write
  rw [encodedLocals_nil]
  exact ⟨_, succeeds_bind.2 ⟨[bs], p, hentries, succeeds_pure.2 ⟨rfl, rfl⟩⟩⟩

/-- What is written for a stack of ints whose count takes more than 16 bits is not read as one. -/
theorem not_read_integers {n : Nat} (hn : 0x10000 ≤ n + 2) {p p' : Pool} {table : Bytes}
    (hp : p.Built)
    (h : Succeeds (write ⟨[], []⟩ [(0, ⟨[], List.replicate (n + 2) .integer⟩)]) p table p') :
    ¬∃ c, (read p' ⟨[], []⟩).run (.start table) =
      .ok ([⟨0, [], List.replicate (n + 2) .integer⟩], c) := by
  rintro ⟨c, hc⟩
  have hread := (write_reads ⟨[], []⟩ (List.pairwise_singleton _ _) hp h).2 p' .refl
  simp only [List.map, Entry.ofFrame, encodedLocals_nil] at hread
  obtain ⟨-, hfits, -⟩ := hread.holds_start hc
  simp only [EntryFits, List.length_replicate] at hfits
  omega

/-- A stack of 65536 ints is written, and what was written is not read as one: its count is 0. -/
theorem not_read_of_tall :
    ∃ table p', Succeeds (write ⟨[], []⟩ [(0, ⟨[], List.replicate 0x10000 .integer⟩)]) .empty
        table p' ∧
      ¬∃ c, (read p' ⟨[], []⟩).run (.start table) =
        .ok ([⟨0, [], List.replicate 0x10000 .integer⟩], c) := by
  obtain ⟨table, h⟩ := succeeds_write_integers 65534 .empty
  exact ⟨table, .empty, h, not_read_integers (by omega) .empty h⟩

end StackMap

end EntityLoom
