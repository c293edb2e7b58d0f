import EntityLoom.Proofs.Pool.Codec

/-!
# Reading back a class file

`ClassFile.parse_toBytes` reads back a class whose counts and lengths fit their fields.  The converse
is `ClassFile.fits_of_parse`: a class that was read fits, if writing it gives the bytes back.  Data
with a long or double across the end of a full pool is read, but written with another count.
-/

namespace EntityLoom

open Reader (Reads Yields reads_word16 reads_word32 yields_any)

namespace ClassFile

/-- The tables of a class fit their fields. -/
structure TablesFit (c : ClassFile) : Prop where
  interfaces : c.interfaces.length < 0x10000
  fields : c.fields.length < 0x10000 ∧ ∀ f ∈ c.fields, f.Fits
  methods : c.methods.length < 0x10000 ∧ ∀ m ∈ c.methods, m.Fits
  attributes : c.attributes.length < 0x10000 ∧ ∀ a ∈ c.attributes, a.Fits

/-- The counts and lengths of a class fit their fields. -/
structure Fits (c : ClassFile) : Prop extends TablesFit c where
  built : c.pool.Built
  texts : c.pool.Fits
  slots : c.pool.count ≤ Pool.maxCount

theorem reads_members {ms : List Member} (h : ms.length < 0x10000 ∧ ∀ m ∈ ms, m.Fits) :
    Reads (Reader.counted Member.read) (Bytes.ofTable Member.toBytes ms) ms :=
  Reader.reads_counted h.1 fun m hm => Member.reads (h.2 m hm)

theorem reads_attributes {as : List Attribute} (h : as.length < 0x10000 ∧ ∀ a ∈ as, a.Fits) :
    Reads (Reader.counted Attribute.read) (Bytes.ofTable Attribute.toBytes as) as :=
  Reader.reads_counted h.1 fun a ha => Attribute.reads (h.2 a ha)

/-- A class whose counts and lengths fit is read back. -/
theorem reads {c : ClassFile} (h : c.Fits) : Reads read c.toBytes c := by
  unfold read toBytes
  refine (reads_word32 magic).bind ?_
  simp only [↓reduceIte]
  refine (reads_word16 _).bind ((reads_word16 _).bind ?_)
  refine (Pool.reads h.built h.texts h.slots).bind ?_
  refine (reads_word16 _).bind ((reads_word16 _).bind ((reads_word16 _).bind ?_))
  refine (Reader.reads_counted h.interfaces fun i _ => reads_word16 i).bind ?_
  refine (reads_members h.fields).bind ((reads_members h.methods).bind ?_)
  exact (reads_attributes h.attributes).map

/-- Writing and reading back gives the class. -/
theorem parse_toBytes {c : ClassFile} (h : c.Fits) : parse c.toBytes = .ok c := by
  have hread := reads h 0 []
  rw [List.append_nil] at hread
  unfold parse Cursor.start
  rw [hread]
  rfl

/-! ## What was read fits -/

/-- A reader that takes known bytes leaves the rest to what follows it. -/
theorem run_of_reads {α β : Type} {r : Reader α} {k : α → Reader β} {bs rest : Bytes} {a : α}
    {offset : Nat} {x : β × Cursor} (h : Reads r bs a)
    (hrun : (r >>= k).run ⟨offset, bs ++ rest⟩ = .ok x) :
    (k a).run ⟨offset + bs.length, rest⟩ = .ok x := by
  obtain ⟨a', s', hr, hk⟩ := run_bind_eq_ok.1 hrun
  rw [h offset rest] at hr
  cases hr
  exact hk

/-- A pool that is written with the count that it was read by is not too large. -/
theorem count_le_of_reads {p : Pool} {tail : Bytes} {offset : Nat} {s : Cursor}
    (h : Pool.read.run ⟨offset, p.toBytes ++ tail⟩ = .ok (p, s)) : p.count ≤ Pool.maxCount := by
  unfold Pool.read at h
  rw [Pool.toBytes_eq, List.append_assoc] at h
  have hrest := run_of_reads (reads_word16 _) h
  have hread := Pool.yields_constants (UInt16.toNat_lt _) (Pool.readUpTo_empty _) hrest
  have hcount := hread.count_le
  rw [UInt16.toNat_ofNat'] at hcount
  unfold Pool.maxCount
  omega

theorem run_of_parse {data : Bytes} {c : ClassFile} (h : parse data = .ok c) :
    ∃ offset, read.run ⟨0, data⟩ = .ok (c, ⟨offset, []⟩) := by
  unfold parse Cursor.start at h
  split at h
  · cases h
  · next c' e hrun =>
    obtain ⟨offset, rest⟩ := e
    split at h
    · next hrest =>
      cases h
      exact ⟨offset, hrest ▸ hrun⟩
    · cases h

/-- The tables behind the pool have the counts that they are read by. -/
theorem yields_tables {p : Pool} {minor major : UInt16} :
    Yields (do
      let access ← Reader.word16
      let thisClass ← Reader.word16
      let superClass ← Reader.word16
      let interfaces ← Reader.counted Reader.word16
      let fields ← Reader.counted Member.read
      let methods ← Reader.counted Member.read
      let attributes ← Reader.counted Attribute.read
      return (⟨minor, major, p, access, thisClass, superClass, interfaces, fields, methods,
        attributes⟩ : ClassFile)) fun c => c.pool = p ∧ c.TablesFit := by
  refine (yields_any _).bind fun access _ => (yields_any _).bind fun this _ => ?_
  refine (yields_any _).bind fun super _ => ?_
  refine (Reader.yields_counted (yields_any _)).bind fun interfaces hi => ?_
  refine (Reader.yields_counted Member.yields_fits).bind fun fields hf => ?_
  refine (Reader.yields_counted Member.yields_fits).bind fun methods hm => ?_
  refine (Reader.yields_counted Attribute.yields_fits).bind fun attributes ha => .pure ?_
  exact ⟨rfl, hi.1, hf, hm, ha⟩

/-- The pool of a class that was read is filled by appending, and its tables fit their fields. -/
theorem shape_of_parse {data : Bytes} {c : ClassFile} (h : parse data = .ok c) :
    (∃ n : UInt16, c.pool.ReadUpTo n.toNat) ∧ c.TablesFit := by
  obtain ⟨e, hrun⟩ := run_of_parse h
  refine Yields.mono (r := read)
    (P := fun d => (∃ n : UInt16, d.pool.ReadUpTo n.toNat) ∧ d.TablesFit) ?_ (fun _ hd => hd) hrun
  refine (yields_any _).bind fun found _ => ?_
  split
  · refine (yields_any _).bind fun minor _ => (yields_any _).bind fun major _ => ?_
    refine Pool.yields_built.bind fun p hp => ?_
    exact yields_tables.mono fun d hd => ⟨hd.1 ▸ hp, hd.2⟩
  · exact (Yields.throw (fun _ => False) _).bind fun _ hf => hf.elim

theorem readUpTo_of_parse {data : Bytes} {c : ClassFile} (h : parse data = .ok c) :
    ∃ n : UInt16, c.pool.ReadUpTo n.toNat := (shape_of_parse h).1

/-- A class that was read fits its fields, if its pool is not too large. -/
theorem fits_of_count_le {data : Bytes} {c : ClassFile} (h : parse data = .ok c)
    (hcount : c.pool.count ≤ Pool.maxCount) : c.Fits := by
  obtain ⟨⟨n, hn⟩, htables⟩ := shape_of_parse h
  exact ⟨htables, hn.built, hn.fits, hcount⟩

/-- A class that was read from data which writing it gives back fits its fields. -/
theorem fits_of_parse {data : Bytes} {c : ClassFile} (h : parse data = .ok c)
    (hdata : c.toBytes = data) : c.Fits := by
  refine fits_of_count_le h ?_
  obtain ⟨e, hrun⟩ := run_of_parse h
  rw [← hdata] at hrun
  unfold read toBytes at hrun
  have hrun := run_of_reads (reads_word32 magic) hrun
  simp only [↓reduceIte] at hrun
  have hrun := run_of_reads (reads_word16 _) hrun
  have hrun := run_of_reads (reads_word16 _) hrun
  obtain ⟨p, s, hpool, htail⟩ := run_bind_eq_ok.1 hrun
  obtain ⟨hsame, -⟩ := yields_tables htail
  rw [hsame]
  exact count_le_of_reads (hsame ▸ hpool)

end ClassFile

end EntityLoom
