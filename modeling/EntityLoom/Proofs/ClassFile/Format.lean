import EntityLoom.Proofs.ClassFile.RoundTrip
import EntityLoom.Proofs.Pool.WellFormed

/-!
# Classes within the format

`ClassFile.reads_back` says that a class whose tables fit the fields of the format and whose pool is
well formed is read back from its written form, all of it, with its pool and the table of its pool.
-/

namespace EntityLoom

namespace ClassFile

/-- The limits of the format: the tables fit their fields, and so do the texts of a well-formed
pool. -/
structure InFormat (c : ClassFile) : Prop extends TablesFit c where
  pool : c.pool.WellFormed
  slots : c.pool.count ≤ Pool.maxCount
  texts : c.pool.Fits

theorem InFormat.fits {c : ClassFile} (h : c.InFormat) : c.Fits :=
  ⟨h.toTablesFit, (Pool.wellFormed_iff_built h.slots).1 h.pool, h.texts, h.slots⟩

/-- Reading the written form of a class takes all of it and gives the class. -/
theorem reads_back {c : ClassFile} (h : c.InFormat) :
    read.run (.start c.toBytes) = .ok (c, ⟨c.toBytes.length, []⟩) ∧ parse c.toBytes = .ok c := by
  have hread := reads h.fits 0 []
  rw [List.append_nil, Nat.zero_add] at hread
  exact ⟨hread, parse_toBytes h.fits⟩

end ClassFile

namespace Sample

/-- A class whose pool holds a text twice and ends with a long. -/
def duplicated : ClassFile :=
  { minor := 0, major := 52, access := Access.publicFlag, thisClass := 4, superClass := 0
    pool := Pool.empty.appendAll
      [.utf8 [0x41], .utf8 [0x41], .integer 7, .classRef 2, .double 0, .long 7]
    interfaces := [4]
    fields := [⟨Access.publicFlag, 1, 2, [⟨1, [0, 3]⟩]⟩]
    methods := []
    attributes := [⟨2, []⟩] }

end Sample

/-- A text that a pool holds twice stays in both slots. -/
theorem ClassFile.reads_back_duplicated :
    parse Sample.duplicated.toBytes = .ok Sample.duplicated ∧
      Sample.duplicated.pool.get? 1 = Sample.duplicated.pool.get? 2 := by
  have hslots : Sample.duplicated.pool.count ≤ Pool.maxCount := by decide
  have hformat : Sample.duplicated.InFormat :=
    { interfaces := by decide
      fields := ⟨by decide, by
        intro f hf
        obtain rfl := List.mem_singleton.1 hf
        exact ⟨by decide, by simp [Attribute.Fits]⟩⟩
      methods := ⟨by decide, nofun⟩
      attributes := ⟨by decide, by simp [Sample.duplicated, Attribute.Fits]⟩
      pool := (Pool.built_appendAll .empty hslots).wellFormed
      slots := hslots
      texts := by decide }
  exact ⟨(reads_back hformat).2, by decide⟩

end EntityLoom
