import EntityLoom.Code.Member
import EntityLoom.Proofs.ClassFile.Readers
import EntityLoom.Proofs.Code.Assembly

/-!
# Members that are made from declarations

Turning a declaration into a member extends the pool, and the member bears the declared flags, name
and descriptor in every later extension.  Its attributes fit their length fields: that is said for
fields with few annotations and for methods with a small stack map, which all synthesized ones are.
-/

namespace EntityLoom

open Interning (Interns)

/-- The member bears the given flags, name and descriptor. -/
structure Member.Declares (m : Member) (pool : Pool) (access : UInt16) (name descriptor : String) :
    Prop where
  access : m.access = access
  name : pool.utf8At m.name = .ok name
  descriptor : pool.utf8At m.descriptor = .ok descriptor

/-- A small body fits into a code attribute. -/
theorem CodeBody.toAttribute_interns {b : CodeBody} (h : b.Small) :
    Interns b.toAttribute fun _ a => a.Fits := by
  unfold toAttribute
  have hcode := h.code
  unfold Assembly.maxSize at hcode
  have hfits : ∀ (nested : Bytes) (name : UInt16), nested.length ≤ 2 ^ 31 + 10 →
      Attribute.Fits ⟨name, Bytes.ofWord16 b.maxStack ++ Bytes.ofWord16 b.maxLocals ++
        Bytes.ofLength32 b.code.length ++ b.code ++ Bytes.ofLength16 0 ++ nested⟩ := by
    intro nested name hnested
    simp only [Attribute.Fits, Bytes.ofLength16, Bytes.ofLength32, List.length_append,
      Bytes.length_ofWord16, Bytes.length_ofWord32]
    omega
  dsimp only
  split
  · next table htable =>
    have hlength := h.stackMap table htable
    refine (Interning.utf8_interns _).bind fun n => ?_
    rw [pure_bind]
    refine (Interning.utf8_interns _).bind fun name => .pure fun _ _ _ => hfits _ _ ?_
    simp only [Bytes.ofLength16, Bytes.ofLength32, List.length_append, Bytes.length_ofWord16,
      Bytes.length_ofWord32]
    omega
  · rw [pure_bind]
    refine (Interning.utf8_interns _).bind fun name => .pure fun _ _ => hfits _ _ ?_
    simp only [Bytes.ofLength16, Bytes.length_ofWord16]
    omega

theorem Member.fits_singleton {access name descriptor : UInt16} {a : Attribute} (h : a.Fits) :
    Member.Fits ⟨access, name, descriptor, [a]⟩ := by
  refine ⟨by simp, fun x hx => ?_⟩
  obtain rfl := List.mem_singleton.1 hx
  exact h

/-- The member made from a method bears its name and descriptor and fits its fields. -/
theorem MethodDecl.toMember_interns {m : MethodDecl} (hm : m.Small) (thisClass : String)
    (withFrames : Bool) :
    Interns (m.toMember thisClass withFrames) fun q r =>
      r.Declares q m.access m.name m.descriptor ∧ r.Fits := by
  unfold toMember
  intro p r p' hp hs
  obtain ⟨b, p₁, hb, hs⟩ := succeeds_bind.1 hs
  obtain ⟨hext, hsmall⟩ := assemble_interns hm thisClass withFrames hp hb
  have hrest : Interns (do
      let name ← Interning.utf8 m.name
      let descriptor ← Interning.utf8 m.descriptor
      let code ← b.toAttribute
      return (⟨m.access, name, descriptor, [code]⟩ : Member)) fun q r =>
        r.Declares q m.access m.name m.descriptor ∧ r.Fits := by
    refine (Interning.utf8_interns _).bind fun n => (Interning.utf8_interns _).bind fun d => ?_
    refine (CodeBody.toAttribute_interns (hsmall _ .refl)).bind fun a => .pure fun _ ha hd hn => ?_
    exact ⟨⟨rfl, hn, hd⟩, Member.fits_singleton ha⟩
  obtain ⟨hext', hr⟩ := hrest (hext.built hp) hs
  exact ⟨hext.trans hext', hr⟩

theorem FieldDecl.writeAnnotation_interns (type : String) :
    Interns ( writeAnnotation type) fun _ bs => bs.length ≤ 4 :=
  (Interning.utf8_interns type).bind fun _ => .pure fun _ _ => Nat.le_refl _

/-- The member made from a field bears its name and descriptor and fits its fields. -/
theorem FieldDecl.toMember_interns {f : FieldDecl} (hf : f.annotations.length ≤ 255) :
    Interns f.toMember fun q r => r.Declares q f.access f.name f.descriptor ∧ r.Fits := by
  unfold toMember
  dsimp only
  split
  · rw [pure_bind]
    refine (Interning.utf8_interns _).bind fun n => (Interning.utf8_interns _).bind fun d => ?_
    exact .pure fun _ hd hn => ⟨⟨rfl, hn, hd⟩, by simp, by simp⟩
  · refine (Interns.mapM writeAnnotation_interns _).bind fun parts => ?_
    refine (Interning.utf8_interns _).bind fun a => ?_
    rw [pure_bind]
    refine (Interning.utf8_interns _).bind fun n => (Interning.utf8_interns _).bind fun d => ?_
    refine .pure fun _ hd hn _ hparts => ⟨⟨rfl, hn, hd⟩, Member.fits_singleton ?_⟩
    have hflat : parts.flatten.length ≤ parts.length * 4 := by
      refine StackMap.length_flatten_le fun bs hbs => ?_
      obtain ⟨i, hi, rfl⟩ := List.mem_iff_getElem.1 hbs
      exact hparts.get (by rw [hparts.length_eq]; exact hi) hi
    have hlength := hparts.length_eq
    simp only [Attribute.Fits, Bytes.ofLength16, List.length_append, Bytes.length_ofWord16]
    omega

end EntityLoom
