import EntityLoom.Proofs.ClassFile.Readers
import EntityLoom.Proofs.Weaving.Extension
import EntityLoom.Weaving.Header

/-!
# The header of a woven class

`Header.apply_eq_ok` says what extending a header leaves: the interfaces at the end of the table, in
order, and at most one class attribute with another value.  That is the first signature attribute,
which then names the old signature followed by the added interfaces.  Attribute names are read in the
pool as it is when the interfaces were added; a name that lies in the pool of the class before reads
the same there (`Signed.of_inside`).
-/

namespace EntityLoom

/-! ## Names in a pool that grew -/

namespace Pool

variable {p q : Pool}

theorem get?_append (p : Pool) (c : Constant) (i : UInt16) :
    (p.append c).get? i = if i.toNat = p.count then some c else p.get? i := by
  rw [get?_eq, get?_eq, slots_append, count_eq]
  by_cases hlt : i.toNat < p.slots.toList.length
  · rw [List.getElem?_append_left hlt, if_neg (by omega)]
  · rw [List.getElem?_append_right (by omega)]
    split
    · next heq =>
      rw [heq, Nat.sub_self]
      rfl
    · next hne =>
      obtain ⟨k, hk⟩ : ∃ k, i.toNat - p.slots.toList.length = k + 1 :=
        ⟨i.toNat - p.slots.toList.length - 1, by omega⟩
      rw [hk, List.getElem?_eq_none (by omega : p.slots.toList.length ≤ i.toNat)]
      unfold slotsOf
      split <;> cases k <;> rfl

/-- Beyond its slots a pool holds nothing. -/
theorem get?_of_count_le {i : UInt16} (h : p.count ≤ i.toNat) : p.get? i = none := by
  rw [get?_eq, List.getElem?_eq_none (by rwa [← count_eq])]
  rfl

theorem utf8At_congr {i : UInt16} (h : q.get? i = p.get? i) : q.utf8At i = p.utf8At i := by
  unfold Pool.utf8At
  rw [h]

theorem holdsText_congr {i : UInt16} {t : String} (h : q.get? i = p.get? i) :
    q.holdsText i t = p.holdsText i t := by
  unfold Pool.holdsText
  rw [utf8At_congr h]

/-- What lies within a pool is the same in every extension. -/
theorem Extends.get?_of_lt (h : p.Extends q) {i : UInt16} (hi : i.toNat < p.count) :
    q.get? i = p.get? i := by
  obtain ⟨rest, hrest⟩ := h.slots_prefix
  rw [get?_eq, get?_eq, ← hrest, List.getElem?_append_left]
  rwa [← count_eq]

/-- A text that is appended is not read as another one. -/
theorem holdsText_append_of_ne {text t : String} (h : text ≠ t) (i : UInt16) :
    (p.append (.utf8 (Text.ModifiedUtf8.encode text))).holdsText i t = p.holdsText i t := by
  by_cases hi : i.toNat = p.count
  · have hnew : (p.append (.utf8 (Text.ModifiedUtf8.encode text))).utf8At i = .ok text := by
      refine utf8At_eq_ok.2 ⟨_, ?_, Text.ModifiedUtf8.decode_encode text⟩
      rw [get?_append, if_pos hi]
    have hold : p.utf8At i = .error (.badConstantRef i .utf8) := by
      unfold Pool.utf8At
      rw [get?_of_count_le (Nat.le_of_eq hi.symm)]
    unfold Pool.holdsText
    rw [hnew, hold]
    simpa using h
  · refine holdsText_congr ?_
    rw [get?_append, if_neg hi]

theorem findIdx?_holdsText_congr {as : List Attribute} {t : String}
    (h : ∀ a ∈ as, q.holdsText a.name t = p.holdsText a.name t) :
    as.findIdx? (fun a => q.holdsText a.name t) = as.findIdx? (fun a => p.holdsText a.name t) := by
  induction as with
  | nil => rfl
  | cons a as ih =>
    rw [List.findIdx?_cons, List.findIdx?_cons, h a List.mem_cons_self,
      ih fun b hb => h b (List.mem_cons_of_mem _ hb)]

/-- Attribute names that lie in a pool are found alike in every extension of it. -/
theorem findIdx?_holdsText_of_inside {as : List Attribute} (hext : p.Extends q)
    (h : ∀ a ∈ as, a.name.toNat < p.count) (t : String) :
    as.findIdx? (fun a => q.holdsText a.name t) = as.findIdx? (fun a => p.holdsText a.name t) :=
  findIdx?_holdsText_congr fun a ha => holdsText_congr (hext.get?_of_lt (h a ha))

end Pool

namespace Interning

/-- Interning a constant leaves the pool as it is or appends the constant. -/
theorem constant_eq_ok {c : Constant} {p p' : Pool} {i : UInt16} (h : Succeeds (constant c) p i p') :
    p' = p ∨ p' = p.append c := by
  unfold Succeeds constant at h
  simp only [ExceptT.run, StateT.run] at h
  split at h
  · exact .inl (Prod.mk.inj h).2.symm
  · split at h
    · cases h
    · exact .inr (Prod.mk.inj h).2.symm

/-- Interning a text makes no slot read as another text. -/
theorem holdsText_of_utf8 {text t : String} {p p' : Pool} {i : UInt16}
    (h : Succeeds (utf8 text) p i p') (ht : text ≠ t) (k : UInt16) :
    p'.holdsText k t = p.holdsText k t := by
  rcases constant_eq_ok h with rfl | rfl
  · rfl
  · exact Pool.holdsText_append_of_ne ht k

end Interning

/-! ## The signature attribute -/

namespace ClassFile

variable {c d : ClassFile}

theorem findAttribute?_congr {as : List Attribute} {name : String}
    (h : ∀ a ∈ as, d.pool.holdsText a.name name = c.pool.holdsText a.name name) :
    d.findAttribute? as name = c.findAttribute? as name :=
  Pool.findIdx?_holdsText_congr h

/-- The signature of a class is the text that the value of its first signature attribute names. -/
theorem signature_eq_ok {s : Option String} (h : c.signature = .ok s) :
    (s = none ∧ c.findAttribute? c.attributes Attribute.signatureName = none) ∨
      ∃ i a old text, s = some text ∧
        c.findAttribute? c.attributes Attribute.signatureName = some i ∧
        c.attributes[i]? = some a ∧ Reader.word16.onData a.info = .ok old ∧
        c.pool.utf8At old = .ok text := by
  unfold signature at h
  split at h
  · next hnone =>
    cases h
    refine .inl ⟨rfl, ?_⟩
    unfold findAttribute?
    rw [List.findIdx?_eq_none_iff]
    intro a ha
    have := List.find?_eq_none.1 hnone a ha
    simpa using this
  · next a hfound =>
    obtain ⟨old, hold, h⟩ := bind_eq_ok.1 h
    obtain ⟨text, htext, rfl⟩ := map_eq_ok.1 h
    rw [List.find?_eq_bind_findIdx?_getElem?, Option.bind_eq_some_iff] at hfound
    obtain ⟨i, hi, hget⟩ := hfound
    exact .inr ⟨i, a, old, text, rfl, hi, hget, hold, htext⟩

/-- A signature that is written into a class which has one takes its place. -/
theorem setSignature_eq_ok {text : String} {i : Nat} {u : Unit} (hc : c.pool.Built)
    (hi : c.findAttribute? c.attributes Attribute.signatureName = some i)
    (ht : text ≠ Attribute.signatureName) (h : Succeeds (setSignature text) c u d) :
    c.pool.Extends d.pool ∧ ∃ v, d.pool.utf8At v = .ok text ∧
      d = { c with
        pool := d.pool
        attributes := c.attributes.modify i ({ · with info := Bytes.ofWord16 v }) } := by
  unfold setSignature at h
  obtain ⟨v, c₁, hv, h⟩ := succeeds_bind.1 h
  obtain ⟨pool, hstep, rfl⟩ := succeeds_interning.1 hv
  obtain ⟨c', c₂, hget, h⟩ := succeeds_bind.1 h
  obtain ⟨rfl, rfl⟩ := succeeds_get.1 hget
  obtain ⟨hext, hnames⟩ := Interning.utf8_interns text hc hstep
  -- The new text is not the name of the attribute, so the same attribute is found.
  have hsame : findAttribute? { c with pool } c.attributes Attribute.signatureName = some i := by
    rw [← hi]
    exact findAttribute?_congr fun a _ => Interning.holdsText_of_utf8 hstep ht a.name
  dsimp only at h
  rw [hsame] at h
  obtain rfl := succeeds_set.1 h
  exact ⟨hext, v, hnames pool .refl, rfl⟩

end ClassFile

/-! ## The header -/

namespace Header

variable {p : Plan} {x y : Extension}

/-- A signature with interfaces appended ends like the descriptor of a type. -/
theorem semicolon_mem_extendSignature {interfaces : List String} (h : interfaces ≠ [])
    (signature : String) : ';' ∈ (extendSignature signature interfaces).toList := by
  have hmono : ∀ (is : List String) (s : String), ';' ∈ s.toList →
      ';' ∈ (extendSignature s is).toList := by
    intro is
    induction is with
    | nil => exact fun s hs => hs
    | cons i is ih =>
      intro s hs
      refine ih _ ?_
      simp [hs]
  cases interfaces with
  | nil => exact absurd rfl h
  | cons i is => exact hmono is _ (by simp)

theorem extendSignature_ne {interfaces : List String} (h : interfaces ≠ []) (signature : String) :
    extendSignature signature interfaces ≠ Attribute.signatureName := by
  intro heq
  have hmem := semicolon_mem_extendSignature h signature
  rw [heq] at hmem
  revert hmem
  decide

/-- The marker of woven classes is added to every class that lacks it. -/
theorem woven_mem_addedInterfaces {existing : List String} (h : Names.woven ∉ existing) :
    Names.woven ∈ addedInterfaces p existing := by
  unfold addedInterfaces wovenInterfaces
  rw [List.mem_filter]
  exact ⟨by simp, by simpa using h⟩

theorem addedInterfaces_ne_nil {existing : List String} (h : Names.woven ∉ existing) :
    addedInterfaces p existing ≠ [] :=
  List.ne_nil_of_mem (woven_mem_addedInterfaces h)

/-- The interfaces that stand for state which the root of a hierarchy holds. -/
def rootInterfaces : List String :=
  [Names.cloneable, Names.persistenceEntity, Names.fetchGroupTracker, Names.wovenRest]

theorem root_of_mem_wovenInterfaces {name : String} (h : name ∈ wovenInterfaces p)
    (hname : name ∈ rootInterfaces) : p.root = true := by
  have hothers : ∀ i ∈ [Names.woven, Names.persistenceObject, Names.wovenFetchGroups,
      Names.wovenLazy, Names.changeTracker, Names.wovenChangeTracking], i ∉ rootInterfaces := by
    decide +kernel
  cases hroot : p.root with
  | true => rfl
  | false =>
    refine absurd hname (hothers name ?_)
    unfold wovenInterfaces at h
    rw [hroot] at h
    -- What is left is added to every class of the hierarchy that asks for it.
    simp only [Bool.false_eq_true, and_false, false_and, if_false, List.nil_append, List.append_nil,
      List.mem_append, List.mem_ite_nil_right, List.mem_singleton] at h
    rcases h with (((rfl | ⟨-, rfl⟩) | ⟨-, rfl⟩) | ⟨-, rfl⟩) | ⟨-, ⟨-, rfl⟩ | rfl⟩ <;> simp

/-- Change tracking is declared by the first class of a hierarchy that is to track changes. -/
theorem changeTracker_mem_wovenInterfaces :
    Names.changeTracker ∈ wovenInterfaces p ↔
      p.changeTracking = true ∧ p.superclassTracksChanges = false := by
  have hothers : Names.changeTracker ∉ [Names.cloneable, Names.woven, Names.persistenceEntity,
      Names.persistenceObject, Names.fetchGroupTracker, Names.wovenFetchGroups, Names.wovenLazy,
      Names.wovenChangeTracking, Names.wovenRest] := by decide +kernel
  simp only [List.mem_cons, not_or] at hothers
  unfold wovenInterfaces
  simp [hothers]

/-- The interface that marks a class whose changes are tracked by woven code is added to such a class
unless it is there. -/
theorem wovenChangeTracking_mem_addedInterfaces {existing : List String}
    (h : Names.wovenChangeTracking ∉ existing) :
    Names.wovenChangeTracking ∈ addedInterfaces p existing ↔ p.changeTracking = true := by
  have hothers : Names.wovenChangeTracking ∉ [Names.cloneable, Names.woven, Names.persistenceEntity,
      Names.persistenceObject, Names.fetchGroupTracker, Names.wovenFetchGroups, Names.wovenLazy,
      Names.changeTracker, Names.wovenRest] := by decide +kernel
  simp only [List.mem_cons, not_or] at hothers
  unfold addedInterfaces wovenInterfaces
  simp [hothers, h]

/-- What becomes of the attributes of a class that is given interfaces: the first signature attribute
in the pool `q` gets a value that names, in the pool `r`, the old signature followed by them. -/
inductive Signed (q r : Pool) (interfaces : List String) (as : List Attribute) :
    List Attribute → Prop
  | unsigned (h : as.findIdx? (fun a => q.holdsText a.name Attribute.signatureName) = none) :
      Signed q r interfaces as as
  | signed {i : Nat} {a : Attribute} {old v : UInt16} {signature : String}
      (found : as.findIdx? (fun a => q.holdsText a.name Attribute.signatureName) = some i)
      (here : as[i]? = some a) (value : Reader.word16.onData a.info = .ok old)
      (names : r.utf8At old = .ok signature)
      (renamed : r.utf8At v = .ok (extendSignature signature interfaces)) :
      Signed q r interfaces as (as.modify i ({ · with info := Bytes.ofWord16 v }))

theorem Signed.extend {q r r' : Pool} {interfaces : List String} {as bs : List Attribute}
    (h : Signed q r interfaces as bs) (hext : r.Extends r') : Signed q r' interfaces as bs := by
  cases h with
  | unsigned hnone => exact .unsigned hnone
  | signed found here value names renamed =>
    exact .signed found here value (hext.utf8At names) (hext.utf8At renamed)

/-- Where the attribute names lie in a pool before, they may be read there. -/
theorem Signed.of_inside {o q r : Pool} {interfaces : List String} {as bs : List Attribute}
    (h : Signed q r interfaces as bs) (hext : o.Extends q)
    (hinside : ∀ a ∈ as, a.name.toNat < o.count) : Signed o r interfaces as bs := by
  have hsame : as.findIdx? (fun a => o.holdsText a.name Attribute.signatureName) =
      as.findIdx? (fun a => q.holdsText a.name Attribute.signatureName) :=
    (Pool.findIdx?_holdsText_of_inside hext hinside _).symm
  cases h with
  | unsigned hnone => exact .unsigned (hsame.trans hnone)
  | signed found here value names renamed =>
    exact .signed (hsame.trans found) here value names renamed

/-- The attributes keep their number, and fit where they did. -/
theorem Signed.fits {q r : Pool} {interfaces : List String} {as bs : List Attribute}
    (h : Signed q r interfaces as bs) (has : as.length < 0x10000 ∧ ∀ a ∈ as, a.Fits) :
    bs.length < 0x10000 ∧ ∀ b ∈ bs, b.Fits := by
  cases h with
  | unsigned => exact has
  | signed found here value names renamed =>
    refine ⟨by rw [List.length_modify]; exact has.1, fun b hb => ?_⟩
    obtain ⟨j, hj⟩ := List.mem_iff_getElem?.1 hb
    rw [List.getElem?_modify] at hj
    obtain ⟨a, ha, hab⟩ := Option.map_eq_some_iff.1 hj
    split at hab
    · rw [← hab]
      unfold Attribute.Fits
      rw [Bytes.length_ofWord16]
      decide
    · exact hab ▸ has.2 a (List.mem_of_getElem? ha)

/-- Extending a header adds the interfaces at the end and renews the signature.  Attribute names are
read in the pool that results from interning the names of the interfaces. -/
theorem apply_eq_ok {existing : List String} {u : Unit} (hx : x.file.pool.Built)
    (hnew : Names.woven ∉ existing) (h : Succeeds (apply p existing) x u y) :
    ∃ q is attributes,
      Succeeds ((addedInterfaces p existing).mapM Interning.classRef) x.file.pool is q ∧
      x.file.pool.Extends q ∧ q.Extends y.file.pool ∧
      List.Forall₂ (fun name i => y.file.pool.classNameAt i = .ok name)
        (addedInterfaces p existing) is ∧
      Signed q y.file.pool (addedInterfaces p existing) x.file.attributes attributes ∧
      y = { x with
        file := { x.file with
          pool := y.file.pool
          interfaces := x.file.interfaces ++ is
          attributes }
        added.interfaces := x.added.interfaces ++ addedInterfaces p existing } := by
  unfold apply at h
  obtain ⟨_, z, hadd, h⟩ := succeeds_bind.1 h
  obtain ⟨is, q, hinterned, rfl⟩ := Extension.addInterfaces_eq_ok hadd
  obtain ⟨hext, hnames⟩ := Interning.Interns.mapM Interning.classRef_interns _ hx hinterned
  obtain ⟨z, z₁, hget, h⟩ := succeeds_bind.1 h
  obtain ⟨rfl, rfl⟩ := succeeds_get.1 hget
  obtain ⟨s, z₁, hs, h⟩ := succeeds_bind.1 h
  obtain ⟨hsignature, rfl⟩ := succeeds_lift.1 hs
  rcases ClassFile.signature_eq_ok (WeaveError.ofFormat_eq_ok.1 hsignature) with
    ⟨rfl, hnone⟩ | ⟨i, a, old, text, rfl, hi, ha, hold, htext⟩
  · obtain ⟨-, rfl⟩ := succeeds_pure.1 h
    exact ⟨q, is, x.file.attributes, hinterned, hext, .refl, hnames q .refl, .unsigned hnone, rfl⟩
  · obtain ⟨file, hstep, rfl⟩ := Extension.succeeds_emitting.1 h
    obtain ⟨hext', v, hv, hfile⟩ := ClassFile.setSignature_eq_ok (hext.built hx) hi
      (extendSignature_ne (addedInterfaces_ne_nil hnew) text) hstep
    refine ⟨q, is, _, hinterned, hext, hext', hnames _ hext', .signed hi ha hold (hext'.utf8At htext)
      hv, ?_⟩
    dsimp only
    rw [hfile]

end Header

end EntityLoom
