import EntityLoom.Proofs.ClassFile.RoundTrip
import EntityLoom.Proofs.Weaving.Outcome

/-!
# Woven classes extend their classes

Weaving never takes anything from a class.  `Context.weave_conservative` reads the woven data back
and compares it with the class before: each table starts with what it held, the additions are those
that are reported, and the methods of before differ in the three bytes of each reported access alone.
The one value that changes is that of the first signature attribute.
-/

namespace EntityLoom

open FieldAccess (Site Routed Within internAccessors patchAll patchInfo patchMember)
open MemberDecl (fieldsOf methodsOf)

/-! ## What is kept -/

/-- The report of a site names its place, the method by name and descriptor and the instruction in
the code of its first code attribute, and the field of the class that is accessed there. -/
def FieldAccess.Site.Located (owner : String) (c : ClassFile) (s : Site) : Prop :=
  ∃ m name descriptor code, c.methods[s.method]? = some m ∧ c.pool.utf8At m.name = .ok name ∧
    c.pool.utf8At m.descriptor = .ok descriptor ∧ s.access.method = name ++ descriptor ∧
    c.findAttribute? m.attributes Attribute.codeName = some s.codeAttribute ∧
    s.offset = Walk.codeStart + s.access.pc ∧
    Walk.readCode.onData ((m.attributes[s.codeAttribute]?).elim [] Attribute.info) = .ok code ∧
    c.pool.fieldRefAt (FieldAccess.operandAt code.toArray s.access.pc) =
      .ok (owner, s.access.field, s.descriptor)

/-- The pool in which the names of class attributes are read is the pool before with the accessors
that the sites are to call interned, and then the names of the added interfaces. -/
def NamingPool (owner : String) (sites : List Site) (interfaces : List String)
    (before naming : Pool) : Prop :=
  ∃ slots routed is, Succeeds (internAccessors owner sites) before slots routed ∧
    Succeeds (interfaces.mapM Interning.classRef) routed is naming

/-- An attribute is kept but for the three bytes at each of some offsets. -/
structure Attribute.Kept (sites : Nat → Prop) (a b : Attribute) : Prop where
  name : b.name = a.name
  length : b.info.length = a.info.length
  bytes : ∀ k, (∀ offset, sites offset → ¬(offset ≤ k ∧ k < offset + 3)) → b.info[k]? = a.info[k]?

/-- The method at place `i` is kept but for the three bytes at each of the sites in it. -/
structure Member.Kept (sites : List Site) (i : Nat) (m n : Member) : Prop where
  access : n.access = m.access
  name : n.name = m.name
  descriptor : n.descriptor = m.descriptor
  count : n.attributes.length = m.attributes.length
  attributes : ∀ j a, m.attributes[j]? = some a → ∃ b, n.attributes[j]? = some b ∧
    Attribute.Kept (fun offset => ∃ s ∈ sites, s.In i j ∧ s.offset = offset) a b

/-- The class `d` extends the class `c` by what is reported, with calls of accessors at the sites. -/
structure ConservativeExtension (c : ClassFile) (report : WeaveReport) (sites : List Site)
    (d : ClassFile) : Prop where
  minor : d.minor = c.minor
  major : d.major = c.major
  access : d.access = c.access
  thisClass : d.thisClass = c.thisClass
  superClass : d.superClass = c.superClass
  pool : c.pool.slots.toList <+: d.pool.slots.toList
  interfaces : ∃ added, d.interfaces = c.interfaces ++ added ∧
    List.Forall₂ (fun name i => d.pool.classNameAt i = .ok name) report.added.interfaces added
  fields : ∃ added, d.fields = c.fields ++ added ∧
    List.Forall₂ (fun name f => d.pool.utf8At f.name = .ok name) report.added.fields added
  redirected : report.redirected = sites.map Site.access
  located : ∀ s ∈ sites, s.Located report.className c
  methods : ∃ kept added, d.methods = kept ++ added ∧ kept.length = c.methods.length ∧
    (∀ i m, c.methods[i]? = some m → ∃ n, kept[i]? = some n ∧ Member.Kept sites i m n) ∧
    List.Forall₂ (fun signature n => ∃ name descriptor, signature = name ++ descriptor ∧
      d.pool.utf8At n.name = .ok name ∧ d.pool.utf8At n.descriptor = .ok descriptor)
      report.added.methods added
  /-- The names of the class attributes are read in the pool as it is when the interfaces were
  added. -/
  attributes : ∃ naming, NamingPool report.className sites report.added.interfaces c.pool naming ∧
    c.pool.Extends naming ∧ naming.Extends d.pool ∧
    Header.Signed naming d.pool report.added.interfaces c.attributes d.attributes
  /-- They are read in the pool before if they lie in it. -/
  attributesInside : (∀ a ∈ c.attributes, a.name.toNat < c.pool.count) →
    Header.Signed c.pool d.pool report.added.interfaces c.attributes d.attributes

theorem FieldAccess.IsSite.located {p : Plan} {c : ClassFile} {s : Site} (h : IsSite p c s) :
    s.Located p.className c := by
  obtain ⟨m, hm, name, descriptor, code, op, hin⟩ := h
  exact ⟨m, name, descriptor, code, hm, hin.searched.named, hin.described, hin.reported,
    hin.searched.found, hin.placed, hin.searched.read, hin.intercepted.reference⟩

/-! ## Patched methods -/

section

variable {i : Nat} {calls : List (Site × UInt16)} {m : Member}

/-- The sites of a method lie within its attributes. -/
def MemberWithin (i : Nat) (calls : List (Site × UInt16)) (m : Member) : Prop :=
  ∀ j a, m.attributes[j]? = some a → Within i j calls a.info

theorem patchMember_attribute {j : Nat} {a : Attribute} (ha : m.attributes[j]? = some a) :
    (patchMember i calls m).attributes[j]? = some { a with info := patchInfo i j calls a.info } := by
  unfold patchMember
  rw [List.getElem?_mapIdx, ha]
  rfl

/-- Patching keeps a method but for its sites. -/
theorem kept_patchMember (h : MemberWithin i calls m) :
    Member.Kept (calls.map Prod.fst) i m (patchMember i calls m) := by
  refine ⟨rfl, rfl, rfl, List.length_mapIdx, fun j a ha => ?_⟩
  refine ⟨_, patchMember_attribute ha, rfl, FieldAccess.length_patchInfo (h j a ha), ?_⟩
  intro k hk
  refine FieldAccess.getElem?_patchInfo_of_clear (h j a ha) fun x hx hin => ?_
  exact hk x.1.offset ⟨x.1, List.mem_map_of_mem hx, hin, rfl⟩

/-- A patched method fits where the method does. -/
theorem fits_patchMember (h : MemberWithin i calls m) (hm : m.Fits) :
    (patchMember i calls m).Fits := by
  have hkept := kept_patchMember h
  refine ⟨hkept.count ▸ hm.count, fun b hb => ?_⟩
  obtain ⟨j, hj⟩ := List.mem_iff_getElem?.1 hb
  have hlt : j < m.attributes.length := by
    rw [← hkept.count]
    exact (List.getElem?_eq_some_iff.1 hj).1
  obtain ⟨b', hb', hsame⟩ := hkept.attributes j _ (List.getElem?_eq_getElem hlt)
  obtain rfl := Option.some.inj (hj.symm.trans hb')
  unfold Attribute.Fits
  rw [hsame.length]
  exact hm.each _ (List.getElem_mem hlt)

end

/-! ## Woven classes -/

/-- The limits of the format on what weaving adds to. -/
structure ClassFile.WithinLimits (d : ClassFile) : Prop where
  texts : d.pool.Fits
  interfaces : d.interfaces.length ≤ 65535
  fields : d.fields.length ≤ 65535
  methods : d.methods.length ≤ 65535

instance (d : ClassFile) : Decidable d.WithinLimits :=
  decidable_of_iff (d.pool.Fits ∧ d.interfaces.length ≤ 65535 ∧ d.fields.length ≤ 65535 ∧
      d.methods.length ≤ 65535)
    ⟨fun ⟨ht, hi, hf, hm⟩ => ⟨ht, hi, hf, hm⟩, fun h => ⟨h.texts, h.interfaces, h.fields, h.methods⟩⟩

namespace Plan

variable {p : Plan} {existing : List String} {c d : ClassFile} {report : WeaveReport}
  {parts : Plan.Parts}

theorem Carried.memberWithin (h : Carried p existing c d report parts) {i : Nat} {m : Member}
    (hm : c.methods[i]? = some m) : MemberWithin i parts.calls m := by
  obtain ⟨c₁, hrouted, -⟩ := h.routed
  exact fun j a ha => hrouted.within hm ha

/-- A class that is woven extends the class before. -/
theorem Carried.conservative (h : Carried p existing c d report parts)
    (hname : report.className = p.className) :
    ConservativeExtension c report (parts.calls.map Prod.fst) d := by
  obtain ⟨c₁, hrouted, hnaming, hinterned⟩ := h.routed
  have hinterfaces : report.added.interfaces = Header.addedInterfaces p existing := by rw [h.added]
  have hattributes : d.attributes = parts.attributes := by rw [h.file]
  have hsigned : Header.Signed parts.naming d.pool report.added.interfaces c.attributes
      d.attributes := by
    rw [hinterfaces, hattributes]
    exact h.signed
  constructor
  case minor | major | access | thisClass | superClass => rw [h.file]
  case pool => exact h.pool.slots_prefix
  case interfaces =>
    refine ⟨parts.interfaces, by rw [h.file], ?_⟩
    rw [hinterfaces]
    exact h.interfaces
  case fields =>
    refine ⟨parts.fields, by rw [h.file], ?_⟩
    rw [h.added, List.forall₂_map_left_iff]
    exact h.fields.imp fun f n hn => hn.1.name
  case redirected =>
    rw [h.redirected, List.map_map]
    rfl
  case located =>
    intro s hs
    obtain ⟨x, hx, rfl⟩ := List.mem_map.1 hs
    rw [hname]
    exact ((hrouted.exact x.1).1 ⟨x.2, hx⟩).located
  case methods =>
    refine ⟨patchAll parts.calls c.methods, parts.methods, by rw [h.file],
      FieldAccess.length_patchAll _ _, fun i m hm => ?_, ?_⟩
    · refine ⟨patchMember i parts.calls m, ?_, kept_patchMember (h.memberWithin hm)⟩
      rw [FieldAccess.getElem?_patchAll, hm]
      rfl
    · rw [h.added, List.forall₂_map_left_iff]
      exact h.methods.imp fun f n hn => ⟨f.name, f.descriptor, rfl, hn.1.name, hn.1.descriptor⟩
  case attributes =>
    have hpool : NamingPool report.className (parts.calls.map Prod.fst) report.added.interfaces
        c.pool parts.naming := by
      rw [hname, hinterfaces]
      exact ⟨_, c₁.pool, _, hrouted.interned, hinterned⟩
    exact ⟨parts.naming, hpool, hrouted.pool.trans hnaming, h.grown, hsigned⟩
  case attributesInside =>
    intro hinside
    exact hsigned.of_inside (hrouted.pool.trans hnaming) hinside

/-- A woven class fits its fields where the class before did. -/
theorem Carried.fits (h : Carried p existing c d report parts) (hc : c.Fits)
    (hd : d.WithinLimits) : d.Fits := by
  have hext := h.pool
  constructor
  case built => exact hext.built hc.built
  case texts => exact hd.texts
  case slots => exact hext.count_le hc.slots
  case toTablesFit =>
    constructor
    case interfaces => exact Nat.lt_succ_of_le hd.interfaces
    case fields =>
      refine ⟨Nat.lt_succ_of_le hd.fields, fun f hf => ?_⟩
      rw [h.file] at hf
      rcases List.mem_append.1 hf with hold | hnew
      · exact hc.fields.2 f hold
      · obtain ⟨_, -, hmade⟩ := exists_mem_of_forall₂ h.fields hnew
        exact hmade.2
    case methods =>
      refine ⟨Nat.lt_succ_of_le hd.methods, fun n hn => ?_⟩
      rw [h.file] at hn
      rcases List.mem_append.1 hn with hold | hnew
      · obtain ⟨i, hi⟩ := List.mem_iff_getElem?.1 hold
        rw [FieldAccess.getElem?_patchAll] at hi
        obtain ⟨m, hm, rfl⟩ := Option.map_eq_some_iff.1 hi
        exact fits_patchMember (h.memberWithin hm) (hc.methods.2 m (List.mem_of_getElem? hm))
      · obtain ⟨_, -, hmade⟩ := exists_mem_of_forall₂ h.methods hnew
        exact hmade.2
    case attributes =>
      have hattributes : d.attributes = parts.attributes := by rw [h.file]
      rw [hattributes]
      exact h.signed.fits hc.attributes

end Plan

namespace Sample

/-- The sample class is written as it was read. -/
theorem data_written : ∃ c, ClassFile.parse data = .ok c ∧ c.toBytes = data := by
  decide +kernel

/-- The sample class is extended within the limits of the format, and its one access is routed. -/
theorem data_extended : ∃ x, Context.default.extend (model "A") data = .ok (some x) ∧
    x.1.WithinLimits ∧ x.2.redirected = [⟨"get()D", 1, "n", false⟩] := by
  decide +kernel

end Sample

/-- Weaving yields data that is read back as an extension of the class, provided that what was added
is within the limits of the format. -/
theorem Context.weave_conservative {context : Context} {m : Model} {data bytes : Bytes}
    {c : ClassFile} {report : WeaveReport} (hparse : ClassFile.parse data = .ok c)
    (hdata : c.toBytes = data) (hwoven : context.weave m data = .ok (.woven bytes report))
    (hlimits : ∀ d, context.extend m data = .ok (some (d, report)) → d.WithinLimits) :
    ∃ d sites, ClassFile.parse bytes = .ok d ∧ ConservativeExtension c report sites d := by
  obtain ⟨d, hextend, rfl⟩ := weave_eq_woven.1 hwoven
  obtain ⟨c', mapped, existing, p, hplanned, hp⟩ := extend_eq_ok hextend
  obtain rfl := Except.ok.inj (hparse.symm.trans hplanned.parsed)
  have hfits := ClassFile.fits_of_parse hparse hdata
  obtain ⟨hname, parts, hcarried⟩ := Plan.extend_eq_ok hfits.built hplanned.unwoven hp
  exact ⟨d, _, ClassFile.parse_toBytes (hcarried.fits hfits (hlimits d hextend)),
    hcarried.conservative hname⟩

/-- The sample class is extended in one method. -/
theorem Context.weave_conservative_sample :
    ∃ bytes c d report sites, Context.default.weave (Sample.model "A") Sample.data =
        .ok (.woven bytes report) ∧
      report.redirected = [⟨"get()D", 1, "n", false⟩] ∧ ClassFile.parse Sample.data = .ok c ∧
      ClassFile.parse bytes = .ok d ∧ ConservativeExtension c report sites d := by
  obtain ⟨c, hc, hdata⟩ := Sample.data_written
  obtain ⟨⟨d, report⟩, hextend, hlimits, hredirected⟩ := Sample.data_extended
  have hwoven := weave_eq_woven.2 ⟨d, hextend, rfl⟩
  obtain ⟨d', sites, hd', hconservative⟩ := weave_conservative hc hdata hwoven fun e he => by
    rw [hextend] at he
    cases he
    exact hlimits
  exact ⟨_, c, d', report, sites, hwoven, hredirected, hc, hd', hconservative⟩

/-- A class that has no signature may still have a class attribute changed: one whose name lies
outside the pool, where routing a field access puts the name of the class. -/
theorem not_attributes_kept_of_unsigned :
    ¬∀ (classes : List MappedClass) (m : Model) (context : Context) (data bytes : Bytes)
        (c d : ClassFile) (report : WeaveReport),
      Model.ofClasses classes = .ok m → ClassFile.parse data = .ok c → c.toBytes = data →
      context.weave m data = .ok (.woven bytes report) →
      (∀ e, context.extend m data = .ok (some (e, report)) → e.WithinLimits) →
      ClassFile.parse bytes = .ok d →
      c.findAttribute? c.attributes Attribute.signatureName = none →
      d.attributes = c.attributes := by
  intro hclaim
  have hmodel : ∃ m, Model.ofClasses (Sample.classes "Signature") = .ok m ∧
      m = Sample.model "Signature" := by decide +kernel
  have hrun : ∃ c, ClassFile.parse Sample.misnamed = .ok c ∧
      ∃ x, Context.default.extend (Sample.model "Signature") Sample.misnamed = .ok (some x) ∧
        ∃ d, ClassFile.parse x.1.toBytes = .ok d ∧ c.toBytes = Sample.misnamed ∧
          x.1.WithinLimits ∧ c.findAttribute? c.attributes Attribute.signatureName = none ∧
          d.attributes ≠ c.attributes := by decide +kernel
  obtain ⟨m, hm, rfl⟩ := hmodel
  obtain ⟨c, hc, ⟨e, report⟩, ho, d, hd, hdata, hlimits, hunsigned, hchanged⟩ := hrun
  have hwoven := Context.weave_eq_woven.2 ⟨e, ho, rfl⟩
  refine hchanged (hclaim _ _ _ _ _ c d report hm hc hdata hwoven (fun e' he' => ?_) hd hunsigned)
  rw [ho] at he'
  cases he'
  exact hlimits

end EntityLoom
