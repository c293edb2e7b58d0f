import EntityLoom.Proofs.ClassFile.RoundTrip
import EntityLoom.Proofs.Weaving.Header
import EntityLoom.Proofs.Weaving.Members
import EntityLoom.Proofs.Weaving.Redirection

/-!
# What weaving leaves of a class

Carrying out a plan routes field accesses, extends the header and adds members.
`Plan.extend_eq_ok` puts the three together: `Plan.Carried` says of each table of the class what the
woven class has in its place, and what is reported of it.  `Context.extend_eq_ok` says which plan is
carried out for the data of a class.
-/

namespace EntityLoom

open FieldAccess (Site Routed patchAll)
open MemberDecl (fieldsOf methodsOf)

/-! ## Making a plan -/

/-- A plan for a mapped class is made only if the class file names the mapped superclass. -/
theorem Plan.make_eq_ok {mapped : MappedClass} {m : Model} {context : Context}
    {fileSuper : Option String} {existing : List String} {p : Plan}
    (h : Plan.make mapped m context fileSuper existing = .ok p) :
    (∀ s, mapped.superclass = some s → s = fileSuper.getD Names.object) ∧
      p = { mapped
            superName := fileSuper.getD Names.object
            changeTracking := mapped.changeTracking &&
              !(context.tracksNatively m mapped || Names.changeTracker ∈ existing)
            superclassTracksChanges := m.ancestorTracksChanges mapped
            superclassInternal := (m.superclassOf? mapped).any MappedClass.internal
            superclassConstructorOptimization :=
              (m.superclassOf? mapped).any fun q => q.internal && q.constructorOptimization
            xmlTransient := context.xmlTransient } := by
  unfold Plan.make at h
  cases hs : mapped.superclass with
  | none =>
    rw [hs] at h
    cases h
    refine ⟨fun s hnone => ?_, rfl⟩
    cases hnone
  | some s =>
    rw [hs] at h
    dsimp only at h
    split at h
    · next heq =>
      cases h
      exact ⟨fun t ht => Option.some.inj ht ▸ heq, rfl⟩
    · cases h

/-! ## The members of a plan -/

namespace Plan

variable {p : Plan}

/-- The members of a plan, by what asks for them. -/
theorem mem_members {d : MemberDecl} :
    d ∈ p.members ↔
      p.mapped.internal = true ∧ d ∈ p.internalMembers ∨
      (∃ a ∈ p.ownAttributes, d ∈ p.attributeMembers a) ∨
      p.ownsListener = true ∧ d ∈ p.changeTrackingMembers ∨
      (p.mapped.fetchGroups = true ∧ p.root = true) ∧ d ∈ p.fetchGroupMembers ∨
      (p.mapped.rest = true ∧ p.root = true) ∧ d ∈ p.restMembers := by
  unfold members
  simp only [List.mem_append, List.mem_flatMap, List.mem_ite_nil_right, or_assoc]

/-- The accessors of an intercepted attribute are members of the plan. -/
theorem accessors_mem {a : MappedAttribute} (ha : a ∈ p.ownAttributes)
    (hi : p.intercepts a = true) :
    .method (p.fieldGetter a) ∈ p.members ∧ .method (p.fieldSetter a) ∈ p.members := by
  have hmem : ∀ e ∈ p.attributeMembers a, e ∈ p.members := by
    intro e he
    exact mem_members.2 (.inr (.inl ⟨a, ha, he⟩))
  unfold attributeMembers at hmem
  rw [if_pos hi] at hmem
  exact ⟨hmem _ (by simp), hmem _ (by simp)⟩

end Plan

/-! ## Carrying out a plan -/

/-- What a plan puts into a class. -/
structure Plan.Parts where
  /-- The calls in place of field accesses. -/
  calls : List (Site × UInt16)
  /-- The pool in which the names of the class attributes are read. -/
  naming : Pool
  interfaces : List UInt16
  attributes : List Attribute
  fields : List Member
  methods : List Member

namespace Plan

variable {p : Plan} {existing : List String} {c d : ClassFile} {report : WeaveReport}

/-- The class `d` is what the plan makes of the class `c` with the given interfaces. -/
structure Carried (p : Plan) (existing : List String) (c d : ClassFile) (report : WeaveReport)
    (parts : Parts) : Prop where
  routed : ∃ routed, Routed p c parts.calls routed ∧ routed.pool.Extends parts.naming ∧
    Succeeds ((Header.addedInterfaces p existing).mapM Interning.classRef) routed.pool
      parts.interfaces parts.naming
  grown : parts.naming.Extends d.pool
  interfaces : List.Forall₂ (fun name i => d.pool.classNameAt i = .ok name)
    (Header.addedInterfaces p existing) parts.interfaces
  signed : Header.Signed parts.naming d.pool (Header.addedInterfaces p existing) c.attributes
    parts.attributes
  fields : List.Forall₂ (fun f m => FieldDecl.MadeInto f d.pool m) (fieldsOf p.members) parts.fields
  methods : List.Forall₂ (fun f m => MethodDecl.MadeInto f d.pool m) (methodsOf p.members)
    parts.methods
  file : d = { c with
    pool := d.pool
    interfaces := c.interfaces ++ parts.interfaces
    fields := c.fields ++ parts.fields
    methods := patchAll parts.calls c.methods ++ parts.methods
    attributes := parts.attributes }
  added : report.added =
    { interfaces := Header.addedInterfaces p existing
      fields := (fieldsOf p.members).map FieldDecl.name
      methods := (methodsOf p.members).map MethodDecl.signature }
  redirected : report.redirected = parts.calls.map fun x => x.1.access

theorem Carried.pool {parts : Parts} (h : Carried p existing c d report parts) :
    c.pool.Extends d.pool := by
  obtain ⟨c₁, hrouted, hnaming, -⟩ := h.routed
  exact hrouted.pool.trans (hnaming.trans h.grown)

/-- A class that is woven declares every field of the plan. -/
theorem Carried.declares_field {parts : Parts} (h : Carried p existing c d report parts)
    {f : FieldDecl} (hf : .field f ∈ p.members) :
    ∃ n ∈ d.fields, n.Declares d.pool f.access f.name f.descriptor := by
  obtain ⟨n, hn, hmade⟩ := exists_mem_of_forall₂ h.fields.flip (MemberDecl.mem_fieldsOf.2 hf)
  refine ⟨n, ?_, hmade.1⟩
  rw [h.file]
  exact List.mem_append_right _ hn

/-- A class that is woven declares every method of the plan. -/
theorem Carried.declares_method {parts : Parts} (h : Carried p existing c d report parts)
    {f : MethodDecl} (hf : .method f ∈ p.members) :
    ∃ n ∈ d.methods, n.Declares d.pool f.access f.name f.descriptor := by
  obtain ⟨n, hn, hmade⟩ := exists_mem_of_forall₂ h.methods.flip (MemberDecl.mem_methodsOf.2 hf)
  refine ⟨n, ?_, hmade.1⟩
  rw [h.file]
  exact List.mem_append_right _ hn

theorem ofFile_eq_ok {x : Extension} (h : Extension.ofFile c = .ok x) :
    x.file = c ∧ x.added = {} := by
  unfold Extension.ofFile at h
  obtain ⟨name, -, h⟩ := bind_eq_ok.1 h
  cases h
  exact ⟨rfl, rfl⟩

/-- The steps that a plan is carried out by. -/
theorem extend_steps (h : p.extend existing c = .ok (d, report)) :
    ∃ accesses c₁ x y, Succeeds (FieldAccess.redirectAll p) c accesses c₁ ∧
      Extension.ofFile c₁ = .ok x ∧
      Succeeds (do
        Header.apply p existing
        p.members.forM Extension.addMember : Extension.Step Unit) x () y ∧
      d = y.file ∧ report = ⟨p.className, y.added, accesses, y.withFrames⟩ := by
  unfold extend at h
  rcases hredirect : (FieldAccess.redirectAll p).run.run c with ⟨result, c₁⟩
  rw [hredirect] at h
  obtain ⟨accesses, hresult, hrest⟩ := bind_eq_ok.1 h
  obtain ⟨x, hx, hrun⟩ := bind_eq_ok.1 hrest
  rcases hsteps : (do
    Header.apply p existing
    p.members.forM Extension.addMember : Extension.Step Unit).run.run x with ⟨done, y⟩
  rw [hsteps] at hrun
  obtain ⟨u, hdone, hlast⟩ := bind_eq_ok.1 hrun
  cases hlast
  rw [show result = .ok accesses from hresult] at hredirect
  rw [show done = .ok () from hdone] at hsteps
  exact ⟨accesses, c₁, x, y, hredirect, WeaveError.ofFormat_eq_ok.1 hx, hsteps, rfl, rfl⟩

/-- Carrying out a plan routes the field accesses, extends the header and adds the members. -/
theorem extend_eq_ok (hc : c.pool.Built) (hnew : Names.woven ∉ existing)
    (h : p.extend existing c = .ok (d, report)) :
    report.className = p.className ∧ ∃ parts, Carried p existing c d report parts := by
  obtain ⟨accesses, c₁, x, y, hredirect, hx, hsteps, rfl, rfl⟩ := extend_steps h
  obtain ⟨_, z, happly, hmembers⟩ := succeeds_bind.1 hsteps
  obtain ⟨calls, hrouted, hreported⟩ := FieldAccess.redirectAll_eq_ok hc hredirect
  obtain ⟨rfl, hempty⟩ := ofFile_eq_ok hx
  have hbuilt := hrouted.pool.built hc
  obtain ⟨q, is, attributes, hinterned, hnaming, hgrown, his, hsigned, hz⟩ :=
    Header.apply_eq_ok hbuilt hnew happly
  have hbuilt' := (hnaming.trans hgrown).built hbuilt
  obtain ⟨hext, fields, methods, hfields, hmethods, hy⟩ :=
    Extension.addMembers_eq_ok hbuilt' p.members_small hmembers
  refine ⟨rfl, ⟨calls, q, is, attributes, fields, methods⟩, ?_⟩
  constructor
  case routed => exact ⟨x.file, hrouted, hnaming, hinterned⟩
  case grown => exact hgrown.trans hext
  case interfaces => exact his.imp fun _ _ hi => hext.classNameAt hi
  case signed =>
    have hattributes : x.file.attributes = c.attributes := by rw [hrouted.file]
    rw [← hattributes]
    exact hsigned.extend hext
  case fields => exact hfields
  case methods => exact hmethods
  case file =>
    rw [hy, hz, hrouted.file]
  case added =>
    rw [hy, hz, hempty]
    rfl
  case redirected => exact hreported

end Plan

/-! ## Weaving the data of a class -/

namespace Context

variable {context : Context} {m : Model} {data bytes : Bytes} {report : WeaveReport}

theorem weave_eq_woven :
    context.weave m data = .ok (.woven bytes report) ↔
      ∃ d, context.extend m data = .ok (some (d, report)) ∧ bytes = d.toBytes := by
  unfold weave
  rw [map_eq_ok]
  constructor
  · rintro ⟨o, ho, h⟩
    cases o with
    | none => cases h
    | some x =>
      cases h
      exact ⟨x.1, ho, rfl⟩
  · rintro ⟨d, hd, rfl⟩
    exact ⟨_, hd, rfl⟩

/-- The class in some data, the names in its header, and the plan that is made for it. -/
structure Planned (context : Context) (m : Model) (data : Bytes) (c : ClassFile)
    (mapped : MappedClass) (existing : List String) (p : Plan) : Prop where
  parsed : ClassFile.parse data = .ok c
  named : c.name = .ok mapped.name
  found : m.get? mapped.name = some mapped
  interfaces : c.interfaceNames = .ok existing
  unwoven : Names.woven ∉ existing
  planned : ∃ superName, c.superName = .ok superName ∧
    Plan.make mapped m context superName existing = .ok p

/-- The class file names the mapped superclass, if there is one. -/
def NamesSuperclass (c : ClassFile) (mapped : MappedClass) : Prop :=
  ∃ superName, c.superName = .ok superName ∧
    ∀ s, mapped.superclass = some s → s = superName.getD Names.object

/-- A plan is made for an unwoven class whose file names the mapped superclass. -/
theorem exists_planned (context : Context) {c : ClassFile} {mapped : MappedClass} {existing : List String}
    (hparsed : ClassFile.parse data = .ok c) (hnamed : c.name = .ok mapped.name)
    (hfound : m.get? mapped.name = some mapped) (hinterfaces : c.interfaceNames = .ok existing)
    (hunwoven : Names.woven ∉ existing) (hsuper : NamesSuperclass c mapped) :
    ∃ p, Planned context m data c mapped existing p := by
  obtain ⟨superName, hsuper, hsame⟩ := hsuper
  have hmake : ∃ p, Plan.make mapped m context superName existing = .ok p := by
    unfold Plan.make
    cases hs : mapped.superclass with
    | none => exact ⟨_, rfl⟩
    | some s => simp [hsame s hs, pure, Except.pure]
  obtain ⟨p, hp⟩ := hmake
  exact ⟨p, hparsed, hnamed, hfound, hinterfaces, hunwoven, superName, hsuper, hp⟩

/-- A class that is extended is unwoven, and the plan for its mapping is carried out. -/
theorem extend_eq_ok {d : ClassFile} (h : context.extend m data = .ok (some (d, report))) :
    ∃ c mapped existing p, Planned context m data c mapped existing p ∧
      p.extend existing c = .ok (d, report) := by
  unfold extend at h
  obtain ⟨c, hc, h⟩ := bind_eq_ok.1 h
  obtain ⟨name, hname, h⟩ := bind_eq_ok.1 h
  have hparsed := WeaveError.ofFormat_eq_ok.1 hc
  have hnamed := WeaveError.ofFormat_eq_ok.1 hname
  split at h
  · cases h
  · next mapped hmapped =>
    unfold extendFile at h
    obtain ⟨existing, hexisting, h⟩ := bind_eq_ok.1 h
    split at h
    · cases h
    · next hunwoven =>
      obtain ⟨superName, hsuper, h⟩ := bind_eq_ok.1 h
      obtain ⟨p, hp, h⟩ := bind_eq_ok.1 h
      obtain ⟨x, hx, h⟩ := map_eq_ok.1 h
      cases h
      have heq : mapped.name = name := by
        simpa using List.find?_some hmapped
      subst heq
      exact ⟨c, mapped, existing, p, ⟨hparsed, hnamed, hmapped,
        WeaveError.ofFormat_eq_ok.1 hexisting, hunwoven, _, WeaveError.ofFormat_eq_ok.1 hsuper, hp⟩, hx⟩

namespace Planned

variable {c : ClassFile} {mapped : MappedClass} {existing : List String} {p : Plan}

theorem mapped_eq (h : Planned context m data c mapped existing p) : p.mapped = mapped := by
  obtain ⟨superName, -, hmake⟩ := h.planned
  obtain ⟨-, rfl⟩ := Plan.make_eq_ok hmake
  rfl

/-- One plan is made for a class. -/
theorem unique (h : Planned context m data c mapped existing p) {existing' : List String} {q : Plan}
    (h' : Planned context m data c mapped existing' q) : existing = existing' ∧ p = q := by
  obtain rfl := Except.ok.inj (h.interfaces.symm.trans h'.interfaces)
  obtain ⟨superName, hsuper, hmake⟩ := h.planned
  obtain ⟨superName', hsuper', hmake'⟩ := h'.planned
  obtain rfl := Except.ok.inj (hsuper.symm.trans hsuper')
  exact ⟨rfl, Except.ok.inj (hmake.symm.trans hmake')⟩

/-- Carrying out the plan gives what it makes of the class. -/
theorem carried (h : Planned context m data c mapped existing p) {d : ClassFile}
    (hd : p.extend existing c = .ok (d, report)) : ∃ parts, p.Carried existing c d report parts := by
  obtain ⟨n, hread⟩ := ClassFile.readUpTo_of_parse h.parsed
  exact (Plan.extend_eq_ok hread.built h.unwoven hd).2

/-- Changes are tracked by woven code where the mapping asks for it and neither the class nor an
ancestor does so by hand. -/
theorem changeTracking_eq_true (h : Planned context m data c mapped existing p) :
    p.changeTracking = true ↔ mapped.changeTracking = true ∧
      context.tracksNatively m mapped = false ∧ Names.changeTracker ∉ existing := by
  obtain ⟨superName, -, hmake⟩ := h.planned
  obtain ⟨-, rfl⟩ := Plan.make_eq_ok hmake
  simp

theorem superclassTracksChanges_eq (h : Planned context m data c mapped existing p) :
    p.superclassTracksChanges = m.ancestorTracksChanges mapped := by
  obtain ⟨superName, -, hmake⟩ := h.planned
  obtain ⟨-, rfl⟩ := Plan.make_eq_ok hmake
  rfl

theorem exists_internal_superclass (h : Planned context m data c mapped existing p)
    (hinternal : p.superclassInternal = true) :
    ∃ parent, m.superclassOf? mapped = some parent ∧ parent.internal = true := by
  obtain ⟨superName, -, hmake⟩ := h.planned
  obtain ⟨-, rfl⟩ := Plan.make_eq_ok hmake
  exact (Option.any_eq_true _ _).1 hinternal

theorem exists_token_superclass (h : Planned context m data c mapped existing p)
    (htoken : p.superclassConstructorOptimization = true) :
    ∃ parent, m.superclassOf? mapped = some parent ∧ parent.internal = true ∧
      parent.constructorOptimization = true := by
  obtain ⟨superName, -, hmake⟩ := h.planned
  obtain ⟨-, rfl⟩ := Plan.make_eq_ok hmake
  obtain ⟨parent, hparent, hboth⟩ := (Option.any_eq_true _ _).1 htoken
  exact ⟨parent, hparent, Bool.and_eq_true_iff.1 hboth⟩

end Planned

/-- A class that is extended is what the plan for it makes of it. -/
theorem extend_class_eq_ok {c d : ClassFile} {mapped : MappedClass}
    (hparsed : ClassFile.parse data = .ok c) (hnamed : c.name = .ok mapped.name)
    (hfound : m.get? mapped.name = some mapped)
    (h : context.extend m data = .ok (some (d, report))) :
    ∃ existing p parts, Planned context m data c mapped existing p ∧
      p.Carried existing c d report parts := by
  obtain ⟨c', mapped', existing, p, hplanned, hextend⟩ := extend_eq_ok h
  obtain rfl := Except.ok.inj (hparsed.symm.trans hplanned.parsed)
  have hname : mapped.name = mapped'.name := Except.ok.inj (hnamed.symm.trans hplanned.named)
  obtain rfl : mapped' = mapped := by
    rw [hname] at hfound
    exact Option.some.inj (hplanned.found.symm.trans hfound)
  obtain ⟨parts, hcarried⟩ := hplanned.carried hextend
  exact ⟨existing, p, parts, hplanned, hcarried⟩

end Context

/-! ## Sample classes

A class with a field `n`, a method `get` that reads it, and one class attribute.  Its model asks for
fetch groups in it and in its superclass. -/

namespace Sample

/-- The mapping of the class. -/
def mapped (name : String) : MappedClass :=
  { name, superclass := some "B", fetchGroups := true
    attributes := [{ name := "n", type := .double }] }

/-- The class of the given name and its superclass. -/
def classes (name : String) : List MappedClass :=
  [mapped name, { name := "B", fetchGroups := true }]

def model (name : String) : Model := ⟨classes name⟩

/-- A constant with a text. -/
def text (s : String) : Constant := .utf8 (Text.ModifiedUtf8.encode s)

/-- The class whose name is spelled by the given bytes.  The name of its attribute is the first of the
further constants, or lies outside the pool. -/
def classFile (name : Bytes) (further : List Constant) : ClassFile where
  minor := 0
  major := 49
  pool := Pool.empty.appendAll
    ([.utf8 name, .classRef 1, text "B", .classRef 3, text "get", text "()D", text "Code",
      text "n", text "D", .nameAndType 8 9, .fieldRef 2 10, text "LB;"] ++ further)
  access := Access.publicFlag ||| Access.superFlag
  thisClass := 2
  superClass := 4
  interfaces := []
  fields := [⟨0, 8, 9, []⟩]
  methods := [⟨Access.publicFlag, 5, 6,
    [⟨7, [0, 2, 0, 1, 0, 0, 0, 5, 0x2A, 0xB4, 0, 11, 0xAF, 0, 0, 0, 0]⟩]⟩]
  attributes := [⟨13, [0, 12]⟩]

/-- A class with a signature. -/
def data : Bytes :=
  (classFile (Text.ModifiedUtf8.encode "A") [text Attribute.signatureName]).toBytes

/-- A class without one, whose name is spelled in two bytes for its first letter. -/
def misnamed : Bytes :=
  (classFile (0xC1 :: 0x93 :: Text.ModifiedUtf8.encode "ignature") []).toBytes

/-- The class file of a mapped class without members. -/
def bareFile (c : MappedClass) : ClassFile where
  minor := 0
  major := 49
  pool := Pool.empty.appendAll
    [text c.name, .classRef 1, text (c.superclass.getD Names.object), .classRef 3]
  access := Access.publicFlag ||| Access.superFlag
  thisClass := 2
  superClass := 4
  interfaces := []
  fields := []
  methods := []
  attributes := []

theorem bareFile_fits {c : MappedClass} (htexts : (bareFile c).pool.Fits)
    (hslots : (bareFile c).pool.count ≤ Pool.maxCount) : (bareFile c).Fits := by
  constructor
  case built => exact Pool.built_appendAll .empty hslots
  case texts => exact htexts
  case slots => exact hslots
  case toTablesFit => constructor <;> simp [bareFile]

/-- A plan is made for the class file of a mapped class without members. -/
theorem bareFile_planned (context : Context) (m : Model) (c : MappedClass)
    (hfits : (bareFile c).pool.Fits ∧ (bareFile c).pool.count ≤ Pool.maxCount)
    (hnamed : (bareFile c).name = .ok c.name) (hfound : m.get? c.name = some c)
    (hsuper : Context.NamesSuperclass (bareFile c) c) :
    ∃ p, context.Planned m (bareFile c).toBytes (bareFile c) c [] p :=
  Context.exists_planned context (ClassFile.parse_toBytes (bareFile_fits hfits.1 hfits.2)) hnamed hfound rfl
    List.not_mem_nil hsuper

end Sample

end EntityLoom
