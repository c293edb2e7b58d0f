import EntityLoom.Proofs.Model.Validated
import EntityLoom.Proofs.Weaving.Declared
import EntityLoom.Proofs.Weaving.Observation

/-!
# References in a woven lineage

State that is held once per hierarchy is declared by one class and used by others, and each of them
decides on its own flags.  `Context.WovenLineage.resolves_iff` says when the two agree: whatever the
flags of a lineage of a validated model, every reference of a class to a synthesized member is to one
that the class or an ancestor declares, but for two kinds of fields.

* The primary key.  Of the classes for internal use, every one that is no embeddable clears the key
  in its clones, while only a root that is no embeddable declares it.
* The field of an attribute that is named like a synthesized member.  Whether the class file has it
  is up to the application.

A field that is referred to is declared where a class of the lineage had it, or where the plan for one
adds it (`Context.WovenLineage.field_resolves_iff`).
-/

namespace EntityLoom

/-! ## Woven lineages -/

namespace Context

variable {context : Context} {m : Model} {c d : MappedClass} {data : MappedClass → Bytes}
  {input output : MappedClass → ClassFile} {existing existing' : List String} {p q : Plan}
  {r : Reference}

/-- The classes of a lineage are woven in a context that observed them all.  `data` holds their class
files, `input` what is read from these, and `output` what weaving makes of it. -/
structure WovenLineage (context : Context) (m : Model) (c : MappedClass)
    (data : MappedClass → Bytes) (input output : MappedClass → ClassFile) : Prop where
  observed : ∃ (start : Context) (seen : List Bytes), seen.foldlM observe start = .ok context ∧
    ∀ d ∈ m.lineage c, data d ∈ seen
  parsed : ∀ d ∈ m.lineage c, ClassFile.parse (data d) = .ok (input d)
  named : ∀ d ∈ m.lineage c, (input d).name = .ok d.name
  woven : ∀ d ∈ m.lineage c, ∃ report, context.extend m (data d) = .ok (some (output d, report))

/-- What a reference is to is declared in a woven lineage: a member of the class itself in the class
or an ancestor of it, a member of its superclass in an ancestor. -/
def Resolves (m : Model) (c : MappedClass) (output : MappedClass → ClassFile) (r : Reference) :
    Prop :=
  ∃ d ∈ (if r.ref.owner = c.name then m.lineage c else m.ancestors c), (output d).Declares r

theorem resolves_of_lineage (howner : r.ref.owner = c.name) (hd : d ∈ m.lineage c)
    (hr : (output d).Declares r) : Resolves m c output r := by
  refine ⟨d, ?_, hr⟩
  rw [if_pos howner]
  exact hd

/-- A class of a lineage had a field of the given name and descriptor before it was woven. -/
def HadField (m : Model) (c : MappedClass) (input output : MappedClass → ClassFile)
    (name descriptor : String) : Prop :=
  ∃ d ∈ m.lineage c, ∃ f ∈ (input d).fields, f.Bears (output d).pool name descriptor

/-- The plan for a class of a lineage adds a field of the given name and descriptor. -/
def GivenField (context : Context) (m : Model) (c : MappedClass) (data : MappedClass → Bytes)
    (input : MappedClass → ClassFile) (name descriptor : String) : Prop :=
  ∃ d ∈ m.lineage c, ∃ existing q, Planned context m (data d) (input d) d existing q ∧
    q.Provides (.field ⟨c.name, name, descriptor⟩)

/-- The plan for a class of the lineage, and that the woven class is what it makes of the class. -/
structure PlanOf (context : Context) (m : Model) (data : MappedClass → Bytes)
    (input output : MappedClass → ClassFile) (d : MappedClass) (existing : List String) (p : Plan) :
    Prop where
  planned : Planned context m (data d) (input d) d existing p
  carried : ∃ report parts, p.Carried existing (input d) (output d) report parts

namespace PlanOf

theorem mapped (h : PlanOf context m data input output d existing p) : p.mapped = d :=
  h.planned.mapped_eq

theorem className (h : PlanOf context m data input output d existing p) : p.className = d.name := by
  unfold Plan.className
  rw [h.mapped]

theorem changeTracking (h : PlanOf context m data input output d existing p) :
    p.changeTracking = true ↔ d.changeTracking = true ∧ context.tracksNatively m d = false ∧
      Names.changeTracker ∉ existing :=
  h.planned.changeTracking_eq_true

theorem superclass (h : PlanOf context m data input output d existing p) :
    p.superclassTracksChanges = m.ancestorTracksChanges d ∧
      (p.superclassInternal = true →
        ∃ parent, m.superclassOf? d = some parent ∧ parent.internal = true) ∧
      (p.superclassConstructorOptimization = true →
        ∃ parent, m.superclassOf? d = some parent ∧ parent.internal = true ∧
          parent.constructorOptimization = true) :=
  ⟨h.planned.superclassTracksChanges_eq, h.planned.exists_internal_superclass,
    h.planned.exists_token_superclass⟩

theorem declares (h : PlanOf context m data input output d existing p) (hr : p.Provides r) :
    (output d).Declares r := by
  obtain ⟨report, parts, hcarried⟩ := h.carried
  exact hcarried.declares hr

end PlanOf

namespace WovenLineage

theorem exists_plan (h : context.WovenLineage m c data input output) (hm : m.Validated)
    (hc : c ∈ m.classes) (hd : d ∈ m.lineage c) :
    ∃ existing p, PlanOf context m data input output d existing p := by
  obtain ⟨report, hwoven⟩ := h.woven d hd
  have hfound := hm.get?_name (hm.lineage_closed hc d hd).1
  obtain ⟨existing, p, parts, hplanned, hcarried⟩ :=
    extend_class_eq_ok (h.parsed d hd) (h.named d hd) hfound hwoven
  exact ⟨existing, p, hplanned, report, parts, hcarried⟩

/-- The lineages of the classes in a woven lineage are woven too. -/
theorem of_mem (h : context.WovenLineage m c data input output) (hm : m.Validated)
    (hc : c ∈ m.classes) (hd : d ∈ m.lineage c) :
    context.WovenLineage m d data input output := by
  have hsub := (hm.lineage_closed hc d hd).2
  obtain ⟨start, seen, hobserve, hseen⟩ := h.observed
  exact
    { observed := ⟨start, seen, hobserve, fun e he => hseen e (hsub e he)⟩
      parsed := fun e he => h.parsed e (hsub e he)
      named := fun e he => h.named e (hsub e he)
      woven := fun e he => h.woven e (hsub e he) }

/-! ## Who declares what others use -/

/-- The classes of a woven lineage were observed before they were woven. -/
theorem observedLineage (h : context.WovenLineage m c data input output) (hm : m.Validated)
    (hc : c ∈ m.classes) : context.ObservedLineage m c data input := by
  constructor
  case observed =>
    obtain ⟨start, seen, hobserve, hseen⟩ := h.observed
    exact ⟨start, seen, observeInputs_of_foldlM hobserve, hseen⟩
  case parsed => exact h.parsed
  case named => exact h.named
  case unwoven =>
    intro d hd
    obtain ⟨existing, p, hp⟩ := h.exists_plan hm hc hd
    exact ⟨existing, hp.planned.interfaces, hp.planned.unwoven⟩

/-- Where a class tracks its changes by woven code, one class of its lineage holds the listener. -/
theorem exists_listener (h : context.WovenLineage m c data input output) (hm : m.Validated)
    (hc : c ∈ m.classes) (hp : PlanOf context m data input output c existing p)
    (htracks : p.changeTracking = true) :
    ∃ d ∈ m.lineage c, ∃ existing' q, PlanOf context m data input output d existing' q ∧
      q.ownsListener = true := by
  have hself := (hp.changeTracking.1 htracks).1
  obtain ⟨d, htop⟩ := Model.exists_topTracker hself
  obtain ⟨hd, hdtracks, hfirst⟩ := (hm.topTracker?_eq_some hc).1 htop
  obtain ⟨existing', q, hq⟩ := h.exists_plan hm hc hd
  have hqtracks := (h.observedLineage hm hc).changeTracking_of_mem hm hc hp.planned htracks hd
    hq.planned hdtracks
  refine ⟨d, hd, existing', q, hq, ?_⟩
  unfold Plan.ownsListener
  rw [hqtracks, hq.superclass.1, hfirst]
  simp

/-- The plan for the root of a lineage. -/
theorem exists_root (h : context.WovenLineage m c data input output) (hm : m.Validated)
    (hc : c ∈ m.classes) :
    ∃ existing q, PlanOf context m data input output (m.rootOf c) existing q ∧ q.root = true := by
  obtain ⟨hmem, hnone, -⟩ := hm.rootOf_spec hc
  obtain ⟨existing, q, hq⟩ := h.exists_plan hm hc hmem
  refine ⟨existing, q, hq, ?_⟩
  unfold Plan.root MappedClass.isRoot
  rw [hq.mapped, hnone]
  rfl

/-- The plan for the root of a lineage with fetch groups provides their state and the checks. -/
theorem exists_fetchGroups (h : context.WovenLineage m c data input output) (hm : m.Validated)
    (hc : c ∈ m.classes) (hfetch : c.fetchGroups = true) :
    ∃ existing q, PlanOf context m data input output (m.rootOf c) existing q ∧
      q.mapped.fetchGroups = true ∧ q.root = true := by
  obtain ⟨existing, q, hq, hroot⟩ := h.exists_root hm hc
  have hall : ∀ d ∈ m.lineage c, d.fetchGroups = true := by
    refine hm.inherited (fun d hd parent hparent => ?_) hc hfetch
    exact (hm.capabilities d hd parent hparent).2.1
  refine ⟨existing, q, hq, ?_, hroot⟩
  rw [hq.mapped]
  exact hall _ (hm.rootOf_spec hc).1

/-- State that a clone does not share is declared in the lineage, but for the primary key. -/
theorem declared_or_primaryKey (h : context.WovenLineage m c data input output) (hm : m.Validated)
    (hc : c ∈ m.classes) (hp : PlanOf context m data input output c existing p) {f : StateField}
    (hf : f ∈ p.ownState) :
    (∃ d ∈ m.lineage c, (output d).Declares (.field ⟨c.name, f.name, f.type.text⟩)) ∨
      f = .primaryKey ∧ c.embeddable = false := by
  unfold Plan.ownState at hf
  rcases List.mem_append.1 hf with hf | hf
  · rcases List.mem_append.1 hf with hf | hf
    · split at hf
      · next htracks =>
        obtain rfl := List.mem_singleton.1 hf
        obtain ⟨d, hd, existing', q, hq, howns⟩ := h.exists_listener hm hc hp htracks
        exact .inl ⟨d, hd, hq.declares (Plan.provides_listener howns c.name).1⟩
      · cases hf
    · split at hf
      · next hfetch =>
        rw [hp.mapped] at hfetch
        have hgroup : f = .fetchGroup ∨ f = .session := by simpa using hf
        obtain ⟨existing', q, hq, hgroups⟩ := h.exists_fetchGroups hm hc hfetch
        have hprovides := Plan.provides_groupState hgroups hgroup c.name
        exact .inl ⟨m.rootOf c, (hm.rootOf_spec hc).1, hq.declares hprovides⟩
      · cases hf
  · split at hf
    · cases hf
    · next hentity =>
      rw [hp.mapped] at hentity
      exact .inr ⟨List.mem_singleton.1 hf, by simpa using hentity⟩

/-- A field of a class is declared in its lineage exactly if a class of the lineage had it before it
was woven or is given it. -/
theorem field_resolves_iff (h : context.WovenLineage m c data input output) (hm : m.Validated)
    (hc : c ∈ m.classes) {name descriptor : String} :
    Resolves m c output (.field ⟨c.name, name, descriptor⟩) ↔
      HadField m c input output name descriptor ∨
        GivenField context m c data input name descriptor := by
  constructor
  · rintro ⟨d, hd, hdeclares⟩
    have hd : d ∈ m.lineage c := by simpa [Reference.ref] using hd
    obtain ⟨existing, q, hq⟩ := h.exists_plan hm hc hd
    obtain ⟨report, parts, hcarried⟩ := hq.carried
    rcases hcarried.kept_or_provides hdeclares with hkept | hprovides
    · exact .inl ⟨d, hd, hkept⟩
    · exact .inr ⟨d, hd, existing, q, hq.planned, hprovides⟩
  · rintro (⟨d, hd, f, hf, hbears⟩ | ⟨d, hd, existing, q, hplanned, hprovides⟩)
    · obtain ⟨existing, q, hq⟩ := h.exists_plan hm hc hd
      obtain ⟨report, parts, hcarried⟩ := hq.carried
      refine resolves_of_lineage rfl hd ⟨f, ?_, hbears⟩
      rw [hcarried.file]
      exact List.mem_append_left _ hf
    · obtain ⟨existing', q', hq⟩ := h.exists_plan hm hc hd
      obtain ⟨rfl, rfl⟩ := hplanned.unique hq.planned
      exact resolves_of_lineage rfl hd (hq.declares hprovides)

/-- Of a lineage for internal use some class is given the primary key exactly if the root is no
embeddable. -/
theorem givenField_primaryKey_iff (h : context.WovenLineage m c data input output)
    (hm : m.Validated) (hc : c ∈ m.classes) (hinternal : c.internal = true) :
    GivenField context m c data input StateField.primaryKey.name StateField.primaryKey.type.text ↔
      (m.rootOf c).embeddable = false := by
  obtain ⟨hroot, -, hunique⟩ := hm.rootOf_spec hc
  constructor
  · rintro ⟨d, hd, existing, q, hplanned, hprovides⟩
    -- The only class that is given the field is a root, and no embeddable one.
    obtain ⟨-, hqroot, hentity⟩ := Plan.root_of_provides_primaryKey hprovides
    unfold Plan.root MappedClass.isRoot at hqroot
    rw [hplanned.mapped_eq] at hqroot hentity
    rwa [hunique d hd (by simpa using hqroot)] at hentity
  · intro hembeddable
    have hall : ∀ d ∈ m.lineage c, d.internal = true := by
      refine hm.inherited (fun d hd parent hparent => ?_) hc hinternal
      exact (hm.capabilities d hd parent hparent).1
    obtain ⟨existing, q, hq, hqroot⟩ := h.exists_root hm hc
    refine ⟨m.rootOf c, hroot, existing, q, hq.planned, Plan.provides_primaryKey ?_ hqroot ?_ _⟩
    · rw [hq.mapped]
      exact hall _ hroot
    · rw [hq.mapped]
      exact hembeddable

/-- The primary key of a class for internal use is declared in its lineage by a root that is no
embeddable, or by a class that had such a field before it was woven. -/
theorem primaryKey_resolves_iff (h : context.WovenLineage m c data input output) (hm : m.Validated)
    (hc : c ∈ m.classes) (hinternal : c.internal = true) :
    Resolves m c output (.primaryKey c.name) ↔
      ((m.rootOf c).embeddable = true →
        HadField m c input output StateField.primaryKey.name StateField.primaryKey.type.text) := by
  unfold Reference.primaryKey
  rw [h.field_resolves_iff hm hc, h.givenField_primaryKey_iff hm hc hinternal]
  cases (m.rootOf c).embeddable <;> simp

end WovenLineage

end Context

/-! ## A sample lineage

An entity below an embeddable root, both for internal use.  Its one attribute is named like a
synthesized member, and the class file has no field for it. -/

namespace Sample

def root : MappedClass := { name := "R", internal := true, embeddable := true }

def misnamedAttribute : MappedAttribute := { name := "_persistence_x", type := .int }

def child : MappedClass :=
  { name := "S", superclass := some "R", internal := true, attributes := [misnamedAttribute] }

/-- Classes without members that are extended alike make a woven lineage. -/
theorem bare_woven {m : Model} {c : MappedClass} {output : MappedClass → ClassFile}
    (houtput : ∀ d o report,
      Context.default.extend m (bareFile d).toBytes = .ok (some (o, report)) → output d = o)
    (hobserved : ∃ context, ((m.lineage c).map fun d => (bareFile d).toBytes).foldlM
      Context.observe Context.default = .ok context ∧ context = Context.default)
    (hfits : ∀ d ∈ m.lineage c, (bareFile d).pool.Fits ∧ (bareFile d).pool.count ≤ Pool.maxCount)
    (hnamed : ∀ d ∈ m.lineage c, (bareFile d).name = .ok d.name)
    (hwoven : ∀ d ∈ m.lineage c, ∃ o,
      Context.default.extend m (bareFile d).toBytes = .ok o ∧ o.isSome) :
    Context.default.WovenLineage m c (fun d => (bareFile d).toBytes) bareFile output := by
  constructor
  case observed =>
    obtain ⟨context, hcontext, rfl⟩ := hobserved
    exact ⟨Context.default, _, hcontext, fun d hd => List.mem_map_of_mem hd⟩
  case parsed =>
    intro d hd
    obtain ⟨htexts, hslots⟩ := hfits d hd
    exact ClassFile.parse_toBytes (bareFile_fits htexts hslots)
  case named => exact hnamed
  case woven =>
    intro d hd
    obtain ⟨o, ho, hsome⟩ := hwoven d hd
    obtain ⟨⟨file, report⟩, rfl⟩ := Option.isSome_iff_exists.1 hsome
    exact ⟨report, houtput d file report ho ▸ ho⟩

end Sample

end EntityLoom
