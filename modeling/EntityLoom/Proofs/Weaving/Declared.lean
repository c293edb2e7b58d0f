import EntityLoom.Proofs.Weaving.References

/-!
# What a woven class declares

A woven class declares what its plan adds (`Plan.Carried.declares`), and of fields only these and
those that it had before (`Plan.Carried.kept_or_provides`).  `Plan.fieldPlace` says what each field of
a plan is for, and `Plan.provides_listenerMember_iff` which plans add the members for a listener.
Names decide both: no name that is made from an attribute is the name of a member of the class.
-/

namespace EntityLoom

open MemberDecl (fieldsOf)

/-! ## Declared members -/

/-- A member bears a name and a descriptor. -/
def Member.Bears (m : Member) (pool : Pool) (name descriptor : String) : Prop :=
  pool.utf8At m.name = .ok name ∧ pool.utf8At m.descriptor = .ok descriptor

/-- A class declares the member of the name and descriptor that a reference gives. -/
def ClassFile.Declares (c : ClassFile) : Reference → Prop
  | .field r => ∃ f ∈ c.fields, f.Bears c.pool r.name r.descriptor
  | .method r => ∃ n ∈ c.methods, n.Bears c.pool r.name r.descriptor

namespace Plan

variable {p : Plan} {existing : List String} {c d : ClassFile} {report : WeaveReport}
  {parts : Plan.Parts} {r : Reference}

/-- A class declares what its plan adds. -/
theorem Carried.declares (h : Carried p existing c d report parts) (hr : p.Provides r) :
    d.Declares r := by
  cases r with
  | field ref =>
    obtain ⟨f, hf, hname, hdescriptor⟩ := hr
    obtain ⟨n, hn, hdeclares⟩ := h.declares_field hf
    exact ⟨n, hn, hname ▸ hdeclares.name, hdescriptor ▸ hdeclares.descriptor⟩
  | method ref =>
    obtain ⟨f, hf, hname, hdescriptor⟩ := hr
    obtain ⟨n, hn, hdeclares⟩ := h.declares_method hf
    exact ⟨n, hn, hname ▸ hdeclares.name, hdescriptor ▸ hdeclares.descriptor⟩

/-- The fields of a woven class are those that it had and those that its plan adds. -/
theorem Carried.kept_or_provides (h : Carried p existing c d report parts) {ref : MemberRef}
    (hr : d.Declares (.field ref)) :
    (∃ f ∈ c.fields, f.Bears d.pool ref.name ref.descriptor) ∨ p.Provides (.field ref) := by
  obtain ⟨n, hn, hname, hdescriptor⟩ := hr
  have hfields : d.fields = c.fields ++ parts.fields := by rw [h.file]
  rw [hfields] at hn
  rcases List.mem_append.1 hn with hold | hnew
  · exact .inl ⟨n, hold, hname, hdescriptor⟩
  · obtain ⟨f, hf, hmade⟩ := exists_mem_of_forall₂ h.fields hnew
    exact .inr ⟨f, MemberDecl.mem_fieldsOf.1 hf, Except.ok.inj (hmade.1.name.symm.trans hname),
      Except.ok.inj (hmade.1.descriptor.symm.trans hdescriptor)⟩

end Plan

/-! ## Names of synthesized members -/

namespace Names

theorem holderField_inj {s t : String} : holderField s = holderField t ↔ s = t := by
  unfold holderField
  rw [← String.toList_inj]
  simp only [String.toList_append, List.append_assoc, List.append_cancel_left_eq]
  rw [List.append_cancel_right_eq, String.toList_inj]

/-- The name of a holder ends like that of no state field. -/
theorem holderField_ne {name : String} (h : name.toList.getLast? ≠ some 'h') (attr : String) :
    holderField attr ≠ name := by
  rintro rfl
  apply h
  unfold holderField
  simp only [String.toList_append]
  rw [List.getLast?_append_of_ne_nil _ (by decide)]
  decide

theorem holderField_notMem {names : List String}
    (h : ∀ name ∈ names, name.toList.getLast? ≠ some 'h') (attr : String) :
    holderField attr ∉ names :=
  fun hmem => holderField_ne (h _ hmem) attr rfl

/-- What starts with one text is not among texts that start otherwise. -/
theorem append_notMem {s : String} {names : List String}
    (h : ∀ name ∈ names, ¬s.toList <+: name.toList) (t : String) : s ++ t ∉ names := by
  intro hmem
  apply h _ hmem
  rw [String.toList_append]
  exact List.prefix_append _ _

end Names

/-- The name of a member. -/
def MemberDecl.name : MemberDecl → String
  | field f => f.name
  | method d => d.name

namespace Plan

variable {p : Plan} {f : FieldDecl} {d : MemberDecl} {name : String}

/-! ## The fields of a plan -/

/-- What a plan adds a field of a name for. -/
inductive FieldPlace (p : Plan) : String → Prop
  | identity {f : StateField} (internal : p.mapped.internal = true) (root : p.root = true)
      (entity : p.mapped.embeddable = false) (h : f ∈ [.primaryKey, .cacheKey]) :
      FieldPlace p f.name
  | holder {a : MappedAttribute} (h : a ∈ p.lazyAttributes) :
      FieldPlace p (Names.holderField a.name)
  | listener (h : p.ownsListener = true) : FieldPlace p StateField.listener.name
  | fetchGroup {f : StateField} (root : p.root = true)
      (h : f ∈ [.fetchGroup, .refreshFlag, .session]) : FieldPlace p f.name
  | rest {f : StateField} (root : p.root = true) (h : f ∈ [.relationships, .href, .links]) :
      FieldPlace p f.name

/-- The fields of members that are named like state fields are named like one of these. -/
theorem exists_state (states : List StateField) {ds : List MemberDecl}
    (hnames : (fieldsOf ds).map FieldDecl.name = states.map StateField.name) (h : .field f ∈ ds) :
    ∃ g ∈ states, g.name = f.name := by
  have hmem := List.mem_map_of_mem (f := FieldDecl.name) (MemberDecl.mem_fieldsOf.2 h)
  rw [hnames] at hmem
  exact List.mem_map.1 hmem

theorem fieldNames_internalMembers (p : Plan) : (fieldsOf p.internalMembers).map FieldDecl.name =
    (if p.root = true ∧ p.mapped.embeddable = false then
      [StateField.primaryKey, .cacheKey] else []).map StateField.name := by
  unfold internalMembers lifecycleMembers
  cases p.root <;> cases p.mapped.embeddable <;> cases p.mapped.constructorOptimization <;> rfl

theorem fieldsOf_attributeMembers (p : Plan) (a : MappedAttribute) :
    fieldsOf (p.attributeMembers a) = if p.weavesHolder a then [p.holderField a] else [] := by
  unfold attributeMembers
  cases p.weavesHolder a <;> cases p.intercepts a <;> rfl

theorem fieldPlace_of_internal (hi : p.mapped.internal = true) (h : .field f ∈ p.internalMembers) :
    p.FieldPlace f.name := by
  obtain ⟨g, hg, hname⟩ := exists_state _ p.fieldNames_internalMembers h
  rw [List.mem_ite_nil_right] at hg
  exact hname ▸ .identity hi hg.1.1 hg.1.2 hg.2

theorem fieldPlace_of_attribute {a : MappedAttribute} (ha : a ∈ p.ownAttributes)
    (h : .field f ∈ p.attributeMembers a) : p.FieldPlace f.name := by
  have hmem := MemberDecl.mem_fieldsOf.2 h
  rw [fieldsOf_attributeMembers, List.mem_ite_nil_right] at hmem
  rw [List.mem_singleton.1 hmem.2]
  exact .holder (List.mem_filter.2 ⟨ha, hmem.1⟩)

theorem fieldPlace_of_changeTracking (ho : p.ownsListener = true)
    (h : .field f ∈ p.changeTrackingMembers) : p.FieldPlace f.name := by
  obtain ⟨g, hg, hname⟩ := exists_state [.listener] rfl h
  rw [← hname, List.mem_singleton.1 hg]
  exact .listener ho

theorem fieldPlace_of_fetchGroup (hroot : p.root = true) (h : .field f ∈ p.fetchGroupMembers) :
    p.FieldPlace f.name := by
  obtain ⟨g, hg, hname⟩ := exists_state [.fetchGroup, .refreshFlag, .session] rfl h
  exact hname ▸ .fetchGroup hroot hg

theorem fieldPlace_of_rest (hroot : p.root = true) (h : .field f ∈ p.restMembers) :
    p.FieldPlace f.name := by
  obtain ⟨g, hg, hname⟩ := exists_state [.relationships, .href, .links] rfl h
  exact hname ▸ .rest hroot hg

/-- Every field of a plan is the holder of a lazy attribute, the listener of its first class that
tracks changes, or state of the root of a hierarchy. -/
theorem fieldPlace (h : .field f ∈ p.members) : p.FieldPlace f.name := by
  rcases mem_members.1 h with ⟨hi, h⟩ | ⟨a, ha, h⟩ | ⟨ho, h⟩ | ⟨hg, h⟩ | ⟨hr, h⟩
  · exact fieldPlace_of_internal hi h
  · exact fieldPlace_of_attribute ha h
  · exact fieldPlace_of_changeTracking ho h
  · exact fieldPlace_of_fetchGroup hg.2 h
  · exact fieldPlace_of_rest hr.2 h

theorem fieldPlace_of_provides {ref : MemberRef} (h : p.Provides (.field ref)) :
    p.FieldPlace ref.name := by
  obtain ⟨f, hf, hname, -⟩ := h
  exact hname ▸ fieldPlace hf

/-- The names of the fields that the root of a hierarchy holds. -/
def rootNames : List String :=
  [StateField.primaryKey, .cacheKey, .fetchGroup, .refreshFlag, .session, .relationships, .href,
    .links].map StateField.name

/-- No holder has the name of a field that the root holds. -/
theorem holderField_not_root (attr : String) : Names.holderField attr ∉ rootNames :=
  Names.holderField_notMem (by decide +kernel) attr

theorem FieldPlace.cases (h : p.FieldPlace name) :
    (∃ a ∈ p.lazyAttributes, Names.holderField a.name = name) ∨
      p.ownsListener = true ∧ name = StateField.listener.name ∨
      p.root = true ∧ name ∈ rootNames := by
  have hroot : ∀ states ⊆ [StateField.primaryKey, .cacheKey, .fetchGroup, .refreshFlag, .session,
      .relationships, .href, .links], ∀ g ∈ states, g.name ∈ rootNames := by
    intro states hsub g hg
    exact List.mem_map_of_mem (hsub hg)
  cases h with
  | holder ha => exact .inl ⟨_, ha, rfl⟩
  | listener ho => exact .inr (.inl ⟨ho, rfl⟩)
  | identity internal root entity hf => exact .inr (.inr ⟨root, hroot _ (by simp) _ hf⟩)
  | fetchGroup root hf => exact .inr (.inr ⟨root, hroot _ (by simp) _ hf⟩)
  | rest root hf => exact .inr (.inr ⟨root, hroot _ (by simp) _ hf⟩)

/-- Only the root of a hierarchy of entities declares the primary key. -/
theorem FieldPlace.primaryKey (h : p.FieldPlace name) (hname : name = StateField.primaryKey.name) :
    p.mapped.internal = true ∧ p.root = true ∧ p.mapped.embeddable = false := by
  have hother : ∀ f ∈ [StateField.fetchGroup, .refreshFlag, .session, .relationships, .href, .links],
      f.name ≠ StateField.primaryKey.name := by decide +kernel
  cases h with
  | identity internal root entity => exact ⟨internal, root, entity⟩
  | holder => exact absurd hname (Names.holderField_ne (by decide) _)
  | listener => exact absurd hname (by decide)
  | fetchGroup root hf => exact absurd hname (hother _ (List.mem_append_left [_, _, _] hf))
  | rest root hf => exact absurd hname (hother _ (List.mem_append_right [_, _, _] hf))

theorem root_of_provides_primaryKey {owner : String} (h : p.Provides (.primaryKey owner)) :
    p.mapped.internal = true ∧ p.root = true ∧ p.mapped.embeddable = false :=
  (fieldPlace_of_provides h).primaryKey rfl

/-! ## The members for a listener -/

/-- The names of the members for a listener. -/
def listenerNames : List String :=
  [StateField.listener.name, "_persistence_getPropertyChangeListener",
    "_persistence_setPropertyChangeListener", Names.propertyChange]

theorem internal_not_listener : ∀ d ∈ p.internalMembers, d.name ∉ listenerNames := by
  unfold internalMembers lifecycleMembers identityMembers property
  -- Which members there are depends on three flags, while their names are fixed.
  cases p.root <;> cases p.mapped.embeddable <;> cases p.mapped.constructorOptimization <;>
    simp only [List.forall_mem_append, List.forall_mem_cons, MemberDecl.name, StateField.decl,
      postClone, shallowClone, factory, tokenConstructor, genericGet, genericSet,
      Bool.false_eq_true, ↓reduceIte] <;>
    decide +kernel

theorem attribute_not_listener (a : MappedAttribute) :
    ∀ d ∈ p.attributeMembers a, d.name ∉ listenerNames := by
  have hfield : Names.holderField a.name ∉ listenerNames :=
    Names.holderField_notMem (by decide +kernel) a.name
  have hstarts : ∀ start ∈ ["_persistence_initialize_", "_persistence_get_", "_persistence_set_"],
      ∀ name ∈ listenerNames, ¬start.toList <+: name.toList := by decide +kernel
  have hmethod : ∀ start ∈ ["_persistence_initialize_", "_persistence_get_", "_persistence_set_"],
      ∀ rest, start ++ rest ∉ listenerNames :=
    fun start hstart => Names.append_notMem (hstarts start hstart)
  have hholder : ∀ start ∈ ["_persistence_initialize_", "_persistence_get_", "_persistence_set_"],
      start ++ a.name ++ "_vh" ∉ listenerNames := by
    intro start hstart
    rw [String.append_assoc]
    exact hmethod start hstart _
  unfold attributeMembers
  rw [List.forall_mem_append]
  constructor
  · split
    · simp only [List.forall_mem_cons]
      exact ⟨hfield, hholder _ (by simp), hholder _ (by simp), hholder _ (by simp), by simp⟩
    · simp
  · split
    · simp only [List.forall_mem_cons]
      exact ⟨hmethod _ (by simp) a.name, hmethod _ (by simp) a.name, by simp⟩
    · simp

theorem fetchGroup_not_listener : ∀ d ∈ p.fetchGroupMembers, d.name ∉ listenerNames := by
  unfold fetchGroupMembers property
  simp only [List.forall_mem_append, List.forall_mem_cons, MemberDecl.name, StateField.decl,
    fetchGroupField, resetFetchGroup, isAttributeFetched, fetchGuard]
  decide +kernel

theorem rest_not_listener : ∀ d ∈ p.restMembers, d.name ∉ listenerNames := by
  unfold restMembers property
  simp only [List.forall_mem_append, List.forall_mem_cons, MemberDecl.name, StateField.decl]
  decide +kernel

/-- Only the class that holds the listener has a member by the name of one of its members. -/
theorem ownsListener_of_mem (h : d ∈ p.members) (hname : d.name ∈ listenerNames) :
    p.ownsListener = true := by
  rcases mem_members.1 h with ⟨-, h⟩ | ⟨a, -, h⟩ | ⟨ho, -⟩ | ⟨-, h⟩ | ⟨-, h⟩
  · exact absurd hname (internal_not_listener d h)
  · exact absurd hname (attribute_not_listener a d h)
  · exact ho
  · exact absurd hname (fetchGroup_not_listener d h)
  · exact absurd hname (rest_not_listener d h)

/-- The members for a listener: the field, its getter and its setter, and the method that announces
changes. -/
def listenerMembers (owner : String) : List Reference :=
  [ .field ⟨owner, StateField.listener.name, StateField.listener.type.text⟩,
    .method ⟨owner, "_persistence_getPropertyChangeListener",
      Names.getterOf StateField.listener.type.text⟩,
    .method ⟨owner, "_persistence_setPropertyChangeListener",
      Names.setterOf StateField.listener.type.text⟩,
    .method ⟨owner, Names.propertyChange, Names.propertyChangeDesc⟩ ]

theorem provides_property {f : StateField} {getter setter : String}
    (h : ∀ d ∈ p.property f getter setter, d ∈ p.members) (owner : String) :
    p.Provides (.method ⟨owner, getter, Names.getterOf f.type.text⟩) ∧
      p.Provides (.method ⟨owner, setter, Names.setterOf f.type.text⟩) :=
  ⟨⟨_, h _ List.mem_cons_self, rfl, rfl⟩,
    ⟨_, h _ (List.mem_cons_of_mem _ List.mem_cons_self), rfl, rfl⟩⟩

theorem provides_listenerMembers (ho : p.ownsListener = true) (owner : String) :
    ∀ r ∈ listenerMembers owner, p.Provides r := by
  have hproperty : ∀ d ∈ p.property .listener "_persistence_getPropertyChangeListener"
      "_persistence_setPropertyChangeListener", d ∈ p.members := by
    intro d hd
    exact mem_members_of_changeTracking ho (List.mem_append_left _ (List.mem_append_right _ hd))
  obtain ⟨hfield, hannounce⟩ := provides_listener ho owner
  obtain ⟨hget, hset⟩ := provides_property hproperty owner
  unfold listenerMembers
  simp only [List.forall_mem_cons]
  exact ⟨hfield, hget, hset, hannounce, by simp⟩

/-- A class has the members for a listener exactly if it holds the listener. -/
theorem provides_listenerMember_iff {owner : String} {r : Reference} (hr : r ∈ listenerMembers owner) :
    p.Provides r ↔ p.ownsListener = true := by
  have hnames : ∀ r ∈ listenerMembers owner, r.ref.name ∈ listenerNames := by
    unfold listenerMembers
    simp only [List.forall_mem_cons, Reference.ref]
    decide
  refine ⟨fun h => ?_, fun ho => provides_listenerMembers ho owner r hr⟩
  have hname := hnames r hr
  cases r with
  | field ref =>
    obtain ⟨f, hf, hsame, -⟩ := h
    exact ownsListener_of_mem hf (hsame.symm ▸ hname : f.name ∈ listenerNames)
  | method ref =>
    obtain ⟨f, hf, hsame, -⟩ := h
    exact ownsListener_of_mem hf (hsame.symm ▸ hname : f.name ∈ listenerNames)

end Plan

end EntityLoom
