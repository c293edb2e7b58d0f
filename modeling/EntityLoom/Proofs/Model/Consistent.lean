import EntityLoom.Proofs.Model.Ancestors

/-!
# Consistent models

`Consistent` says what makes a list of mapped classes fit to be woven, without a walk or an order of
checks: superclasses are named, and ancestors are what chains of superclasses lead to.
`accepts_iff_consistent` says that a model is made of exactly the lists that are consistent once they
are normalized, in whatever order their classes stand.

The checks stop at the first fault and walk up no further than there are classes.  That they miss
nothing rests on two facts about ancestors.  A validated model has no circle, so its walks come to
every ancestor (`Validated.mem_ancestors`), and the walks of a consistent list come to no class twice,
so that the check of circles passes (`nodup_superclasses`).
-/

namespace EntityLoom.Model

variable {m : Model} {cs cs' : List MappedClass} {c : MappedClass} {a : MappedAttribute}

/-- Classes and attributes are told apart by their names, lazy attributes can be replaced by a holder,
superclasses are there and have what their subclasses need, and no attribute is declared twice along
a chain of superclasses. -/
structure Consistent (cs : List MappedClass) : Prop where
  classNames : cs.Pairwise fun c d => c.name ≠ d.name
  attributeNames : ∀ c ∈ cs, c.attributes.Pairwise fun a b => a.name ≠ b.name
  notPrimitive : ∀ c ∈ cs, ∀ a ∈ c.attributes, a.valueHolders → a.type.isPrimitive = false
  accessible : ∀ c ∈ cs, ∀ a ∈ c.ownAttributes, a.valueHolders →
    a.hasField ∨ (∃ g, a.getter = some g ∧ g ≠ "") ∧ ∃ s, a.setter = some s ∧ s ≠ ""
  superclass : ∀ c ∈ cs, ∀ s, c.superclass = some s → ∃ parent ∈ cs, parent.name = s
  acyclic : ∀ c, ¬AncestorIn cs c c
  internal : ∀ c ∈ cs, ∀ parent, SuperclassIn cs c parent → c.internal → parent.internal
  fetchGroups : ∀ c ∈ cs, ∀ parent, SuperclassIn cs c parent → c.fetchGroups → parent.fetchGroups
  rest : ∀ c ∈ cs, ∀ parent, SuperclassIn cs c parent → c.rest → parent.rest
  owners : ∀ c ∈ cs, ∀ ancestor, AncestorIn cs c ancestor →
    ∀ a ∈ c.ownAttributes, ∀ b ∈ ancestor.ownAttributes, a.name ≠ b.name

/-! ## What the checks look at -/

theorem isReachable_iff :
    a.isReachable ↔
      a.hasField ∨ (∃ g, a.getter = some g ∧ g ≠ "") ∧ ∃ s, a.setter = some s ∧ s ≠ "" := by
  unfold MappedAttribute.isReachable MappedAttribute.getterName? MappedAttribute.setterName?
  simp [Option.any_eq_true]

theorem mem_ownAttributes : a ∈ c.ownAttributes ↔ a ∈ c.attributes ∧ a.isOwn = true :=
  List.mem_filter

/-- A class that declares an attribute has it among its own. -/
theorem exists_of_ownsAttribute {name : String} (h : c.ownsAttribute name = true) :
    ∃ a ∈ c.ownAttributes, a.name = name := by
  unfold MappedClass.ownsAttribute MappedClass.attribute? at h
  obtain ⟨a, hfound, hown⟩ := (Option.any_eq_true _ _).1 h
  exact ⟨a, mem_ownAttributes.2 ⟨List.mem_of_find?_eq_some hfound, hown⟩, by
    simpa using List.find?_some hfound⟩

/-! ## Validated models are consistent -/

theorem Validated.consistent (h : m.Validated) : Consistent m.classes := by
  have hcapabilities := fun c hc parent hparent =>
    h.capabilities c hc parent ((superclassOf?_eq_some_iff h.classNames).2 hparent)
  constructor
  case classNames => exact List.pairwise_map.1 h.classNames
  case attributeNames => exact fun c hc => List.pairwise_map.1 (h.attributeNames c hc)
  case notPrimitive => exact fun c hc a ha hlazy => (h.holders c hc a ha hlazy).1
  case accessible =>
    intro c hc a ha hlazy
    obtain ⟨hmem, hown⟩ := mem_ownAttributes.1 ha
    exact isReachable_iff.1 ((h.holders c hc a hmem hlazy).2 hown)
  case superclass =>
    intro c hc s hs
    obtain ⟨parent, hparent⟩ := Option.isSome_iff_exists.1 (h.superclass c hc s hs)
    exact ⟨parent, mem_of_get? hparent⟩
  case acyclic => exact h.not_ancestorIn_self
  case internal => exact fun c hc parent hparent => (hcapabilities c hc parent hparent).1
  case fetchGroups => exact fun c hc parent hparent => (hcapabilities c hc parent hparent).2.1
  case rest => exact fun c hc parent hparent => (hcapabilities c hc parent hparent).2.2
  case owners =>
    intro c hc ancestor habove a ha b hb hname
    have hfree := h.owners c hc a ha ancestor ((h.mem_ancestors hc).2 habove)
    rw [hname, h.ownsAttribute_of_mem habove.mem hb] at hfree
    cases hfree

/-! ## Consistent models are validated -/

theorem Consistent.validated (h : Consistent m.classes) : m.Validated := by
  have hnames : (m.classes.map MappedClass.name).Nodup := List.pairwise_map.2 h.classNames
  constructor
  case classNames => exact hnames
  case attributeNames => exact fun c hc => List.pairwise_map.2 (h.attributeNames c hc)
  case holders =>
    intro c hc a ha hlazy
    refine ⟨h.notPrimitive c hc a ha hlazy, fun hown => ?_⟩
    exact isReachable_iff.2 (h.accessible c hc a (mem_ownAttributes.2 ⟨ha, hown⟩) hlazy)
  case superclass =>
    intro c hc s hs
    obtain ⟨parent, hparent, rfl⟩ := h.superclass c hc s hs
    exact Option.isSome_iff_exists.2 ⟨parent, (get?_eq_some_iff hnames).2 ⟨hparent, rfl⟩⟩
  case acyclic =>
    intro c hc n
    have hinside := walk_subset hc n
    refine (nodup_superclasses hnames h.acyclic n c).map_on fun d hd e he hname => ?_
    exact List.inj_on_of_nodup_map hnames (hinside hd) (hinside he) hname
  case capabilities =>
    intro c hc parent hparent
    have hparent := (superclassOf?_eq_some_iff hnames).1 hparent
    exact ⟨h.internal c hc parent hparent, h.fetchGroups c hc parent hparent,
      h.rest c hc parent hparent⟩
  case owners =>
    intro c hc a ha ancestor hancestor
    refine Bool.eq_false_iff.2 fun howns => ?_
    obtain ⟨b, hb, hname⟩ := exists_of_ownsAttribute howns
    have habove := ancestorIn_of_mem_superclasses hnames hancestor
    exact h.owners c hc ancestor habove a ha b hb hname.symm

/-! ## Order -/

/-- Of the classes that superclasses are looked for in, only the members count. -/
theorem superclassIn_perm (hperm : cs.Perm cs') : SuperclassIn cs = SuperclassIn cs' := by
  funext c parent
  unfold SuperclassIn
  rw [hperm.mem_iff]

theorem Consistent.perm (h : Consistent cs) (hperm : cs.Perm cs') : Consistent cs' := by
  have hsuper : SuperclassIn cs' = SuperclassIn cs := (superclassIn_perm hperm).symm
  have habove : AncestorIn cs' = AncestorIn cs := congrArg Relation.TransGen hsuper
  have hmem : ∀ c, c ∈ cs' ↔ c ∈ cs := fun c => hperm.mem_iff.symm
  constructor
  case classNames => exact hperm.pairwise h.classNames fun hne => hne.symm
  all_goals simp only [hmem, hsuper, habove]
  case attributeNames => exact h.attributeNames
  case notPrimitive => exact h.notPrimitive
  case accessible => exact h.accessible
  case superclass => exact h.superclass
  case acyclic => exact h.acyclic
  case internal => exact h.internal
  case fetchGroups => exact h.fetchGroups
  case rest => exact h.rest
  case owners => exact h.owners

/-! ## Acceptance -/

theorem exists_ofClasses_eq_ok {classes : List MappedClass} :
    (∃ m, ofClasses classes = .ok m) ↔ Consistent (classes.map MappedClass.normalized) := by
  simp only [ofClasses_eq_ok]
  constructor
  · rintro ⟨_, rfl, h⟩
    exact h.consistent
  · exact fun h => ⟨_, rfl, Consistent.validated h⟩

/-- Classes are accepted as a model exactly if they are consistent once they are normalized, whatever
their order. -/
theorem accepts_iff_consistent (classes : List MappedClass) :
    ((∃ m, ofClasses classes = .ok m) ↔ Consistent (classes.map MappedClass.normalized)) ∧
      ∀ classes', classes.Perm classes' →
        ((∃ m, ofClasses classes = .ok m) ↔ ∃ m, ofClasses classes' = .ok m) := by
  refine ⟨exists_ofClasses_eq_ok, fun classes' hperm => ?_⟩
  rw [exists_ofClasses_eq_ok, exists_ofClasses_eq_ok]
  have hnormalized := hperm.map MappedClass.normalized
  exact ⟨fun h => h.perm hnormalized, fun h => h.perm hnormalized.symm⟩

/-- Three classes of which each extends the next one are consistent, and make a model in the order
given and with the root first. -/
theorem accepts_iff_consistent_threeLevels :
    (∃ m, ofClasses Sample.threeLevels = .ok m) ∧
      Consistent (Sample.threeLevels.map MappedClass.normalized) ∧
      Sample.threeLevels.Perm Sample.threeLevels.reverse ∧
      ∃ m, ofClasses Sample.threeLevels.reverse = .ok m := by
  obtain ⟨haccepts, horder⟩ := accepts_iff_consistent Sample.threeLevels
  have hmodel : ∃ m, ofClasses Sample.threeLevels = .ok m ∧ m.classes.length = 3 := by
    decide +kernel
  obtain ⟨m, hm, -⟩ := hmodel
  have hperm := (List.reverse_perm Sample.threeLevels).symm
  exact ⟨⟨m, hm⟩, haccepts.1 ⟨m, hm⟩, hperm, (horder _ hperm).1 ⟨m, hm⟩⟩

end EntityLoom.Model
