import EntityLoom.Proofs.Weaving.LazyCalls

/-!
# Members that are told apart

A class tells its fields apart by name and its methods by name and descriptor.
`Plan.nodup_keys` says that no two of the members that can be added to a class are alike to it, whatever
its attributes are called, unless one of them has the type of holders.

The members that do not belong to an attribute have fixed names.  Those of an attribute have a name in
the middle, and at most its spelling separates them: the getter of the holder of `x` is called like the
getter of an attribute `x_vh`, and only their descriptors differ.
-/

namespace EntityLoom

open MemberDecl (fieldsOf methodsOf)

/-- What a class tells a member apart by. -/
inductive MemberKey
  | field (name : String)
  | method (name descriptor : String)
  deriving DecidableEq

namespace MemberKey

/-- The name in a key. -/
def name : MemberKey → String
  | field name => name
  | method name _ => name

end MemberKey

/-- What a class tells a declared member apart by. -/
def MemberDecl.key : MemberDecl → MemberKey
  | field f => .field f.name
  | method d => .method d.name d.descriptor

/-! ## The members of an attribute -/

/-- The methods of an attribute. -/
inductive AttributeMethod
  | initializer
  | holderGetter
  | holderSetter
  | getter
  | setter
  deriving DecidableEq

namespace AttributeMethod

variable {x y : AttributeMethod} {a b : MappedAttribute} {s t : String}

/-- What the name of the method starts with, before the name of the attribute. -/
def start : AttributeMethod → String
  | initializer => "_persistence_initialize_"
  | holderGetter | getter => "_persistence_get_"
  | holderSetter | setter => "_persistence_set_"

/-- What the name of the method ends with, after the name of the attribute. -/
def tail : AttributeMethod → String
  | initializer | holderGetter | holderSetter => "_vh"
  | getter | setter => ""

def descriptor (a : MappedAttribute) : AttributeMethod → String
  | initializer => Names.noArgs
  | holderGetter => Names.getterOf Names.holderInterfaceDesc
  | holderSetter => Names.setterOf Names.holderInterfaceDesc
  | getter => Names.getterOf a.descriptor
  | setter => Names.setterOf a.descriptor

/-- What the method of an attribute is told apart by. -/
def key (x : AttributeMethod) (a : MappedAttribute) : MemberKey :=
  .method (x.start ++ a.name ++ x.tail) (x.descriptor a)

/-- The letter after the common start tells the three kinds of names apart. -/
theorem start_eq (h : x.start ++ s = y.start ++ t) : x.start = y.start := by
  have hletter := congrArg (fun name => name.toList[13]?) h
  simp only [String.toList_append] at hletter
  cases x <;> cases y <;> first | rfl | simp [start] at hletter

/-- The start and the tail of the name tell the methods of one attribute apart. -/
theorem eq_of_start_of_tail (hstart : x.start = y.start) (htail : x.tail = y.tail) : x = y := by
  revert hstart htail
  cases x <;> cases y <;> decide

/-- The methods of one kind that have another tail have another descriptor, unless the type of the
attribute is the type of holders. -/
theorem tail_eq (ha : a.descriptor ≠ Names.holderInterfaceDesc)
    (hb : b.descriptor ≠ Names.holderInterfaceDesc) (hstart : x.start = y.start)
    (hdescriptor : x.descriptor a = y.descriptor b) : x.tail = y.tail := by
  cases x <;> cases y <;> first
    | rfl
    | exact absurd hstart (by decide)
    | exact absurd (Names.getterOf_inj.1 hdescriptor) ha
    | exact absurd (Names.getterOf_inj.1 hdescriptor).symm hb
    | exact absurd (Names.setterOf_inj.1 hdescriptor) ha
    | exact absurd (Names.setterOf_inj.1 hdescriptor).symm hb

/-- Methods of attributes that are told apart by nothing are one method of one attribute. -/
theorem key_inj (ha : a.descriptor ≠ Names.holderInterfaceDesc)
    (hb : b.descriptor ≠ Names.holderInterfaceDesc) (h : x.key a = y.key b) :
    x = y ∧ a.name = b.name := by
  obtain ⟨hname, hdescriptor⟩ := MemberKey.method.inj h
  rw [String.append_assoc, String.append_assoc] at hname
  have hstart := start_eq hname
  have htail := tail_eq ha hb hstart hdescriptor
  rw [hstart, htail, ← String.toList_inj] at hname
  simp only [String.toList_append, List.append_cancel_left_eq, List.append_cancel_right_eq] at hname
  exact ⟨eq_of_start_of_tail hstart htail, String.toList_inj.1 hname⟩

end AttributeMethod

/-- The descriptor of holders is that of no other type. -/
theorem MappedAttribute.descriptor_ne {a : MappedAttribute}
    (ha : a.type ≠ .object Names.holderInterface) : a.descriptor ≠ Names.holderInterfaceDesc := by
  intro h
  have hchars : a.type.chars = 'L' :: (Names.holderInterface.toList ++ [';']) := by
    have htoList := congrArg String.toList h
    rw [MappedAttribute.descriptor, Descriptor.text, String.toList_ofList] at htoList
    rw [htoList, Names.holderInterfaceDesc, Names.holderInterface]
    -- The characters of a literal are its list, without evaluating the literal.
    repeat rw [String.toList_ofList]
    rfl
  cases htype : a.type with
  | object name =>
    rw [htype, Descriptor.chars] at hchars
    have hname := List.append_cancel_right (List.cons.inj hchars).2
    exact ha (htype.trans (congrArg _ (String.toList_inj.1 hname)))
  | _ =>
    rw [htype] at hchars
    cases hchars

namespace Plan

variable {p : Plan} {a b : MappedAttribute}

/-- What the members of an attribute are told apart by. -/
def attributeKeys (a : MappedAttribute) : List MemberKey :=
  .field (Names.holderField a.name) ::
    [AttributeMethod.initializer, .holderGetter, .holderSetter, .getter, .setter].map (·.key a)

theorem ite_sublist {α : Type} (c : Prop) [Decidable c] (l : List α) :
    (if c then l else []).Sublist l := by
  split
  · exact .refl l
  · exact l.nil_sublist

/-- A plan adds some of the members that an attribute can have. -/
theorem attributeMembers_sublist (p : Plan) (a : MappedAttribute) :
    ((p.attributeMembers a).map MemberDecl.key).Sublist (attributeKeys a) := by
  have hgetter : AttributeMethod.getter.key a =
      .method (Names.fieldGetter a.name) (Names.getterOf a.descriptor) :=
    congrArg (MemberKey.method · (Names.getterOf a.descriptor)) String.append_empty
  have hsetter : AttributeMethod.setter.key a =
      .method (Names.fieldSetter a.name) (Names.setterOf a.descriptor) :=
    congrArg (MemberKey.method · (Names.setterOf a.descriptor)) String.append_empty
  have hkeys : attributeKeys a =
      [ .field (Names.holderField a.name), AttributeMethod.initializer.key a,
        AttributeMethod.holderGetter.key a, AttributeMethod.holderSetter.key a ] ++
      [AttributeMethod.getter.key a, AttributeMethod.setter.key a] := rfl
  rw [hgetter, hsetter] at hkeys
  rw [hkeys, attributeMembers, List.map_append]
  refine List.Sublist.append ?_ ?_
  · split
    · exact .refl _
    · exact List.nil_sublist _
  · split
    · exact .refl _
    · exact List.nil_sublist _

/-- The members of one attribute are told apart. -/
theorem nodup_attributeKeys (ha : a.descriptor ≠ Names.holderInterfaceDesc) :
    (attributeKeys a).Nodup := by
  refine List.nodup_cons.2 ⟨?_, List.Nodup.map_on ?_ (by decide)⟩
  · simp [AttributeMethod.key]
  · intro x _ y _ h
    exact (AttributeMethod.key_inj ha ha h).1

/-- The members of two attributes are told apart. -/
theorem disjoint_attributeKeys (ha : a.descriptor ≠ Names.holderInterfaceDesc)
    (hb : b.descriptor ≠ Names.holderInterfaceDesc) (hname : a.name ≠ b.name) :
    (attributeKeys a).Disjoint (attributeKeys b) := by
  intro k hka hkb
  rcases List.mem_cons.1 hka with rfl | hka <;> rcases List.mem_cons.1 hkb with hkb | hkb
  · exact hname (Names.holderField_inj.1 (MemberKey.field.inj hkb))
  · obtain ⟨y, -, hy⟩ := List.mem_map.1 hkb
    cases hy
  · obtain ⟨x, -, rfl⟩ := List.mem_map.1 hka
    cases hkb
  · obtain ⟨x, -, rfl⟩ := List.mem_map.1 hka
    obtain ⟨y, -, hy⟩ := List.mem_map.1 hkb
    exact hname (AttributeMethod.key_inj hb ha hy).2.symm

/-! ## The other members -/

/-- A plan with all members that belong to no attribute. -/
def full : Plan where
  mapped := { name := "", internal := true, constructorOptimization := true }
  superName := Names.object
  changeTracking := true
  superclassTracksChanges := false
  superclassInternal := false
  superclassConstructorOptimization := false
  xmlTransient := false

/-- What the members that belong to no attribute are told apart by. -/
def fixedKeys : List MemberKey :=
  (full.internalMembers ++ full.changeTrackingMembers ++ full.fetchGroupMembers ++
    full.restMembers).map MemberDecl.key

theorem nodup_fixedKeys : fixedKeys.Nodup := by decide +kernel

theorem internalMembers_sublist (p : Plan) :
    (p.internalMembers.map MemberDecl.key).Sublist (full.internalMembers.map MemberDecl.key) := by
  have hfull : full.internalMembers.map MemberDecl.key =
      [.method p.postClone].map MemberDecl.key ++
      (.method shallowClone :: p.identityMembers).map MemberDecl.key ++
      [.method p.factory].map MemberDecl.key ++ [.method p.tokenConstructor].map MemberDecl.key ++
      [.method p.genericGet, .method p.genericSet].map MemberDecl.key := rfl
  rw [hfull]
  unfold internalMembers lifecycleMembers
  simp only [List.map_append]
  refine List.Sublist.append (.append (.append (.append (.refl _) ?_) (.refl _)) ?_) (.refl _)
  · split
    · refine List.Sublist.cons_cons _ ?_
      split
      · exact List.nil_sublist _
      · exact .refl _
    · exact List.nil_sublist _
  · split
    · exact .refl _
    · exact List.nil_sublist _

/-- All members that the parts of a plan can add, whether or not the mapping asks for them. -/
def potentialMembers (p : Plan) : List MemberDecl :=
  p.internalMembers ++ p.ownAttributes.flatMap p.attributeMembers ++ p.changeTrackingMembers ++
    p.fetchGroupMembers ++ p.restMembers

theorem members_sublist (p : Plan) : p.members.Sublist p.potentialMembers := by
  unfold members potentialMembers
  exact ((((ite_sublist _ _).append (.refl _)).append (ite_sublist _ _)).append
    (ite_sublist _ _)).append (ite_sublist _ _)

/-- The members that belong to no attribute. -/
def fixedMembers (p : Plan) : List MemberDecl :=
  p.internalMembers ++ p.changeTrackingMembers ++ p.fetchGroupMembers ++ p.restMembers

theorem fixedMembers_sublist (p : Plan) : (p.fixedMembers.map MemberDecl.key).Sublist fixedKeys := by
  unfold fixedMembers fixedKeys
  simp only [List.map_append]
  exact ((p.internalMembers_sublist.append (.refl _)).append (.refl _)).append (.refl _)

theorem potentialMembers_perm (p : Plan) :
    p.potentialMembers.Perm (p.fixedMembers ++ p.ownAttributes.flatMap p.attributeMembers) := by
  unfold potentialMembers fixedMembers
  simp only [List.append_assoc]
  refine .append_left _ (List.perm_append_comm.trans ?_)
  simp only [List.append_assoc]
  exact .refl _

/-- The fields that belong to no attribute are state of the root of a hierarchy and the listener. -/
theorem field_mem_fixedKeys {name : String} (h : .field name ∈ fixedKeys) :
    name = StateField.listener.name ∨ name ∈ rootNames := by
  have hchecked : ∀ k ∈ fixedKeys, k = .field k.name →
      k.name ∈ StateField.listener.name :: rootNames := by
    decide +kernel
  exact List.mem_cons.1 (hchecked _ h rfl)

/-- No method of an attribute starts like a method that belongs to none. -/
theorem start_not_fixed (x : AttributeMethod) :
    ∀ k ∈ fixedKeys, ¬x.start.toByteArray.data.toList <+: k.name.toByteArray.data.toList := by
  have hstarts : ∀ s ∈ ["_persistence_initialize_", "_persistence_get_", "_persistence_set_"],
      ∀ k ∈ fixedKeys, ¬s.toByteArray.data.toList <+: k.name.toByteArray.data.toList := by
    decide +kernel
  refine hstarts x.start ?_
  cases x <;> simp [AttributeMethod.start]

/-- No member of an attribute has a fixed name. -/
theorem attributeKeys_not_fixed {k : MemberKey} (hk : k ∈ attributeKeys a) : k ∉ fixedKeys := by
  intro hfixed
  rcases List.mem_cons.1 hk with rfl | hk
  · rcases field_mem_fixedKeys hfixed with hlistener | hroot
    · exact Names.holderField_ne (by decide) a.name hlistener
    · exact holderField_not_root a.name hroot
  · obtain ⟨x, -, rfl⟩ := List.mem_map.1 hk
    refine start_not_fixed x _ hfixed ?_
    simp only [AttributeMethod.key, MemberKey.name, String.toByteArray_append,
      ByteArray.data_append, Array.toList_append, List.append_assoc]
    exact List.prefix_append _ _

/-! ## All members -/

/-- The members that can be added are told apart, whatever the names of the attributes, if none of
these has the type of holders. -/
theorem nodup_keys (hnames : (p.ownAttributes.map MappedAttribute.name).Nodup)
    (htypes : ∀ a ∈ p.ownAttributes, a.type ≠ .object Names.holderInterface) :
    (p.potentialMembers.map MemberDecl.key).Nodup := by
  have hdescriptors := fun a ha => MappedAttribute.descriptor_ne (htypes a ha)
  rw [(p.potentialMembers_perm.map MemberDecl.key).nodup_iff, List.map_append, List.map_flatMap]
  have hmem : ∀ a k, k ∈ (p.attributeMembers a).map MemberDecl.key → k ∈ attributeKeys a :=
    fun a _ hk => (p.attributeMembers_sublist a).subset hk
  refine List.nodup_append'.2 ⟨nodup_fixedKeys.sublist p.fixedMembers_sublist,
    List.nodup_flatMap.2 ⟨?_, ?_⟩, ?_⟩
  · intro a ha
    exact (nodup_attributeKeys (hdescriptors a ha)).sublist (p.attributeMembers_sublist a)
  · refine ((List.pairwise_map.1 hnames).imp_of_mem fun ha hb hname => ?_)
    intro k hka hkb
    exact disjoint_attributeKeys (hdescriptors _ ha) (hdescriptors _ hb) hname (hmem _ _ hka)
      (hmem _ _ hkb)
  · intro k hfixed hk
    obtain ⟨a, -, hka⟩ := List.mem_flatMap.1 hk
    exact attributeKeys_not_fixed (hmem a k hka) (p.fixedMembers_sublist.subset hfixed)

end Plan

end EntityLoom
