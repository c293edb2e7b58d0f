import EntityLoom.Proofs.Code.Emission
import EntityLoom.Proofs.Model.Validated
import EntityLoom.Proofs.Weaving.Declared
import EntityLoom.Proofs.Weaving.Names
import EntityLoom.Weaving.Weave

/-!
# Synthesized bodies are typed

Every method that a plan synthesizes is well typed, whatever the attributes, as long as their types
are well formed: see `Plan.synthesizes_wellTyped`.  Bodies without branches on attributes are checked
instruction by instruction, by simplification with the rules of `TypedFrom`.  Bodies with a part for
each attribute are checked part by part (`typedFrom_dispatchAll`, `typedFrom_cloneHolders`), and
their labels differ since the names of the attributes, which stand in the code, take up the slots of
a pool.
-/

namespace EntityLoom

open EntityLoom.Frame Instruction

attribute [local simp] Names.constructor_eq

/-! ## Methods of an instance -/

@[simp] theorem Access.isStatic_publicFlag : Access.isStatic Access.publicFlag = false := by decide

@[simp] theorem Access.isStatic_protectedFlag : Access.isStatic Access.protectedFlag = false := by
  decide

@[simp] theorem Frame.valueSlots_object (name : String) :
    valueSlots (.object name) = [.object name] := rfl

/-- The first slot of a value holds it. -/
@[simp] theorem Frame.slotOf_valueSlots (v : VerificationType) : slotOf (valueSlots v) 0 = v := by
  unfold valueSlots
  split <;> rfl

namespace MethodDecl

variable {m : MethodDecl} {thisClass : String}

/-- A method of an instance starts with the instance and its arguments. -/
theorem WellTyped.of_instance {d : MethodDescriptor} (labels : Label → Frame)
    (hd : MethodDescriptor.ofText m.descriptor = .ok d) (haccess : Access.isStatic m.access = false)
    (hname : m.name ≠ constructorName)
    (typed : TypedFrom thisClass labels []
      (some ⟨.object thisClass :: d.params.flatMap fun p => valueSlots (.ofDescriptor p), []⟩) m.body)
    (marks : ∀ ⦃pool operands pool'⦄, pool.Built →
      Succeeds (m.body.mapM Instruction.internOperand) pool operands pool' →
      (boundLabels m.body).Nodup) : m.WellTyped thisClass where
  typed := ⟨d, labels, by unfold type; rw [hd], by
    rw [haccess, entry, if_neg Bool.false_ne_true, receiver, if_neg fun h => hname h.1]
    exact typed⟩
  marks := marks

end MethodDecl

/-! ## Boxing -/

theorem Descriptor.length_boxCode_le (d : Descriptor) : d.boxCode.length ≤ 1 := by
  unfold boxCode
  split <;> simp

theorem MappedAttribute.length_unboxCode_le (a : MappedAttribute) : a.unboxCode.length ≤ 2 := by
  unfold unboxCode
  split <;> simp

/-! ## Labels of a body -/

@[simp] theorem boundLabels_append (xs ys : List Instruction) :
    boundLabels (xs ++ ys) = boundLabels xs ++ boundLabels ys :=
  List.filterMap_append

/-- A body with a part for each element of a list, which binds the label of its index. -/
theorem boundLabels_flatMap_zipIdx {α : Type} {part : α × Nat → List Instruction} {xs : List α}
    (h : ∀ x, boundLabels (part x) = [UInt32.ofNat x.2]) :
    boundLabels (xs.zipIdx.flatMap part) = (List.range xs.length).map UInt32.ofNat := by
  have hparts : ∀ ys : List (α × Nat),
      boundLabels (ys.flatMap part) = (ys.map Prod.snd).map UInt32.ofNat := by
    intro ys
    induction ys with
    | nil => rfl
    | cons y ys ih => rw [List.flatMap_cons, boundLabels_append, h, ih]; rfl
  rw [hparts, List.zipIdx_map_snd, List.range_eq_range']

theorem nodup_labels {n : Nat} (h : n ≤ UInt16.size) :
    ((List.range n).map UInt32.ofNat).Nodup := by
  refine List.nodup_range.map_on fun i hi j hj hij => ?_
  rw [List.mem_range] at hi hj
  have hlt : ∀ k < n, k < 2 ^ 32 := fun k hk =>
    (hk.trans_le h).trans_le (by decide : UInt16.size ≤ 2 ^ 32)
  have := congrArg UInt32.toNat hij
  rwa [UInt32.toNat_ofNat_of_lt' (hlt i hi), UInt32.toNat_ofNat_of_lt' (hlt j hj)] at this

@[simp] theorem boundLabels_boxCode (d : Descriptor) : boundLabels d.boxCode = [] := by
  unfold Descriptor.boxCode
  split <;> rfl

@[simp] theorem boundLabels_unboxCode (a : MappedAttribute) : boundLabels a.unboxCode = [] := by
  unfold MappedAttribute.unboxCode
  split <;> rfl

/-! ## Slots of operands -/

/-- A slot of a pool holds the operand of an instruction. -/
def Instruction.Denotes (i : Instruction) (pool : Pool) (slot : UInt16) : Prop :=
  match i with
  | .field _ r => pool.fieldRefAt slot = .ok (r.owner, r.name, r.descriptor)
  | .ldcString text => ∃ n, pool.get? slot = some (.string n) ∧ pool.utf8At n = .ok text
  | _ => True

theorem Instruction.internOperand_denotes (i : Instruction) :
    Interning.Interns i.internOperand i.Denotes := by
  cases i with
  | field op r => exact Interning.fieldRef_interns r.owner r.name r.descriptor
  | ldcString text => exact Interning.string_interns text
  | invoke | type => exact (Instruction.internOperand_interns _).mono fun _ _ _ => trivial
  | simple | var | jump | mark => exact .pure fun _ => trivial

/-- A body has no more different operands than a pool has slots. -/
theorem length_le_of_operands {body parts : List Instruction} {pool pool' : Pool}
    {operands : List UInt16} (hpool : pool.Built)
    (hs : Succeeds (body.mapM Instruction.internOperand) pool operands pool')
    (hnodup : parts.Nodup) (hsub : parts ⊆ body)
    (hdiffer : ∀ i ∈ parts, ∀ j ∈ parts, ∀ slot,
      i.Denotes pool' slot → j.Denotes pool' slot → i = j) :
    parts.length ≤ UInt16.size := by
  obtain ⟨-, hdenotes⟩ := Interning.Interns.mapM Instruction.internOperand_denotes body hpool hs
  have hslot : ∀ i ∈ parts, ∃ slot, i.Denotes pool' slot := fun i hi =>
    let ⟨slot, _, h⟩ := exists_mem_of_forall₂ (hdenotes pool' .refl).flip (hsub hi)
    ⟨slot, h⟩
  choose! slot hslot using hslot
  have hslots : (parts.map fun i => (slot i).toNat).Nodup :=
    hnodup.map_on fun i hi j hj hij =>
      hdiffer i hi j hj (slot i) (hslot i hi) (UInt16.toNat_inj.1 hij ▸ hslot j hj)
  have hrange : (parts.map fun i => (slot i).toNat) ⊆ List.range UInt16.size := by
    intro n hn
    obtain ⟨i, -, rfl⟩ := List.mem_map.1 hn
    exact List.mem_range.2 (slot i).toNat_lt
  simpa using (List.subperm_of_subset hslots hrange).length_le

/-- The labels of the parts differ if each part has an operand of its own. -/
theorem nodup_boundLabels_of_operands {α : Type} {part : α × Nat → List Instruction}
    (key : α → Instruction) {xs : List α} {pre post : List Instruction} {pool pool' : Pool}
    {operands : List UInt16} (hpart : ∀ x, boundLabels (part x) = [UInt32.ofNat x.2])
    (hpre : boundLabels pre = []) (hpost : boundLabels post = []) (hkey : ∀ x, key x.1 ∈ part x)
    (hnodup : (xs.map key).Nodup)
    (hdiffer : ∀ x y slot, (key x).Denotes pool' slot → (key y).Denotes pool' slot → key x = key y)
    (hpool : pool.Built)
    (hs : Succeeds ((pre ++ xs.zipIdx.flatMap part ++ post).mapM Instruction.internOperand) pool
      operands pool') :
    (boundLabels (pre ++ xs.zipIdx.flatMap part ++ post)).Nodup := by
  have hmem : xs.map key ⊆ pre ++ xs.zipIdx.flatMap part ++ post := by
    intro i hi
    obtain ⟨a, ha, rfl⟩ := List.mem_map.1 hi
    obtain ⟨n, hn⟩ := List.mem_iff_getElem?.1 ha
    refine List.mem_append_left _ (List.mem_append_right _ (List.mem_flatMap.2 ⟨(a, n), ?_, ?_⟩))
    · exact List.mem_zipIdx_iff_getElem?.2 hn
    · exact hkey (a, n)
  have hlength : (xs.map key).length ≤ UInt16.size := by
    refine length_le_of_operands hpool hs hnodup hmem fun i hi j hj slot hslot hslot' => ?_
    obtain ⟨a, -, rfl⟩ := List.mem_map.1 hi
    obtain ⟨b, -, rfl⟩ := List.mem_map.1 hj
    exact hdiffer a b slot hslot hslot'
  rw [boundLabels_append, boundLabels_append, hpre, hpost, boundLabels_flatMap_zipIdx hpart,
    List.nil_append, List.append_nil]
  exact nodup_labels (by simpa using hlength)

namespace Plan

variable (p : Plan)

/-! ## State, changes and fetch groups -/

/-- The accessors of a state field are typed. -/
theorem property_wellTyped {f : StateField} {getter setter : String} (hf : f.type.WellFormed)
    (hvoid : f.type ≠ .void) (hgetter : getter ≠ constructorName)
    (hsetter : setter ≠ constructorName) {m : MethodDecl}
    (hm : .method m ∈ p.property f getter setter) : m.WellTyped p.className := by
  unfold property at hm
  rcases List.mem_pair.1 hm with hm | hm
  · obtain rfl := MemberDecl.method.inj hm
    refine .of_instance (fun _ => default) (Names.ofText_getterOf hf) Access.isStatic_publicFlag
      hgetter ?_ fun _ _ _ _ _ => List.nodup_nil
    simp [loadState, Descriptor.ofText_text hf, hvoid]
  · obtain rfl := MemberDecl.method.inj hm
    refine .of_instance (fun _ => default) (Names.ofText_setterOf hf hvoid)
      Access.isStatic_publicFlag hsetter ?_ fun _ _ _ _ _ => List.nodup_nil
    simp [Descriptor.ofText_text hf, hvoid, accepts_ofDescriptor hvoid]

theorem propertyChange_wellTyped : p.propertyChange.WellTyped p.className := by
  refine .of_instance (fun _ => ⟨[.object p.className, .object "java/lang/String",
    .object Names.object, .object Names.object], []⟩) Names.ofText_propertyChangeDesc
    Access.isStatic_publicFlag (show Names.propertyChange ≠ constructorName by decide) ?_
    fun _ _ _ _ _ => List.nodup_singleton 0
  simp (disch := decide) [propertyChange, loadState, StateField.listener, Descriptor.ofText_text,
    replace, jumpReach]

theorem resetFetchGroup_wellTyped (thisClass : String) : resetFetchGroup.WellTyped thisClass := by
  refine .of_instance (fun _ => default) Names.ofText_noArgs Access.isStatic_publicFlag (by decide)
    ?_ fun _ _ _ _ _ => List.nodup_nil
  simp [resetFetchGroup]

/-- The answer of the test stands on the stack where its two ways meet. -/
theorem isAttributeFetched_wellTyped : p.isAttributeFetched.WellTyped p.className := by
  refine .of_instance (fun label => ⟨[.object p.className, .object "java/lang/String"],
    if label = 2 then [.integer] else []⟩) Names.ofText_stringTest Access.isStatic_publicFlag
    (show Names.isAttributeFetched ≠ constructorName by decide) ?_
    fun _ _ _ _ _ => show [0, 1, 2].Nodup by decide
  simp (disch := decide) [isAttributeFetched, loadState, StateField.fetchGroup,
    Descriptor.ofText_text, jumpReach]

theorem fetchGuard_wellTyped {name : String} (hname : name ≠ constructorName) (callback : String) :
    (p.fetchGuard name callback).WellTyped p.className := by
  refine .of_instance (fun _ => ⟨[.object p.className, .object "java/lang/String"], []⟩)
    Names.ofText_stringConsumer Access.isStatic_publicFlag hname ?_
    fun _ _ _ _ _ => List.nodup_singleton 0
  simp (disch := decide) [fetchGuard, jumpReach]

/-! ## Construction -/

theorem shallowClone_wellTyped (thisClass : String) : shallowClone.WellTyped thisClass := by
  refine .of_instance (fun _ => default) Names.ofText_objectGetter Access.isStatic_publicFlag
    (by decide) ?_ fun _ _ _ _ _ => List.nodup_nil
  simp (disch := decide) [shallowClone]

theorem factory_wellTyped : p.factory.WellTyped p.className := by
  refine .of_instance (fun _ => default) Names.ofText_factoryDesc Access.isStatic_publicFlag
    (show Names.factory ≠ constructorName by decide) ?_ fun _ _ _ _ _ => ?_
  · unfold factory
    split <;> simp [replace]
  · unfold factory
    split <;> exact List.nodup_nil

/-- The receiver of a constructor is no object of its class until another constructor ran. -/
theorem tokenConstructor_wellTyped (hclass : p.className ≠ VerificationType.rootClass) :
    p.tokenConstructor.WellTyped p.className := by
  refine ⟨⟨⟨[.object Names.persistenceObject], .void⟩, fun _ => default, ?_, ?_⟩,
    fun _ _ _ _ _ => ?_⟩
  · unfold MethodDecl.type tokenConstructor
    simp
  · have hentry : Frame.entry p.className p.tokenConstructor.name
        (Access.isStatic p.tokenConstructor.access) ⟨[.object Names.persistenceObject], .void⟩ =
        ⟨[.uninitializedThis, .object Names.persistenceObject], []⟩ := by
      simp [tokenConstructor, entry, receiver, hclass]
    rw [hentry]
    unfold tokenConstructor
    split <;> simp
  · unfold tokenConstructor
    split <;> exact List.nodup_nil

/-! ## Attributes -/

/-- What the code for an attribute rests on: values of its type exist and can be named, the type of
a lazy attribute is a class, and the application's accessors are no constructors. -/
structure Supports (a : MappedAttribute) : Prop where
  wellFormed : a.type.WellFormed
  value : a.type ≠ .void
  lazy : p.weavesHolder a = true → ∃ name, a.type = .object name
  getter : a.getter ≠ some constructorName
  setter : a.setter ≠ some constructorName

variable {p} {a : MappedAttribute} {thisClass target : String} {labels : Label → Frame}
  {aimed : List Label} {locals stack : List VerificationType} {rest : List Instruction}

theorem Supports.ofText (h : p.Supports a) : Descriptor.ofText a.descriptor = .ok a.type :=
  Descriptor.ofText_text h.wellFormed

theorem holderTarget_eq (h : a.type = .object target) : holderTarget a = target := by
  unfold holderTarget
  rw [h]
  rfl

/-- Checking that an attribute was fetched and copying the value of its holder leave the frame as it
is. -/
theorem typedFrom_accessPrologue (h : p.Supports a) {guard : String}
    (hguard : guard ≠ constructorName) :
    TypedFrom thisClass labels aimed (some ⟨.object p.className :: locals, stack⟩)
        (p.accessPrologue a guard ++ rest) ↔
      TypedFrom thisClass labels aimed (some ⟨.object p.className :: locals, stack⟩) rest := by
  unfold accessPrologue
  rw [List.append_assoc]
  have hsync : TypedFrom thisClass labels aimed (some ⟨.object p.className :: locals, stack⟩)
      ((if p.weavesHolder a then p.syncFromHolder a else []) ++ rest) ↔
      TypedFrom thisClass labels aimed (some ⟨.object p.className :: locals, stack⟩) rest := by
    split
    · next hlazy =>
      obtain ⟨target, htarget⟩ := h.lazy hlazy
      simp (disch := first | assumption | decide | simp) [syncFromHolder, ensureHolder, loadHolder,
        holderCall, h.ofText, htarget]
    · rfl
  split
  · simp [checkFetched, hguard, hsync]
  · exact hsync

theorem boundLabels_accessPrologue (guard : String) :
    boundLabels (p.accessPrologue a guard) = [] := by
  unfold accessPrologue
  split <;> split <;> rfl

/-- A boxed value of a type. -/
def boxed (d : Descriptor) : VerificationType :=
  match d.wrapper? with
  | some wrapper => .object wrapper
  | none => .ofDescriptor d

theorem isReference_boxed {d : Descriptor} (h : d ≠ .void) : (boxed d).isReference = true := by
  cases d <;> first | rfl | exact absurd rfl h

theorem typedFrom_boxCode {d : Descriptor} (hd : d ≠ .void) :
    TypedFrom thisClass labels aimed (some ⟨locals, .ofDescriptor d :: stack⟩)
        (d.boxCode ++ rest) ↔
      TypedFrom thisClass labels aimed (some ⟨locals, boxed d :: stack⟩) rest := by
  unfold Descriptor.boxCode boxed
  cases hw : d.wrapper? with
  | none => rfl
  | some wrapper =>
    simp [Names.ofText_boxingDesc hw, accepts_ofDescriptor hd]

/-- Announcing a change leaves the frame of a setter as it is. -/
theorem typedFrom_announceChange (h : p.Supports a) :
    TypedFrom thisClass labels aimed (some ⟨.object p.className :: valueSlots (.ofDescriptor a.type),
        []⟩) (p.announceChange a ++ rest) ↔
      TypedFrom thisClass labels aimed (some ⟨.object p.className ::
        valueSlots (.ofDescriptor a.type), []⟩) rest := by
  have hvalue := h.value
  unfold announceChange announce
  simp only [List.append_assoc, List.cons_append, List.nil_append]
  simp +decide [h.ofText, hvalue, typedFrom_boxCode, isReference_boxed]

theorem fieldGetter_wellTyped (h : p.Supports a) : (p.fieldGetter a).WellTyped p.className := by
  have hvalue := h.value
  refine .of_instance (fun _ => default) (Names.ofText_getterOf h.wellFormed)
    Access.isStatic_publicFlag (Names.fieldGetter_ne _) ?_ fun _ _ _ _ _ => ?_
  · unfold fieldGetter
    rw [typedFrom_accessPrologue h (by decide)]
    simp [h.ofText, hvalue]
  · unfold fieldGetter
    rw [boundLabels_append, boundLabels_accessPrologue]
    exact List.nodup_nil

theorem fieldSetter_wellTyped (h : p.Supports a) : (p.fieldSetter a).WellTyped p.className := by
  have hvalue := h.value
  refine .of_instance (fun _ => default) (Names.ofText_setterOf h.wellFormed h.value)
    Access.isStatic_publicFlag (Names.fieldSetter_ne _) ?_ fun _ _ _ _ _ => ?_
  · have hassign : TypedFrom p.className (fun _ => default) [] (some ⟨.object p.className ::
        valueSlots (.ofDescriptor a.type), []⟩)
        ([aload 0, load a.type 1, putField p.className a.name a.descriptor] ++
          ((if p.weavesHolder a then
            p.loadHolder a ++ [aload 1] ++ holderCall "setValue" Names.objectConsumer
          else []) ++ [simple .returnVoid])) := by
      split
      · next hlazy =>
        obtain ⟨target, htarget⟩ := h.lazy hlazy
        simp +decide [htarget, h.ofText, loadHolder, holderCall]
      · simp [h.ofText, hvalue, accepts_ofDescriptor hvalue]
    unfold fieldSetter
    simp only [List.append_assoc] at hassign ⊢
    rw [typedFrom_accessPrologue h (by decide), List.flatMap_singleton]
    split
    · rw [typedFrom_announceChange h]
      exact hassign
    · exact hassign
  · unfold fieldSetter
    simp only [boundLabels_append, boundLabels_accessPrologue, List.nil_append]
    have hannounce : boundLabels (if p.changeTracking then p.announceChange a else []) = [] := by
      split
      · simp only [announceChange, boundLabels_append, boundLabels_boxCode]
        rfl
      · rfl
    have hholder : boundLabels (if p.weavesHolder a then
        p.loadHolder a ++ [aload 1] ++ holderCall "setValue" Names.objectConsumer else []) = [] := by
      split <;> rfl
    rw [hannounce, hholder]
    exact List.nodup_nil

/-! ## Holders -/

theorem Supports.getterName (h : p.Supports a) {name : String} (hname : a.getterName? = some name) :
    name ≠ constructorName := by
  rintro rfl
  exact h.getter (Option.filter_eq_some_iff.1 hname).1

theorem Supports.setterName (h : p.Supports a) {name : String} (hname : a.setterName? = some name) :
    name ≠ constructorName := by
  rintro rfl
  exact h.setter (Option.filter_eq_some_iff.1 hname).1

theorem holderInitializer_wellTyped (h : p.Supports a) (hlazy : p.weavesHolder a = true) :
    (p.holderInitializer a).WellTyped p.className := by
  obtain ⟨target, htarget⟩ := h.lazy hlazy
  refine .of_instance (fun _ => ⟨[.object p.className], []⟩) Names.ofText_noArgs
    Access.isStatic_protectedFlag (Names.holderInitializer_ne _) ?_ fun _ _ _ _ _ => ?_
  · cases hfield : a.hasField <;>
      simp +decide [holderInitializer, loadHolder, holderCall, hfield, h.ofText, htarget, replace,
        jumpReach]
  · cases hfield : a.hasField <;> simp only [holderInitializer, hfield] <;>
      exact List.nodup_singleton 0

/-- The descriptors of the accessors of a class. -/
theorem ofText_accessors (hwell : (Descriptor.object target).WellFormed) :
    MethodDescriptor.ofText (Names.getterOf ("L" ++ target ++ ";")) = .ok ⟨[], .object target⟩ ∧
      MethodDescriptor.ofText (Names.setterOf ("L" ++ target ++ ";")) =
        .ok ⟨[.object target], .void⟩ := by
  rw [Names.object_text]
  exact ⟨Names.ofText_getterOf hwell, Names.ofText_setterOf hwell (by simp)⟩

theorem typedFrom_callGetter (h : p.Supports a) (htarget : a.type = .object target) :
    TypedFrom thisClass labels aimed (some ⟨.object p.className :: locals, stack⟩)
        (p.callGetter a ++ rest) ↔
      TypedFrom thisClass labels aimed
        (some ⟨.object p.className :: locals, .object target :: stack⟩) rest := by
  obtain ⟨hget, -⟩ := ofText_accessors (htarget ▸ h.wellFormed)
  unfold callGetter
  cases hg : a.getterName? with
  | none => simp [holderTarget_eq htarget, hget]
  | some getter =>
    have hne := h.getterName hg
    cases hk : a.usesKeyedAccessors <;> simp [holderTarget_eq htarget, hget, hne]

/-- The value that a setter is called with is a reference. -/
theorem typedFrom_callSetter (h : p.Supports a) (htarget : a.type = .object target)
    {value : List Instruction} {name : String}
    (hvalue : ∀ stack rest,
      TypedFrom thisClass labels aimed (some ⟨.object p.className :: locals, stack⟩)
          (value ++ rest) ↔
        TypedFrom thisClass labels aimed
          (some ⟨.object p.className :: locals, .object name :: stack⟩) rest) :
    TypedFrom thisClass labels aimed (some ⟨.object p.className :: locals, stack⟩)
        (p.callSetter a value ++ rest) ↔
      TypedFrom thisClass labels aimed (some ⟨.object p.className :: locals, stack⟩) rest := by
  obtain ⟨-, hset⟩ := ofText_accessors (htarget ▸ h.wellFormed)
  unfold callSetter
  cases hs : a.setterName? with
  | none => simp [holderTarget_eq htarget, hvalue, hset]
  | some setter =>
    have hne := h.setterName hs
    cases hk : a.usesKeyedAccessors <;> simp [holderTarget_eq htarget, hvalue, hset, hne]

theorem boundLabels_ensureHolder : boundLabels (p.ensureHolder a) = [] := rfl

theorem boundLabels_loadHolder : boundLabels (p.loadHolder a) = [] := rfl

theorem boundLabels_holderCall (method descriptor : String) :
    boundLabels (holderCall method descriptor) = [] := rfl

theorem boundLabels_callGetter : boundLabels (p.callGetter a) = [] := by
  unfold callGetter
  dsimp only
  split <;> (try split) <;> rfl

theorem boundLabels_callSetter {value : List Instruction} (hvalue : boundLabels value = []) :
    boundLabels (p.callSetter a value) = [] := by
  have hcall : ∀ pre call, boundLabels pre = [] → boundLabels call = [] →
      boundLabels (pre ++ value ++ call) = [] := fun pre call hpre hcall => by
    simp only [boundLabels_append, hpre, hvalue, hcall, List.append_nil]
  unfold callSetter
  dsimp only
  split
  · split
    · exact hcall [aload 0, ldcString a.name] _ rfl rfl
    · exact hcall [aload 0] _ rfl rfl
  · exact hcall [aload 0] _ rfl rfl

theorem mem_take_append {i : Instruction} {xs ys : List Instruction} {n k : Nat}
    (hlength : xs.length ≤ k) (hn : k ≤ n) (h : i ∈ ys.take (n - k)) : i ∈ (xs ++ ys).take n := by
  rw [List.take_append, List.mem_append]
  exact .inr (List.take_subset_take_left ys (by omega) h)

theorem mem_take_of_length_lt {i : Instruction} {xs ys : List Instruction} {n : Nat}
    (h : xs.length < n) : i ∈ (xs ++ i :: ys).take n := by
  refine mem_take_append (le_refl _) h.le ?_
  obtain ⟨m, hm⟩ := Nat.exists_eq_succ_of_ne_zero (Nat.sub_ne_zero_of_lt h)
  rw [hm, List.take_succ_cons]
  exact List.mem_cons_self

/-- A mark that is near behind a call of a getter is near before it. -/
theorem mem_take_callGetter {i : Instruction} {n : Nat} (hn : 4 ≤ n) (h : i ∈ rest.take (n - 4)) :
    i ∈ (p.callGetter a ++ rest).take n := by
  refine mem_take_append ?_ hn h
  unfold callGetter
  dsimp only
  split <;> (try split) <;> simp

theorem mem_take_callSetter {i : Instruction} {value : List Instruction} {n : Nat}
    (hvalue : value.length ≤ 2) (hn : 6 ≤ n) (h : i ∈ rest.take (n - 6)) :
    i ∈ (p.callSetter a value ++ rest).take n := by
  refine mem_take_append ?_ hn h
  unfold callSetter
  dsimp only
  split <;> (try split) <;> simp <;> omega

/-- The ways to the last part of the getter meet with and without the value of the attribute in a
local. -/
theorem holderGetter_wellTyped (h : p.Supports a) (hlazy : p.weavesHolder a = true) :
    (p.holderGetter a).WellTyped p.className := by
  obtain ⟨target, htarget⟩ := h.lazy hlazy
  have hwrite : write 1 (.object target) [.object p.className] =
      [.object p.className, .object target] := rfl
  have hvalue : ∀ stack rest,
      TypedFrom p.className (fun _ => ⟨[.object p.className], []⟩) [1, 1, 0]
          (some ⟨[.object p.className, .object target], stack⟩) ([aload 1] ++ rest) ↔
        TypedFrom p.className (fun _ => ⟨[.object p.className], []⟩) [1, 1, 0]
          (some ⟨[.object p.className, .object target], .object target :: stack⟩) rest :=
    fun _ _ => by simp
  refine .of_instance (fun _ => ⟨[.object p.className], []⟩) Names.ofText_getterOf_holder
    Access.isStatic_publicFlag (Names.holderGetter_ne _) ?_ fun _ _ _ _ _ => ?_
  · simp +decide [holderGetter, ensureHolder, loadHolder, holderCall, typedFrom_callGetter h htarget,
      typedFrom_callSetter h htarget hvalue, hwrite, below_of_prefix, jumpReach,
      mem_take_callSetter]
    exact mem_take_callGetter (by decide) (by simp +decide [mem_take_callSetter])
  · have hlabels : boundLabels (p.holderGetter a).body = [0, 1] := by
      have hpush : boundLabels [aload 1] = [] := rfl
      simp only [holderGetter, boundLabels_append, boundLabels_ensureHolder, boundLabels_loadHolder,
        boundLabels_holderCall, boundLabels_callGetter, boundLabels_callSetter hpush,
        List.nil_append, List.append_nil]
      rfl
    rw [hlabels]
    decide

/-- The two values that the setter compares stand in locals, which only the part that calls the
setter of the attribute reads. -/
theorem holderSetter_wellTyped (h : p.Supports a) (hlazy : p.weavesHolder a = true) :
    (p.holderSetter a).WellTyped p.className := by
  obtain ⟨target, htarget⟩ := h.lazy hlazy
  have hwrite : write 2 (.object target) [.object p.className, .object Names.holderInterface] =
      [.object p.className, .object Names.holderInterface, .object target] := rfl
  have hwrite' : write 3 (.object Names.object) [.object p.className,
      .object Names.holderInterface, .object target] =
      [.object p.className, .object Names.holderInterface, .object target,
        .object Names.object] := rfl
  have hvalue : ∀ (labels : Label → Frame) aimed stack rest,
      TypedFrom p.className labels aimed (some ⟨[.object p.className,
          .object Names.holderInterface, .object target, .object Names.object], stack⟩)
          ([aload 3, checkCast (holderTarget a)] ++ rest) ↔
        TypedFrom p.className labels aimed (some ⟨[.object p.className,
          .object Names.holderInterface, .object target, .object Names.object],
          .object target :: stack⟩) rest :=
    fun _ _ _ _ => by simp [holderTarget_eq htarget]
  refine .of_instance (fun _ => ⟨[.object p.className, .object Names.holderInterface], []⟩)
    Names.ofText_setterOf_holder Access.isStatic_publicFlag (Names.holderSetter_ne _) ?_
    fun _ _ _ _ _ => ?_
  · cases hsetter : a.setterName?.isSome <;> cases hfield : a.hasField <;>
      simp +decide [holderSetter, holderCall, typedFrom_callGetter h htarget,
        typedFrom_callSetter h htarget (hvalue _ _), hwrite, hwrite', below_of_prefix, jumpReach,
        mem_take_callSetter, hsetter, hfield, h.ofText, htarget] <;>
      exact mem_take_callGetter (by decide) (by simp +decide [mem_take_callSetter])
  · have hpush : boundLabels [aload 3, checkCast (holderTarget a)] = [] := rfl
    have hlabels : boundLabels (p.holderSetter a).body =
        if a.setterName?.isSome then [0] else [1, 0, 2] := by
      cases hsetter : a.setterName?.isSome <;> cases hfield : a.hasField <;>
        simp only [holderSetter, hsetter, hfield, boundLabels_append, boundLabels_callGetter,
          boundLabels_callSetter hpush, if_true, Bool.false_eq_true, if_false] <;>
        rfl
    rw [hlabels]
    split <;> decide

/-- The members of an attribute are typed. -/
theorem attributeMembers_wellTyped (h : p.Supports a) {m : MethodDecl}
    (hm : .method m ∈ p.attributeMembers a) : m.WellTyped p.className := by
  unfold attributeMembers at hm
  rcases List.mem_append.1 hm with hm | hm <;> split at hm
  case inl.isTrue hlazy =>
    simp only [List.mem_cons, reduceCtorEq, MemberDecl.method.injEq, List.not_mem_nil, false_or,
      or_false] at hm
    rcases hm with rfl | rfl | rfl
    · exact holderInitializer_wellTyped h hlazy
    · exact holderGetter_wellTyped h hlazy
    · exact holderSetter_wellTyped h hlazy
  case inr.isTrue =>
    simp only [List.mem_cons, MemberDecl.method.injEq, List.not_mem_nil, or_false] at hm
    rcases hm with rfl | rfl
    · exact fieldGetter_wellTyped h
    · exact fieldSetter_wellTyped h
  all_goals cases hm

/-! ## One part for each attribute -/

variable {xs : List (MappedAttribute × Nat)}

/-- Cloning holders leaves the frame of the method as it is. -/
theorem typedFrom_cloneHolders (hlabels : ∀ label, labels label = ⟨.object p.className :: locals, []⟩)
    (hrest : ∀ aimed,
      TypedFrom thisClass labels aimed (some ⟨.object p.className :: locals, []⟩) rest) :
    TypedFrom thisClass labels aimed (some ⟨.object p.className :: locals, []⟩)
      (xs.flatMap (fun (a, i) => p.cloneHolder a (UInt32.ofNat i)) ++ rest) := by
  induction xs generalizing aimed with
  | nil => exact hrest aimed
  | cons x xs ih =>
    rw [List.flatMap_cons, List.append_assoc]
    simp +decide [cloneHolder, hlabels, jumpReach]
    exact ih

/-- A dispatcher is typed if each of its alternatives returns and what follows them is typed. -/
theorem typedFrom_dispatchAll (code : MappedAttribute → List Instruction)
    (hlabels : ∀ label, labels label = ⟨locals, []⟩)
    (hkey : slotOf locals 1 = .object "java/lang/String")
    (hlength : ∀ a, (code a).length < jumpReach)
    (hcode : ∀ a ∈ p.keyedAttributes, ∀ aimed rest, TypedFrom thisClass labels aimed none rest →
      TypedFrom thisClass labels aimed (some ⟨locals, []⟩) (code a ++ rest))
    (hrest : ∀ aimed, TypedFrom thisClass labels aimed (some ⟨locals, []⟩) rest) :
    TypedFrom thisClass labels aimed (some ⟨locals, []⟩) (p.dispatchAll code ++ rest) := by
  have hkeyed : ∀ x ∈ p.keyedAttributes.zipIdx, x.1 ∈ p.keyedAttributes := fun x hx =>
    List.mem_of_getElem? (List.mem_zipIdx_iff_getElem?.1 hx)
  unfold dispatchAll
  generalize p.keyedAttributes.zipIdx = xs at hkeyed
  induction xs generalizing aimed with
  | nil => exact hrest aimed
  | cons x xs ih =>
    obtain ⟨a, i⟩ := x
    rw [List.flatMap_cons, List.append_assoc]
    have htail := fun aimed => @ih aimed fun y hy => hkeyed y (List.mem_cons_of_mem _ hy)
    generalize xs.flatMap _ ++ rest = tail at htail ⊢
    have hnear : (.mark (UInt32.ofNat i) : Instruction) ∈
        (code a ++ .mark (UInt32.ofNat i) :: tail).take jumpReach :=
      mem_take_of_length_lt (hlength a)
    have hfirst := hcode a (hkeyed _ List.mem_cons_self) (UInt32.ofNat i :: aimed)
      (.mark (UInt32.ofNat i) :: tail) (by simpa [hlabels] using htail _)
    simpa [dispatch, hlabels, hkey] using ⟨hnear, hfirst⟩

/-- Casting and unboxing an object leaves a value of the attribute's type. -/
theorem typedFrom_unboxCode (h : p.Supports a) {name : String} :
    TypedFrom thisClass labels aimed (some ⟨locals, .object name :: stack⟩)
        (a.unboxCode ++ rest) ↔
      TypedFrom thisClass labels aimed (some ⟨locals, .ofDescriptor a.type :: stack⟩) rest := by
  have hget : MethodDescriptor.ofText (Names.getterOf a.descriptor) = .ok ⟨[], a.type⟩ :=
    Names.ofText_getterOf h.wellFormed
  have hne := h.value
  unfold MappedAttribute.unboxCode MappedAttribute.castTarget
  cases htype : a.type with
  | void => exact absurd htype hne
  | object | array =>
    simp [Descriptor.wrapper?, Descriptor.unboxMethod?, Descriptor.classOperand?,
      VerificationType.ofDescriptor]
  | boolean | byte | char | short | int | long | float | double =>
    rw [htype] at hget
    simp +decide [Descriptor.wrapper?, Descriptor.unboxMethod?, hget]

/-- The names of the attributes stand in a dispatcher. -/
theorem nodup_boundLabels_dispatchAll (hnames : (p.ownAttributes.map MappedAttribute.name).Nodup)
    {code : MappedAttribute → List Instruction} (hcode : ∀ a, boundLabels (code a) = [])
    (hrest : boundLabels rest = []) {pool pool' : Pool} {operands : List UInt16}
    (hpool : pool.Built)
    (hs : Succeeds ((p.dispatchAll code ++ rest).mapM internOperand) pool operands pool') :
    (boundLabels (p.dispatchAll code ++ rest)).Nodup := by
  have hkeys : (p.keyedAttributes.map fun a => ldcString a.name).Nodup := by
    have hkeyed : (p.keyedAttributes.map MappedAttribute.name).Nodup :=
      hnames.sublist (List.filter_sublist.map _)
    have hnodup := hkeyed.map fun _ _ => ldcString.inj
    rwa [List.map_map] at hnodup
  refine @nodup_boundLabels_of_operands _ _ (fun a => ldcString a.name) _ [] _ _ _ _
    (fun x => ?_) rfl hrest (fun x => ?_) hkeys ?_ hpool hs
  · simp only [dispatch, boundLabels_append, hcode]
    rfl
  · simp [dispatch]
  · rintro x y slot ⟨n, hn, hx⟩ ⟨n', hn', hy⟩
    obtain rfl := Constant.string.inj (Option.some.inj (hn.symm.trans hn'))
    exact congrArg ldcString (Except.ok.inj (hx.symm.trans hy))

/-- The fields of the holders stand in the code that clones them. -/
theorem nodup_boundLabels_cloneHolders (hnames : (p.ownAttributes.map MappedAttribute.name).Nodup)
    {pre : List Instruction} (hpre : boundLabels pre = []) (hrest : boundLabels rest = [])
    {pool pool' : Pool} {operands : List UInt16} (hpool : pool.Built)
    (hs : Succeeds ((pre ++ p.lazyAttributes.zipIdx.flatMap
        (fun (a, i) => p.cloneHolder a (UInt32.ofNat i)) ++ rest).mapM internOperand) pool operands
      pool') :
    (boundLabels (pre ++ p.lazyAttributes.zipIdx.flatMap
      (fun (a, i) => p.cloneHolder a (UInt32.ofNat i)) ++ rest)).Nodup := by
  have hinj : Function.Injective fun name =>
      getField p.className (Names.holderField name) Names.holderInterfaceDesc := by
    intro x y hxy
    exact Names.holderField_inj.1 (MemberRef.mk.inj (field.inj hxy).2).2.1
  have hkeys : (p.lazyAttributes.map fun a =>
      getField p.className (Names.holderField a.name) Names.holderInterfaceDesc).Nodup := by
    have hlazy : (p.lazyAttributes.map MappedAttribute.name).Nodup :=
      hnames.sublist (List.filter_sublist.map _)
    have hnodup := hlazy.map hinj
    rwa [List.map_map] at hnodup
  refine @nodup_boundLabels_of_operands _ (fun (a, i) => p.cloneHolder a (UInt32.ofNat i))
    (fun a => getField p.className (Names.holderField a.name) Names.holderInterfaceDesc) _ _ _ _ _ _
    (fun _ => rfl) hpre hrest (fun x => ?_) hkeys ?_ hpool hs
  · simp [cloneHolder]
  · intro x y slot hx hy
    have hnames := (Prod.mk.inj (Prod.mk.inj (Except.ok.inj (hx.symm.trans hy))).2).1
    exact congrArg (getField p.className · Names.holderInterfaceDesc) hnames

theorem nodup_boundLabels_genericGet (hnames : (p.ownAttributes.map MappedAttribute.name).Nodup)
    {pool pool' : Pool} {operands : List UInt16} (hpool : pool.Built)
    (hs : Succeeds (p.genericGet.body.mapM internOperand) pool operands pool') :
    (boundLabels p.genericGet.body).Nodup := by
  simp only [genericGet, List.append_assoc] at hs ⊢
  refine nodup_boundLabels_dispatchAll hnames (fun a => ?_) ?_ hpool hs
  · simp only [boundLabels_append, boundLabels_boxCode]
    rfl
  · unfold inheritedGet
    split <;> rfl

theorem genericGet_wellTyped (h : ∀ a ∈ p.ownAttributes, p.Supports a)
    (hnames : (p.ownAttributes.map MappedAttribute.name).Nodup) :
    p.genericGet.WellTyped p.className := by
  refine .of_instance (fun _ => ⟨[.object p.className, .object "java/lang/String"], []⟩)
    Names.ofText_keyedGetter Access.isStatic_publicFlag
    (show Names.genericGet ≠ constructorName by decide) ?_ fun _ _ _ hpool hs => ?_
  · unfold genericGet
    rw [List.append_assoc]
    refine typedFrom_dispatchAll _ (fun _ => rfl) rfl ?_ ?_ ?_
    · intro a
      have hbox := a.type.length_boxCode_le
      simp [jumpReach]
      omega
    · intro a ha aimed rest hrest
      have ha := h a (List.mem_of_mem_filter ha)
      simpa [ha.ofText, typedFrom_boxCode ha.value, isReference_boxed ha.value] using hrest
    · intro aimed
      unfold inheritedGet
      split <;> simp +decide
  · exact nodup_boundLabels_genericGet hnames hpool hs

theorem nodup_boundLabels_genericSet (hnames : (p.ownAttributes.map MappedAttribute.name).Nodup)
    {pool pool' : Pool} {operands : List UInt16} (hpool : pool.Built)
    (hs : Succeeds (p.genericSet.body.mapM internOperand) pool operands pool') :
    (boundLabels p.genericSet.body).Nodup := by
  simp only [genericSet, List.append_assoc] at hs ⊢
  refine nodup_boundLabels_dispatchAll hnames (fun a => ?_) ?_ hpool hs
  · simp only [boundLabels_append, boundLabels_unboxCode]
    rfl
  · unfold inheritedSet
    split <;> rfl

theorem genericSet_wellTyped (h : ∀ a ∈ p.ownAttributes, p.Supports a)
    (hnames : (p.ownAttributes.map MappedAttribute.name).Nodup) :
    p.genericSet.WellTyped p.className := by
  refine .of_instance (fun _ =>
    ⟨[.object p.className, .object "java/lang/String", .object Names.object], []⟩)
    Names.ofText_genericSetDesc Access.isStatic_publicFlag
    (show Names.genericSet ≠ constructorName by decide) ?_ fun _ _ _ hpool hs => ?_
  · unfold genericSet
    rw [List.append_assoc]
    refine typedFrom_dispatchAll _ (fun _ => rfl) rfl ?_ ?_ ?_
    · intro a
      have hunbox := a.length_unboxCode_le
      simp [jumpReach]
      omega
    · intro a ha aimed rest hrest
      have ha := h a (List.mem_of_mem_filter ha)
      simpa [ha.ofText, typedFrom_unboxCode ha, accepts_ofDescriptor ha.value] using hrest
    · intro aimed
      unfold inheritedSet
      split <;> simp +decide
  · exact nodup_boundLabels_genericSet hnames hpool hs

theorem postClone_wellTyped (hnames : (p.ownAttributes.map MappedAttribute.name).Nodup) :
    p.postClone.WellTyped p.className := by
  refine .of_instance (fun _ => ⟨[.object p.className], []⟩) Names.ofText_objectGetter
    Access.isStatic_publicFlag (show Names.postClone ≠ constructorName by decide) ?_
    fun _ _ _ hpool hs => ?_
  · have hstate : ∀ aimed, TypedFrom p.className (fun _ => ⟨[.object p.className], []⟩) aimed
        (some ⟨[.object p.className], []⟩)
        (p.ownState.flatMap p.clearState ++ [aload 0, simple .areturn]) := by
      intro aimed
      unfold ownState
      split <;> split <;> split <;>
        simp (disch := decide) [clearState, StateField.listener, StateField.fetchGroup,
          StateField.session, StateField.primaryKey, Descriptor.ofText_text]
    unfold postClone
    simp only [List.append_assoc]
    split
    · simpa +decide using typedFrom_cloneHolders (fun _ => rfl) hstate
    · exact typedFrom_cloneHolders (fun _ => rfl) hstate
  · simp only [postClone, List.append_assoc _ _ [aload 0, simple .areturn]] at hs ⊢
    refine nodup_boundLabels_cloneHolders hnames ?_ ?_ hpool hs
    · split <;> rfl
    · unfold ownState
      split <;> split <;> split <;> rfl

/-! ## All members -/

variable (p) in
/-- What the code for a class rests on: values of the attributes exist and can be named, the types
of lazy attributes are classes, and neither the class nor an accessor has a name of the platform. -/
structure Supported : Prop where
  className : p.className ≠ VerificationType.rootClass
  types : ∀ a ∈ p.ownAttributes, a.type.WellFormed ∧ a.type ≠ .void
  lazyTypes : ∀ a ∈ p.lazyAttributes, ∃ name, a.type = .object name
  accessors : ∀ a ∈ p.ownAttributes,
    a.getter ≠ some constructorName ∧ a.setter ≠ some constructorName

variable (p) in
/-- The methods that can be synthesized for a class, whether or not its mapping asks for them. -/
def Synthesizes (m : MethodDecl) : Prop :=
  .method m ∈ p.internalMembers ∨ (∃ a ∈ p.ownAttributes, .method m ∈ p.attributeMembers a) ∨
    .method m ∈ p.changeTrackingMembers ∨ .method m ∈ p.fetchGroupMembers ∨
    .method m ∈ p.restMembers

theorem Supported.supports (h : p.Supported) (ha : a ∈ p.ownAttributes) : p.Supports a where
  wellFormed := (h.types a ha).1
  value := (h.types a ha).2
  lazy hlazy := h.lazyTypes a (List.mem_filter.2 ⟨ha, hlazy⟩)
  getter := (h.accessors a ha).1
  setter := (h.accessors a ha).2

variable {m : MethodDecl}

theorem identityMembers_wellTyped (hm : .method m ∈ p.identityMembers) :
    m.WellTyped p.className := by
  unfold identityMembers at hm
  rcases List.mem_append.1 hm with hm | hm
  · rcases List.mem_append.1 hm with hm | hm
    · simp [StateField.decl] at hm
    · exact p.property_wellTyped (by decide) (by decide) (by decide) (by decide) hm
  · exact p.property_wellTyped (by decide) (by decide) (by decide) (by decide) hm

theorem internalMembers_wellTyped (h : p.Supported)
    (hnames : (p.ownAttributes.map MappedAttribute.name).Nodup)
    (hm : .method m ∈ p.internalMembers) : m.WellTyped p.className := by
  have hsupports : ∀ a ∈ p.ownAttributes, p.Supports a := fun a ha => h.supports ha
  unfold internalMembers lifecycleMembers at hm
  simp only [List.mem_append, List.mem_cons, MemberDecl.method.injEq, List.not_mem_nil,
    or_false] at hm
  rcases hm with (((rfl | hm) | rfl) | hm) | rfl | rfl
  · exact postClone_wellTyped hnames
  · split at hm
    · rcases List.mem_cons.1 hm with hm | hm
      · obtain rfl := MemberDecl.method.inj hm
        exact shallowClone_wellTyped p.className
      · split at hm
        · cases hm
        · exact identityMembers_wellTyped hm
    · cases hm
  · exact p.factory_wellTyped
  · split at hm
    · obtain rfl := MemberDecl.method.inj (List.mem_singleton.1 hm)
      exact p.tokenConstructor_wellTyped h.className
    · cases hm
  · exact genericGet_wellTyped hsupports hnames
  · exact genericSet_wellTyped hsupports hnames

theorem changeTrackingMembers_wellTyped (hm : .method m ∈ p.changeTrackingMembers) :
    m.WellTyped p.className := by
  unfold changeTrackingMembers at hm
  rcases List.mem_append.1 hm with hm | hm
  · rcases List.mem_append.1 hm with hm | hm
    · simp [StateField.decl] at hm
    · exact p.property_wellTyped (by decide) (by decide) (by decide) (by decide) hm
  · obtain rfl := MemberDecl.method.inj (List.mem_singleton.1 hm)
    exact p.propertyChange_wellTyped

theorem fetchGroupMembers_wellTyped (hm : .method m ∈ p.fetchGroupMembers) :
    m.WellTyped p.className := by
  unfold fetchGroupMembers at hm
  simp only [List.mem_append, or_assoc] at hm
  rcases hm with hm | hm | hm | hm | hm
  · simp [StateField.decl] at hm
  · exact p.property_wellTyped (by decide) (by decide) (by decide) (by decide) hm
  · exact p.property_wellTyped (by decide) (by decide) (by decide) (by decide) hm
  · exact p.property_wellTyped (by decide) (by decide) (by decide) (by decide) hm
  · simp only [List.mem_cons, MemberDecl.method.injEq, List.not_mem_nil, or_false] at hm
    rcases hm with rfl | rfl | rfl | rfl
    · exact resetFetchGroup_wellTyped p.className
    · exact p.isAttributeFetched_wellTyped
    · exact p.fetchGuard_wellTyped (by decide) _
    · exact p.fetchGuard_wellTyped (by decide) _

theorem restMembers_wellTyped (hm : .method m ∈ p.restMembers) : m.WellTyped p.className := by
  unfold restMembers at hm
  simp only [List.mem_append, or_assoc] at hm
  rcases hm with hm | hm | hm | hm
  · simp [StateField.decl] at hm
  · exact p.property_wellTyped (by decide) (by decide) (by decide) (by decide) hm
  · exact p.property_wellTyped (by decide) (by decide) (by decide) (by decide) hm
  · exact p.property_wellTyped (by decide) (by decide) (by decide) (by decide) hm

theorem synthesizes_wellTyped (h : p.Supported)
    (hnames : (p.ownAttributes.map MappedAttribute.name).Nodup) (hm : p.Synthesizes m) :
    m.WellTyped p.className := by
  rcases hm with hm | ⟨a, ha, hm⟩ | hm | hm | hm
  · exact internalMembers_wellTyped h hnames hm
  · exact attributeMembers_wellTyped (h.supports ha) hm
  · exact changeTrackingMembers_wellTyped hm
  · exact fetchGroupMembers_wellTyped hm
  · exact restMembers_wellTyped hm

/-- Emitting a synthesized method for a class of a validated model succeeds, or the pool or the
code meets its limit. -/
theorem synthesizes_emitted {classes : List MappedClass} {model : Model}
    (hmodel : Model.ofClasses classes = .ok model) (hclass : p.mapped ∈ model.classes)
    (h : p.Supported) (hm : p.Synthesizes m) (withFrames : Bool) {pool : Pool}
    (hpool : pool.Built) : m.Emitted p.className withFrames pool := by
  have hnames := (Model.validated_of_ofClasses hmodel).attributeNames p.mapped hclass
  exact (synthesizes_wellTyped h (hnames.sublist (List.filter_sublist.map _)) hm).emitted
    withFrames hpool

end Plan

namespace Sample

/-- A class with an attribute of two slots and a lazy one. -/
def owned : MappedClass :=
  { name := "A", internal := true, valueHolders := true, changeTracking := true
    attributes :=
      [ { name := "id", type := .long },
        { name := "owner", type := .object "B", getter := some "getOwner", valueHolders := true } ] }

def ownedPlan : Plan :=
  { mapped := owned, superName := Names.object, changeTracking := true
    superclassTracksChanges := false, superclassInternal := false
    superclassConstructorOptimization := false, xmlTransient := false }

end Sample

/-- The method that writes both attributes by name is emitted into an empty pool. -/
theorem Plan.synthesizes_emitted_sample :
    Sample.ownedPlan.genericSet.Emitted "A" true Pool.empty := by
  have hmodel : ∃ m, Model.ofClasses [Sample.owned] = .ok m ∧ Sample.owned ∈ m.classes := by
    decide +kernel
  obtain ⟨m, hm, hmem⟩ := hmodel
  have hsupported : Sample.ownedPlan.Supported :=
    { className := by decide
      types := by decide +kernel
      lazyTypes := fun a ha => by
        have hlazy : Sample.ownedPlan.lazyAttributes = [Sample.owned.attributes[1]] := by
          decide +kernel
        rw [hlazy, List.mem_singleton] at ha
        exact ⟨"B", ha ▸ rfl⟩
      accessors := by decide }
  exact synthesizes_emitted hm hmem hsupported (.inl (by decide +kernel)) true .empty

end EntityLoom
