import EntityLoom.Proofs.Machine.Boxing
import EntityLoom.Proofs.Weaving.Outcome
import EntityLoom.Proofs.Weaving.TypedBodies

/-!
# Keyed access

The methods that read and write attributes by name, run on an object.
-/

namespace EntityLoom

open Machine Instruction

/-! ## Emitted bodies -/

/-- The method was assembled for a class. -/
def MethodDecl.IsEmitted (m : MethodDecl) (thisClass : String) : Prop :=
  ∃ withFrames pool body pool', pool.Built ∧ Succeeds (m.assemble thisClass withFrames) pool body pool'

theorem MethodDecl.IsEmitted.operands {m : MethodDecl} {thisClass : String}
    (h : m.IsEmitted thisClass) : ∃ pool operands pool', pool.Built ∧
      Succeeds (m.body.mapM Instruction.internOperand) pool operands pool' := by
  obtain ⟨withFrames, pool, body, pool', hpool, hs⟩ := h
  unfold assemble at hs
  obtain ⟨d, p₁, hd, hs⟩ := succeeds_bind.1 hs
  obtain ⟨-, rfl⟩ := succeeds_lift.1 hd
  obtain ⟨operands, p₂, hoperands, -⟩ := succeeds_bind.1 hs
  exact ⟨pool, operands, p₂, hpool, hoperands⟩

/-- The descriptor of an emitted method can be read. -/
theorem MethodDecl.IsEmitted.ofText {m : MethodDecl} {thisClass : String}
    (h : m.IsEmitted thisClass) : ∃ d, MethodDescriptor.ofText m.descriptor = .ok d := by
  obtain ⟨withFrames, pool, body, pool', hpool, hs⟩ := h
  unfold assemble at hs
  obtain ⟨d, p₁, hd, -⟩ := succeeds_bind.1 hs
  obtain ⟨hd, -⟩ := succeeds_lift.1 hd
  unfold type at hd
  split at hd
  · next d' hd' => exact ⟨d', hd'⟩
  · cases hd

/-- A jump goes to the one mark of its label. -/
theorem dropWhile_ne_mark {pre post : List Instruction} {label : Label}
    (h : (boundLabels (pre ++ .mark label :: post)).Nodup) :
    (pre ++ .mark label :: post).dropWhile (· ≠ .mark label) = .mark label :: post := by
  have hpre : ∀ i ∈ pre, decide (i ≠ .mark label) = true := by
    intro i hi
    refine decide_eq_true ?_
    rintro rfl
    rw [boundLabels_append] at h
    exact (List.nodup_append.1 h).2.2 label (mem_boundLabels.2 hi) label
      (mem_boundLabels.2 List.mem_cons_self) rfl
  rw [List.dropWhile_append_of_pos hpre]
  simp

namespace Plan

variable {World : Type} {rt : Runtime World} {s : Store World} {p : Plan}
  {code tail : List Instruction} {locals : List (Option Value)}
  {Q : Option Value → Store World → List Event → Prop}

/-- A dispatcher runs the code of the attribute that the key names, or goes on behind all of them. -/
theorem completes_dispatchAll {codeOf : MappedAttribute → List Instruction} {key : String}
    (hcode : code = p.dispatchAll codeOf ++ tail) (hlabels : (boundLabels code).Nodup)
    (hkey : (locals[1]?).join = some (.ref (.string key)))
    (hfound : ∀ a ∈ p.keyedAttributes, a.name = key → ∀ rest,
      rt.Completes ⟨code, codeOf a ++ rest, locals, []⟩ s Q)
    (hnone : (∀ a ∈ p.keyedAttributes, a.name ≠ key) → rt.Completes ⟨code, tail, locals, []⟩ s Q) :
    rt.Completes ⟨code, code, locals, []⟩ s Q := by
  have hmem : ∀ x ∈ p.keyedAttributes.zipIdx, x.1 ∈ p.keyedAttributes := fun x hx =>
    List.mem_of_getElem? (List.mem_zipIdx_iff_getElem?.1 hx)
  have hnone' : (∀ x ∈ p.keyedAttributes.zipIdx, x.1.name ≠ key) →
      rt.Completes ⟨code, tail, locals, []⟩ s Q := by
    refine fun h => hnone fun a ha => ?_
    obtain ⟨i, hi⟩ := List.mem_iff_getElem?.1 ha
    exact h (a, i) (List.mem_zipIdx_iff_getElem?.2 hi)
  change code = p.keyedAttributes.zipIdx.flatMap (fun x =>
    dispatch x.1 (UInt32.ofNat x.2) (codeOf x.1)) ++ tail at hcode
  generalize p.keyedAttributes.zipIdx = xs at hcode hmem hnone'
  -- The induction is on the alternatives that are left, behind those that were passed over.
  suffices hrest : ∀ pre, code = pre ++ (xs.flatMap (fun x =>
      dispatch x.1 (UInt32.ofNat x.2) (codeOf x.1)) ++ tail) → rt.Completes ⟨code, xs.flatMap (fun x =>
      dispatch x.1 (UInt32.ofNat x.2) (codeOf x.1)) ++ tail, locals, []⟩ s Q by
    have hall := hrest [] hcode
    rwa [← hcode] at hall
  clear hcode
  induction xs with
  | nil => exact fun _ _ => hnone' (by simp)
  | cons x xs ih =>
    obtain ⟨a, i⟩ := x
    intro pre hcode
    rw [List.flatMap_cons, List.append_assoc] at hcode ⊢
    generalize hbehind : xs.flatMap _ ++ tail = behind at hcode ih ⊢
    simp only [dispatch, List.append_assoc, List.cons_append, List.nil_append] at hcode ⊢
    rw [Runtime.completes_aload]
    refine ⟨_, hkey, ?_⟩
    rw [Runtime.completes_ldcString]
    by_cases hname : a.name = key
    · have htest : test? .ifAcmpne [.ref (.string a.name), .ref (.string key)] =
          some (false, []) := by simp [test?, hname]
      rw [Runtime.completes_jump_of_false htest]
      exact hfound a (hmem _ List.mem_cons_self) hname _
    · have htest : test? .ifAcmpne [.ref (.string a.name), .ref (.string key)] =
          some (true, []) := by simp [test?, hname]
      have hsplit : code = (pre ++ aload 1 :: ldcString a.name ::
          jump .ifAcmpne (UInt32.ofNat i) :: codeOf a) ++ mark (UInt32.ofNat i) :: behind := by
        rw [hcode]
        simp
      have hmark := dropWhile_ne_mark (hsplit ▸ hlabels)
      rw [← hsplit] at hmark
      rw [Runtime.completes_jump_of_true htest hmark, Runtime.completes_mark]
      refine ih (fun y hy => hmem y (List.mem_cons_of_mem _ hy)) (fun hall => hnone' ?_)
        (pre ++ aload 1 :: ldcString a.name :: jump .ifAcmpne (UInt32.ofNat i) :: codeOf a ++
          [mark (UInt32.ofNat i)]) ?_
      · exact List.forall_mem_cons.2 ⟨hname, hall⟩
      · rw [hsplit]
        simp

end Plan

/-! ## The classes of an object -/

/-- The field of an attribute. -/
def MappedClass.fieldRef (d : MappedClass) (a : MappedAttribute) : MemberRef :=
  ⟨d.name, a.name, a.descriptor⟩

/-- An attribute that objects of a class are read and written by: the class or an ancestor declares
it, and a field stands for it. -/
structure Model.Keyed (m : Model) (c : MappedClass) (key : String) (d : MappedClass)
    (a : MappedAttribute) : Prop where
  lineage : d ∈ m.lineage c
  own : a ∈ d.ownAttributes
  hasField : a.hasField = true
  notVirtual : a.virtualProperty = false
  name : a.name = key

variable {World : Type}

/-- The dispatchers of a class and of its ancestors were emitted, and a call to the superclass
arrives at the ones of the superclass. -/
structure Machine.Runtime.Dispatches (rt : Runtime World) (m : Model) (c : MappedClass)
    (plan : MappedClass → Plan) : Prop where
  planned : ∀ d ∈ m.lineage c, ∃ context fileSuper existing,
    Plan.make d m context fileSuper existing = .ok (plan d)
  emitted : ∀ d ∈ m.lineage c, d.internal = true →
    (plan d).genericGet.IsEmitted d.name ∧ (plan d).genericSet.IsEmitted d.name
  inherited : ∀ d ∈ m.lineage c, ∀ e, m.superclassOf? d = some e → e.internal = true → ∀ args,
    rt.body? .invokespecial ⟨(plan d).superName, Names.genericGet, Names.keyedGetter⟩ args =
        some (plan e).genericGet.body ∧
      rt.body? .invokespecial ⟨(plan d).superName, Names.genericSet, Names.genericSetDesc⟩ args =
        some (plan e).genericSet.body
  field : ∀ d ∈ m.lineage c, ∀ a ∈ d.ownAttributes, a.hasField = true →
    rt.field (d.fieldRef a) = d.fieldRef a

namespace Machine.Runtime.Dispatches

variable {rt : Runtime World} {m : Model} {c d e : MappedClass} {plan : MappedClass → Plan}
  {key : String} {a : MappedAttribute}

theorem mapped_eq (h : rt.Dispatches m c plan) (hd : d ∈ m.lineage c) : (plan d).mapped = d := by
  obtain ⟨context, fileSuper, existing, hmake⟩ := h.planned d hd
  obtain ⟨-, hplan⟩ := Plan.make_eq_ok hmake
  rw [hplan]

/-- What holds for a class holds for its superclass. -/
theorem superclass (h : rt.Dispatches m c plan) (hvalid : m.Validated) (hc : c ∈ m.classes)
    (he : m.superclassOf? c = some e) : rt.Dispatches m e plan := by
  have hsub : ∀ d ∈ m.lineage e, d ∈ m.lineage c := fun d hd => by
    rw [hvalid.lineage_of_superclass hc he]
    exact List.mem_cons_of_mem _ hd
  exact ⟨fun d hd => h.planned d (hsub d hd), fun d hd => h.emitted d (hsub d hd),
    fun d hd => h.inherited d (hsub d hd), fun d hd => h.field d (hsub d hd)⟩

/-- The attributes of the class itself that a key can name. -/
theorem keyed_iff (h : rt.Dispatches m c plan) :
    m.Keyed c key c a ↔ a ∈ (plan c).keyedAttributes ∧ a.name = key := by
  have hmapped := h.mapped_eq (m.mem_lineage_self c)
  have hmem : a ∈ (plan c).keyedAttributes ↔
      a ∈ c.ownAttributes ∧ a.hasField = true ∧ a.virtualProperty = false := by
    unfold Plan.keyedAttributes Plan.ownAttributes
    rw [hmapped]
    simp
  rw [hmem]
  exact ⟨fun ⟨_, hown, hfield, hvirtual, hname⟩ => ⟨⟨hown, hfield, hvirtual⟩, hname⟩,
    fun ⟨⟨hown, hfield, hvirtual⟩, hname⟩ => ⟨m.mem_lineage_self c, hown, hfield, hvirtual, hname⟩⟩

theorem root_eq (h : rt.Dispatches m c plan) : (plan c).root = c.superclass.isNone := by
  unfold Plan.root MappedClass.isRoot
  rw [h.mapped_eq (m.mem_lineage_self c)]

theorem nodup_names (h : rt.Dispatches m c plan) (hvalid : m.Validated) (hc : c ∈ m.classes) :
    ((plan c).ownAttributes.map MappedAttribute.name).Nodup := by
  unfold Plan.ownAttributes
  rw [h.mapped_eq (m.mem_lineage_self c)]
  exact (hvalid.attributeNames c hc).sublist (List.filter_sublist.map _)

/-- The field that code of the class refers to. -/
theorem field_eq (h : rt.Dispatches m c plan) (hkeyed : m.Keyed c key c a) :
    rt.field ⟨(plan c).className, a.name, a.descriptor⟩ = c.fieldRef a := by
  unfold Plan.className
  rw [h.mapped_eq (m.mem_lineage_self c)]
  exact h.field c (m.mem_lineage_self c) a hkeyed.own hkeyed.hasField

end Machine.Runtime.Dispatches

namespace Model

variable {m : Model} {c d d' e : MappedClass} {key : String} {a a' : MappedAttribute}

theorem Keyed.of_superclass (h : m.Keyed e key d a) (hvalid : m.Validated) (hc : c ∈ m.classes)
    (he : m.superclassOf? c = some e) : m.Keyed c key d a := by
  refine ⟨?_, h.own, h.hasField, h.notVirtual, h.name⟩
  rw [hvalid.lineage_of_superclass hc he]
  exact List.mem_cons_of_mem _ h.lineage

/-- A key names one attribute. -/
theorem Keyed.unique (h : m.Keyed c key d a) (h' : m.Keyed c key d' a') (hvalid : m.Validated)
    (hc : c ∈ m.classes) : d = d' ∧ a = a' := by
  have hsame : d = d' := by
    by_contra hne
    exact hvalid.ownAttributes_disjoint hc h.lineage h'.lineage hne h.own h'.own
      (h.name.trans h'.name.symm)
  subst hsame
  have hnames := hvalid.attributeNames d (hvalid.lineage_closed hc d h.lineage).1
  refine ⟨rfl, List.inj_on_of_nodup_map hnames (List.mem_of_mem_filter h.own)
    (List.mem_of_mem_filter h'.own) (h.name.trans h'.name.symm)⟩

end Model

namespace Machine

variable {m : Model} {c d : MappedClass} {key : String} {a : MappedAttribute}
  {boxes : Descriptor → Ref → Value → Prop} {this : Nat} {s s' : Store World} {v? : Option Value}
  {r : Ref}

/-- Reading by name answers the value of the attribute, boxed, or null if there is none. -/
structure ReadOutcome (m : Model) (c : MappedClass) (key : String)
    (boxes : Descriptor → Ref → Value → Prop) (this : Nat) (s : Store World) (v? : Option Value)
    (s' : Store World) : Prop where
  keeps : s'.fields this = s.fields this
  value : ∃ r, v? = some (.ref r) ∧
    (∀ d a, m.Keyed c key d a → StandsFor boxes a.type r (s.fields this (d.fieldRef a))) ∧
    ((∀ d a, ¬m.Keyed c key d a) → r = .null)

theorem ReadOutcome.of_keyed (hvalid : m.Validated) (hc : c ∈ m.classes) (h : m.Keyed c key d a)
    (hkeeps : s'.fields this = s.fields this)
    (hr : StandsFor boxes a.type r (s.fields this (d.fieldRef a))) :
    ReadOutcome m c key boxes this s (some (.ref r)) s' := by
  refine ⟨hkeeps, r, rfl, fun d' a' h' => ?_, fun hnone => absurd h (hnone d a)⟩
  obtain ⟨rfl, rfl⟩ := h.unique h' hvalid hc
  exact hr

theorem ReadOutcome.of_none (h : ∀ d a, ¬m.Keyed c key d a) :
    ReadOutcome m c key boxes this s (some (.ref .null)) s :=
  ⟨rfl, .null, rfl, fun d a hkeyed => absurd hkeyed (h d a), fun _ => rfl⟩

/-- Writing by name assigns the value to the field of the attribute, or does nothing if there is
none. -/
structure WriteOutcome (m : Model) (c : MappedClass) (key : String) (this : Nat) (x : Value)
    (s : Store World) (v? : Option Value) (s' : Store World) : Prop where
  answer : v? = none
  found : ∀ d a, m.Keyed c key d a → s' = s.assign this (d.fieldRef a) x
  absent : (∀ d a, ¬m.Keyed c key d a) → s' = s

theorem WriteOutcome.of_keyed (hvalid : m.Validated) (hc : c ∈ m.classes) (h : m.Keyed c key d a)
    {x : Value} : WriteOutcome m c key this x s none (s.assign this (d.fieldRef a) x) := by
  refine ⟨rfl, fun d' a' h' => ?_, fun hnone => absurd h (hnone d a)⟩
  obtain ⟨rfl, rfl⟩ := h.unique h' hvalid hc
  rfl

theorem WriteOutcome.of_none (h : ∀ d a, ¬m.Keyed c key d a) {x : Value} :
    WriteOutcome m c key this x s none s :=
  ⟨rfl, fun d a hkeyed => absurd hkeyed (h d a), fun _ => rfl⟩

/-- A reference can be assigned to an attribute, whose field then holds the value `x`. -/
structure Runtime.Assigns (rt : Runtime World) (boxes : Descriptor → Ref → Value → Prop)
    (a : MappedAttribute) (r : Ref) (x : Value) : Prop where
  castable : rt.Castable r a.castTarget
  notNull : a.type.isPrimitive = true → r ≠ .null
  standsFor : StandsFor boxes a.type r x
  hasType : x.HasType a.type

end Machine

namespace Machine.Runtime.Dispatches

variable {rt : Runtime World} {m : Model} {c : MappedClass} {plan : MappedClass → Plan}
  {key : String} {s : Store World} {this : Nat} {boxes : Descriptor → Ref → Value → Prop}
  {Q : Option Value → Store World → List Event → Prop}

/-- Reading an attribute of the class itself, or going on behind them all. -/
theorem completes_genericGet_own (hvalid : m.Validated) (hc : c ∈ m.classes)
    (hinternal : c.internal = true) (h : rt.Dispatches m c plan) (hboxing : rt.Boxing this boxes)
    (htyped : ∀ a, m.Keyed c key c a → (s.fields this (c.fieldRef a)).HasType a.type)
    (hfound : ∀ a, m.Keyed c key c a → ∀ r s' events,
      StandsFor boxes a.type r (s.fields this (c.fieldRef a)) →
      s'.fields this = s.fields this → Q (some (.ref r)) s' events)
    (hnone : (∀ a, ¬m.Keyed c key c a) → rt.Completes ⟨(plan c).genericGet.body,
      (plan c).inheritedGet ++ [simple .areturn],
      [some (.ref (.object this)), some (.ref (.string key))], []⟩ s Q) :
    rt.Completes (.enter (plan c).genericGet.body [.ref (.object this), .ref (.string key)]) s Q := by
  obtain ⟨pool, operands, pool', hpool, hs⟩ :=
    (h.emitted c (m.mem_lineage_self c) hinternal).1.operands
  refine Plan.completes_dispatchAll (List.append_assoc _ _ _)
    (Plan.nodup_boundLabels_genericGet (h.nodup_names hvalid hc) hpool hs) rfl
    (fun a ha hname rest => ?_) fun hother => hnone fun a hkeyed => ?_
  · have hkeyed : m.Keyed c key c a := h.keyed_iff.2 ⟨ha, hname⟩
    simp only [List.append_assoc, List.cons_append, List.nil_append, Runtime.completes_aload]
    refine ⟨_, rfl, ?_⟩
    rw [Runtime.completes_getField, h.field_eq hkeyed]
    refine Runtime.completes_boxCode hboxing (htyped a hkeyed) fun r s' hr hkeeps => ?_
    rw [Runtime.completes_areturn]
    exact hfound a hkeyed r s' _ hr hkeeps
  · obtain ⟨ha, hname⟩ := h.keyed_iff.1 hkeyed
    exact hother a ha hname

/-- What a call of the superclass's dispatcher leaves of one that found no attribute of its own. -/
theorem keyed_superclass_iff {d : MappedClass} {a : MappedAttribute} (hvalid : m.Validated)
    (hc : c ∈ m.classes) {e : MappedClass} (he : m.superclassOf? c = some e)
    (hown : ∀ a, ¬m.Keyed c key c a) : m.Keyed e key d a ↔ m.Keyed c key d a := by
  refine ⟨fun h => h.of_superclass hvalid hc he, fun h => ?_⟩
  have hd := h.lineage
  rw [hvalid.lineage_of_superclass hc he] at hd
  rcases List.mem_cons.1 hd with rfl | hd
  · exact absurd h (hown a)
  · exact ⟨hd, h.own, h.hasField, h.notVirtual, h.name⟩

/-- A class without a superclass declares all the attributes of its objects. -/
theorem not_keyed_of_root (hroot : c.superclass = none) (hown : ∀ a, ¬m.Keyed c key c a)
    (d : MappedClass) (a : MappedAttribute) : ¬m.Keyed c key d a := by
  intro h
  have hd := h.lineage
  rw [Model.lineage_of_root hroot, List.mem_singleton] at hd
  subst hd
  exact hown a h

/-- Reading by name: the class that declares the attribute answers its value, and if none does the
root answers null. -/
theorem completes_genericGet (hvalid : m.Validated) (hc : c ∈ m.classes)
    (hinternal : c.internal = true) (h : rt.Dispatches m c plan) (hboxing : rt.Boxing this boxes)
    (htyped : ∀ d a, m.Keyed c key d a → (s.fields this (d.fieldRef a)).HasType a.type) :
    rt.Completes (.enter (plan c).genericGet.body [.ref (.object this), .ref (.string key)]) s
      fun v? s' _ => ReadOutcome m c key boxes this s v? s' := by
  revert hinternal h htyped
  refine hvalid.induction (fun c hc hroot => ?_) (fun c hc e he hparent ih => ?_) hc
  · intro hinternal h htyped
    refine completes_genericGet_own hvalid hc hinternal h hboxing (htyped c)
      (fun a ha r s' _ hr hkeeps => .of_keyed hvalid hc ha hkeeps hr) fun hown => ?_
    have hinherited : (plan c).inheritedGet = [simple .aconstNull] := by
      simp [Plan.inheritedGet, h.root_eq, hroot]
    rw [hinherited, List.singleton_append, Runtime.completes_aconstNull, Runtime.completes_areturn]
    exact .of_none (not_keyed_of_root hroot hown)
  · intro hinternal h htyped
    refine completes_genericGet_own hvalid hc hinternal h hboxing (htyped c)
      (fun a ha r s' _ hr hkeeps => .of_keyed hvalid hc ha hkeeps hr) fun hown => ?_
    have heinternal := (hvalid.capabilities c hc e hparent).1 hinternal
    have hinherited : (plan c).inheritedGet = [aload 0, aload 1,
        invokeSpecial (plan c).superName Names.genericGet Names.keyedGetter] := by
      obtain ⟨t, ht, -⟩ := Model.superclassOf?_eq_some.1 hparent
      simp [Plan.inheritedGet, h.root_eq, ht]
    have hsuper := ih heinternal (h.superclass hvalid hc hparent) fun d a hkeyed =>
      htyped d a (hkeyed.of_superclass hvalid hc hparent)
    have hargs : arguments? .invokespecial Names.keyedGetter
        [.ref (.string key), .ref (.object this)] =
        some ([.ref (.object this), .ref (.string key)], []) := by simp [arguments?]
    rw [hinherited]
    simp only [List.cons_append, List.nil_append, Runtime.completes_aload]
    refine ⟨_, rfl, _, rfl, Runtime.Completes.invoke hargs (.inr (by simp)) ?_⟩
    rw [Runtime.invokes_of_body (h.inherited c (m.mem_lineage_self c) e hparent heinternal _).1]
    refine hsuper.mono fun v? s' events hread => ?_
    obtain ⟨r, rfl, hfound, hnone⟩ := hread.value
    rw [Option.toList_some, List.singleton_append, Runtime.completes_areturn]
    exact ⟨hread.keeps, r, rfl,
      fun d a hkeyed => hfound d a ((keyed_superclass_iff hvalid hc hparent hown).2 hkeyed),
      fun hall => hnone fun d a hkeyed => hall d a (hkeyed.of_superclass hvalid hc hparent)⟩

/-- Writing an attribute of the class itself, or going on behind them all. -/
theorem completes_genericSet_own (hvalid : m.Validated) (hc : c ∈ m.classes)
    (hinternal : c.internal = true) (h : rt.Dispatches m c plan) (hboxing : rt.Boxing this boxes)
    {r : Ref} {x : Value} (hx : ∀ a, m.Keyed c key c a → rt.Assigns boxes a r x)
    (hfound : ∀ a, m.Keyed c key c a → ∀ events, Q none (s.assign this (c.fieldRef a) x) events)
    (hnone : (∀ a, ¬m.Keyed c key c a) → rt.Completes ⟨(plan c).genericSet.body,
      (plan c).inheritedSet ++ [simple .returnVoid],
      [some (.ref (.object this)), some (.ref (.string key)), some (.ref r)], []⟩ s Q) :
    rt.Completes (.enter (plan c).genericSet.body
      [.ref (.object this), .ref (.string key), .ref r]) s Q := by
  obtain ⟨pool, operands, pool', hpool, hs⟩ :=
    (h.emitted c (m.mem_lineage_self c) hinternal).2.operands
  refine Plan.completes_dispatchAll (List.append_assoc _ _ _)
    (Plan.nodup_boundLabels_genericSet (h.nodup_names hvalid hc) hpool hs) rfl
    (fun a ha hname rest => ?_) fun hother => hnone fun a hkeyed => ?_
  · have hkeyed : m.Keyed c key c a := h.keyed_iff.2 ⟨ha, hname⟩
    obtain ⟨hcast, hnull, hstands, htype⟩ := hx a hkeyed
    have hkept : x.narrow a.descriptor = x := Value.narrow_text htype
    simp only [List.append_assoc, List.cons_append, List.nil_append, Runtime.completes_aload]
    refine ⟨_, rfl, _, rfl, ?_⟩
    refine Runtime.completes_unboxCode hboxing hcast hstands hnull ?_
    rw [Runtime.completes_putField, Runtime.completes_returnVoid, h.field_eq hkeyed, hkept]
    exact hfound a hkeyed _
  · obtain ⟨ha, hname⟩ := h.keyed_iff.1 hkeyed
    exact hother a ha hname

/-- Writing by name: the class that declares the attribute assigns its field, and if none does
nothing happens. -/
theorem completes_genericSet (hvalid : m.Validated) (hc : c ∈ m.classes)
    (hinternal : c.internal = true) (h : rt.Dispatches m c plan) (hboxing : rt.Boxing this boxes)
    {r : Ref} {x : Value} (hx : ∀ d a, m.Keyed c key d a → rt.Assigns boxes a r x) :
    rt.Completes (.enter (plan c).genericSet.body
        [.ref (.object this), .ref (.string key), .ref r]) s
      fun v? s' _ => WriteOutcome m c key this x s v? s' := by
  revert hinternal h hx
  refine hvalid.induction (fun c hc hroot => ?_) (fun c hc e he hparent ih => ?_) hc
  · intro hinternal h hx
    refine completes_genericSet_own hvalid hc hinternal h hboxing (hx c)
      (fun a ha _ => .of_keyed hvalid hc ha) fun hown => ?_
    have hinherited : (plan c).inheritedSet = [] := by
      simp [Plan.inheritedSet, h.root_eq, hroot]
    rw [hinherited, List.nil_append, Runtime.completes_returnVoid]
    exact .of_none (not_keyed_of_root hroot hown)
  · intro hinternal h hx
    refine completes_genericSet_own hvalid hc hinternal h hboxing (hx c)
      (fun a ha _ => .of_keyed hvalid hc ha) fun hown => ?_
    have heinternal := (hvalid.capabilities c hc e hparent).1 hinternal
    have hinherited : (plan c).inheritedSet = [aload 0, aload 1, aload 2,
        invokeSpecial (plan c).superName Names.genericSet Names.genericSetDesc] := by
      obtain ⟨t, ht, -⟩ := Model.superclassOf?_eq_some.1 hparent
      simp [Plan.inheritedSet, h.root_eq, ht]
    have hsuper := ih heinternal (h.superclass hvalid hc hparent) fun d a hkeyed =>
      hx d a (hkeyed.of_superclass hvalid hc hparent)
    have hargs : arguments? .invokespecial Names.genericSetDesc
        [.ref r, .ref (.string key), .ref (.object this)] =
        some ([.ref (.object this), .ref (.string key), .ref r], []) := by simp [arguments?]
    rw [hinherited]
    simp only [List.cons_append, List.nil_append, Runtime.completes_aload]
    refine ⟨_, rfl, _, rfl, _, rfl, Runtime.Completes.invoke hargs (.inr (by simp)) ?_⟩
    rw [Runtime.invokes_of_body (h.inherited c (m.mem_lineage_self c) e hparent heinternal _).2]
    refine hsuper.mono fun v? s' events hwrite => ?_
    rw [Runtime.completes_returnVoid]
    exact ⟨rfl,
      fun d a hkeyed => hwrite.found d a ((keyed_superclass_iff hvalid hc hparent hown).2 hkeyed),
      fun hall => hwrite.absent fun d a hkeyed => hall d a (hkeyed.of_superclass hvalid hc hparent)⟩

/-- Keyed access is complete.  A key names at most one attribute of the objects of a class.  Reading
by it answers the attribute's value, or null.  Writing assigns the attribute's field and nothing
else, or does nothing; what is read then is what was written: the same reference, or for a primitive
type a box of the same value, which is the same one where there is one box for a value. -/
theorem keyed_access {classes : List MappedClass} (hmodel : Model.ofClasses classes = .ok m)
    (hc : c ∈ m.classes) (hinternal : c.internal = true) (h : rt.Dispatches m c plan)
    (hboxing : rt.Boxing this boxes)
    (htyped : ∀ d a, m.Keyed c key d a → (s.fields this (d.fieldRef a)).HasType a.type) :
    (∀ d a d' a', m.Keyed c key d a → m.Keyed c key d' a' → d = d' ∧ a = a') ∧
    rt.Completes (.enter (plan c).genericGet.body [.ref (.object this), .ref (.string key)]) s
      (fun v? s' _ => ReadOutcome m c key boxes this s v? s') ∧
    ((∀ d a, ¬m.Keyed c key d a) → ∀ r, rt.Completes (.enter (plan c).genericSet.body
      [.ref (.object this), .ref (.string key), .ref r]) s fun v? s' _ => v? = none ∧ s' = s) ∧
    ∀ d a, m.Keyed c key d a → ∀ r, rt.Castable r a.castTarget →
      (a.type.isPrimitive = true → r ≠ .null) → ∃ x, StandsFor boxes a.type r x ∧
        rt.Completes (.enter (plan c).genericSet.body
          [.ref (.object this), .ref (.string key), .ref r]) s fun v? s' _ =>
            v? = none ∧ s' = s.assign this (d.fieldRef a) x ∧
            rt.Completes (.enter (plan c).genericGet.body [.ref (.object this), .ref (.string key)])
              s' fun w? t _ => t.fields this = s'.fields this ∧ ∃ r', w? = some (.ref r') ∧
                StandsFor boxes a.type r' x ∧
                ((a.type.isPrimitive = true → ∀ r₂, boxes a.type r₂ x → r₂ = r) → r' = r) := by
  have hvalid := Model.validated_of_ofClasses hmodel
  refine ⟨fun d a d' a' hd hd' => hd.unique hd' hvalid hc,
    completes_genericGet hvalid hc hinternal h hboxing htyped, fun hnone r => ?_,
    fun d a hkeyed r hcast hnull => ?_⟩
  · have hwrite := completes_genericSet (s := s) hvalid hc hinternal h hboxing
      (r := r) (x := .ref r) fun d a hkeyed => absurd hkeyed (hnone d a)
    exact hwrite.mono fun v? s' _ hw => ⟨hw.answer, hw.absent hnone⟩
  · have hvalue : a.type ≠ .void := fun hvoid => by
      have hty := htyped d a hkeyed
      rw [hvoid] at hty
      cases hx : s.fields this (d.fieldRef a) <;> rw [hx] at hty <;> exact hty.elim
    obtain ⟨x, hstands, hx⟩ := hboxing.exists_standsFor hvalue hcast hnull
    have hassigns : ∀ d' a', m.Keyed c key d' a' → rt.Assigns boxes a' r x := by
      intro d' a' hkeyed'
      obtain ⟨rfl, rfl⟩ := hkeyed.unique hkeyed' hvalid hc
      exact ⟨hcast, hnull, hstands, hx⟩
    refine ⟨x, hstands, (completes_genericSet hvalid hc hinternal h hboxing hassigns).mono
      fun v? s' _ hw => ?_⟩
    have hfield : s'.fields this (d.fieldRef a) = x := by
      rw [hw.found d a hkeyed]
      simp
    refine ⟨hw.answer, hw.found d a hkeyed, (completes_genericGet hvalid hc hinternal h hboxing
      fun d' a' hkeyed' => ?_).mono fun w? t _ hread => ?_⟩
    · obtain ⟨rfl, rfl⟩ := hkeyed.unique hkeyed' hvalid hc
      rwa [hfield]
    · obtain ⟨r', rfl, hfound, -⟩ := hread.value
      have hr' := hfound d a hkeyed
      rw [hfield] at hr'
      refine ⟨hread.keeps, r', rfl, hr', fun hone => ?_⟩
      unfold StandsFor at hstands hr'
      split at hr'
      · next hprimitive => exact hone hprimitive r' hr'
      · next hprimitive =>
        rw [if_neg hprimitive, hr'] at hstands
        exact Value.ref.inj hstands

end Machine.Runtime.Dispatches

namespace Sample

def numbered : MappedClass :=
  { name := "B", internal := true, attributes := [{ name := "id", type := .long }] }

def numberedChild : MappedClass :=
  { name := "A", superclass := some "B", internal := true
    attributes := [{ name := "n", type := .int }] }

def numberedModel : Model := ⟨[numberedChild, numbered]⟩

/-- The plan for either class. -/
def numberedPlan (d : MappedClass) : Plan :=
  { mapped := d, superName := d.superclass.getD Names.object, changeTracking := false
    superclassTracksChanges := false, superclassInternal := d.superclass.isSome
    superclassConstructorOptimization := false, xmlTransient := Context.default.xmlTransient }

/-- Calls to the superclass of the child arrive at the dispatchers of the root. -/
def numberedRuntime : Machine.Runtime Unit where
  body? _ r _ :=
    if r = ⟨"B", Names.genericGet, Names.keyedGetter⟩ then some (numberedPlan numbered).genericGet.body
    else if r = ⟨"B", Names.genericSet, Names.genericSetDesc⟩ then
      some (numberedPlan numbered).genericSet.body
    else none
  call? r args s := (boxCall? r args).map fun v => (some v, s)
  field r := r
  isInstance := isBoxInstance
  new? _ _ := none

def numberedStore : Store Unit where
  fields _ _ := .long 0
  world := ()

theorem numberedRuntime_boxing : numberedRuntime.Boxing 0 IsBox := by
  refine boxing_of_model 0 (fun {d wrapper} hw op args => ?_) (fun r args v s h => ?_)
    fun _ _ => rfl
  · have howners : ∀ e ∈ Descriptor.primitives, e.wrapper? ≠ some "B" := by decide
    have howner : wrapper ≠ "B" := by
      rintro rfl
      exact howners d (Descriptor.mem_primitives hw) hw
    have hnone : ∀ name descriptor, numberedRuntime.body? op ⟨wrapper, name, descriptor⟩ args = none := by
      intro name descriptor
      simp [numberedRuntime, howner]
    exact ⟨hnone _ _, fun _ => hnone _ _⟩
  · simp [numberedRuntime, h]

/-- Whether a method can be assembled into an empty pool. -/
def emits (m : MethodDecl) (thisClass : String) : Bool :=
  match (m.assemble thisClass true).run.run Pool.empty with
  | (.ok _, _) => true
  | (.error _, _) => false

theorem isEmitted_of_emits {m : MethodDecl} {thisClass : String} (h : emits m thisClass = true) :
    m.IsEmitted thisClass := by
  unfold emits at h
  split at h
  · next body pool' hrun => exact ⟨true, _, body, pool', .empty, hrun⟩
  · cases h

theorem numberedRuntime_dispatches :
    numberedRuntime.Dispatches numberedModel numberedChild numberedPlan := by
  have hlineage : numberedModel.lineage numberedChild = [numberedChild, numbered] := by decide
  constructor
  case planned =>
    rw [hlineage]
    simp only [List.forall_mem_cons]
    exact ⟨⟨.default, some "B", [], by decide +kernel⟩, ⟨.default, none, [], by decide +kernel⟩,
      by simp⟩
  case emitted =>
    have hemits : ∀ d ∈ [numberedChild, numbered],
        emits (numberedPlan d).genericGet d.name = true ∧
          emits (numberedPlan d).genericSet d.name = true := by decide +kernel
    rw [hlineage]
    exact fun d hd _ => ⟨isEmitted_of_emits (hemits d hd).1, isEmitted_of_emits (hemits d hd).2⟩
  case inherited =>
    have hparent : ∀ d ∈ [numberedChild, numbered], ∀ e ∈ numberedModel.superclassOf? d,
        e = numbered ∧ (numberedPlan d).superName = "B" := by decide +kernel
    rw [hlineage]
    intro d hd e he _ args
    obtain ⟨rfl, hsuper⟩ := hparent d hd e he
    rw [hsuper]
    exact ⟨rfl, rfl⟩
  case field => exact fun _ _ _ _ _ => rfl

end Sample

/-- The long of the root is written and read through the dispatchers of the child. -/
theorem Machine.Runtime.Dispatches.keyed_access_sample :
    Sample.numberedRuntime.Completes (.enter (Sample.numberedPlan Sample.numberedChild).genericSet.body
      [.ref (.object 0), .ref (.string "id"), .ref (.object (boxId .long (.long 7)))])
      Sample.numberedStore fun _ s' _ => s'.fields 0 ⟨"B", "id", "J"⟩ = .long 7 ∧
        Sample.numberedRuntime.Completes
          (.enter (Sample.numberedPlan Sample.numberedChild).genericGet.body
            [.ref (.object 0), .ref (.string "id")]) s' fun w? _ _ =>
              ∃ r, w? = some (.ref r) ∧ IsBox .long r (.long 7) := by
  have hmodel : ∃ m, Model.ofClasses [Sample.numberedChild, Sample.numbered] = .ok m ∧
      m = Sample.numberedModel := by decide +kernel
  obtain ⟨m, hm, rfl⟩ := hmodel
  have hchild : Sample.numberedChild ∈ Sample.numberedModel.classes := by decide
  have hkeyed : Sample.numberedModel.Keyed Sample.numberedChild "id" Sample.numbered
      { name := "id", type := .long } := ⟨by decide, by decide, rfl, rfl, rfl⟩
  have htyped : ∀ d a, Sample.numberedModel.Keyed Sample.numberedChild "id" d a →
      (Sample.numberedStore.fields 0 (d.fieldRef a)).HasType a.type := by
    intro d a h
    obtain ⟨rfl, rfl⟩ := h.unique hkeyed (Model.validated_of_ofClasses hm) hchild
    exact True.intro
  obtain ⟨-, -, -, hwrite⟩ := keyed_access hm hchild rfl Sample.numberedRuntime_dispatches
    Sample.numberedRuntime_boxing htyped
  obtain ⟨x, hx, hrun⟩ := hwrite _ _ hkeyed (.object (boxId .long (.long 7)))
    (.inr (by decide)) (by decide)
  obtain ⟨id, hid, hunboxed⟩ : IsBox .long (.object (boxId .long (.long 7))) x := hx
  obtain rfl := Ref.object.inj hid
  have hseven : (Value.long 7).HasType .long := True.intro
  have hx : some (Descriptor.long, Value.long 7) = some (Descriptor.long, x) :=
    (unboxed?_boxId rfl hseven).symm.trans hunboxed
  obtain rfl : Value.long 7 = x := (Prod.mk.inj (Option.some.inj hx)).2
  refine hrun.mono fun v? s' _ hwritten => ?_
  obtain ⟨-, hs', hread⟩ := hwritten
  refine ⟨?_, hread.mono fun w? t _ hanswer => ?_⟩
  · have hfield : (⟨"B", "id", "J"⟩ : MemberRef) =
        Sample.numbered.fieldRef { name := "id", type := .long } := by decide
    rw [hs', hfield]
    simp
  · obtain ⟨-, r, hr, hbox, -⟩ := hanswer
    exact ⟨r, hr, hbox⟩

end EntityLoom
