import EntityLoom.Proofs.Weaving.ChangeEvents
import EntityLoom.Proofs.Weaving.KeyedAccess

/-!
# Holders of lazy attributes

The methods around the holder of a lazy attribute, run on an object.  `Machine.LazyObject` is such an
object, and `LazyObject.Serves` says what its methods rely on: calls arrive at the synthesized bodies,
holders do what they are documented to do, and nobody else touches the object.

Every read and write of the attribute first makes sure that there is a holder and copies its value into
the field.  So of an object it matters what it would answer, which is the content of its holder, or the
field as long as there is none (`LazyObject.Ready`); what a body leaves behind is said by
`LazyObject.Attached`.
-/

namespace EntityLoom

open Machine Instruction

/-! ## References -/

/-- A method of a holder. -/
def Names.holderMethod (name descriptor : String) : MemberRef := ⟨holderInterface, name, descriptor⟩

/-- The constructor of the holders that are made for the value of a field. -/
def Names.holderConstructor : MemberRef := ⟨valueHolder, constructor, objectConsumer⟩

/-- The methods that check whether an attribute was fetched, with the ones that fetch it. -/
def Names.fetchGuards : List (String × String) :=
  [(checkFetched, "processUnfetchedAttribute"),
    (checkFetchedForSet, "processUnfetchedAttributeForSet")]

namespace Plan

/-- The field of the holder of an attribute, as code of the class refers to it. -/
def holderRef (p : Plan) (a : MappedAttribute) : MemberRef :=
  ⟨p.className, Names.holderField a.name, Names.holderInterfaceDesc⟩

/-- The field of the fetch group, as code of the class refers to it. -/
def fetchGroupRef (p : Plan) : MemberRef :=
  ⟨p.className, StateField.fetchGroup.name, StateField.fetchGroup.type.text⟩

end Plan

namespace Machine

variable {World : Type}

/-- Whether a method is a constructor of holders. -/
def constructsHolder (r : MemberRef) : Bool :=
  r.owner = Names.valueHolder ∧ r.name = Names.constructor

/-- How many holders were constructed in some calls. -/
def constructions (events : List Event) : Nat :=
  events.countP (constructsHolder ·.target)

@[simp] theorem constructions_nil : constructions [] = 0 := rfl

@[simp] theorem constructions_append (events events' : List Event) :
    constructions (events ++ events') = constructions events + constructions events' :=
  List.countP_append

@[simp] theorem constructions_cons (e : Event) (events : List Event) :
    constructions (e :: events) =
      constructions events + if constructsHolder e.target then 1 else 0 :=
  List.countP_cons

/-- An object with a lazy attribute, which has the type of a class and no accessors of the application.
The fetch checks and the listener may come from other classes of its hierarchy. -/
structure LazyObject (World : Type) where
  plan : Plan
  fetchOwner : Plan
  listenerOwner : Plan
  attr : MappedAttribute
  target : String
  this : Nat
  /-- The value of a holder, once it is loaded. -/
  content : World → Nat → Option Ref
  weaves : plan.weavesHolder attr = true
  hasField : attr.hasField = true
  type : attr.type = .object target
  getter : attr.getterName? = none
  setter : attr.setterName? = none

namespace LazyObject

variable (rt : Runtime World) (o : LazyObject World) (s s' : Store World)

def receiver : Value := .ref (.object o.this)

/-- The holder of the object, or null. -/
def holder : Value := s.fields o.this (rt.field (o.plan.holderRef o.attr))

/-- The field of the attribute. -/
def value : Value := s.fields o.this (rt.field (o.plan.attributeRef o.attr))

/-- The store after an assignment to the field of the holder. -/
def putHolder (r : Ref) : Store World :=
  s.assign o.this (rt.field (o.plan.holderRef o.attr)) (.ref r)

/-- The store after an assignment to the field of the attribute. -/
def putValue (r : Ref) : Store World :=
  s.assign o.this (rt.field (o.plan.attributeRef o.attr)) (.ref r)

/-! ## The surroundings of an object -/

/-- The fields of the object and the content of its holder are the same. -/
structure Untouched : Prop where
  fields : s'.fields o.this = s.fields o.this
  content : ∀ h, o.holder rt s = .ref (.object h) → o.content s'.world h = o.content s.world h

/-- The fields of the object and the content of a holder are the same. -/
structure Keeps (h : Nat) : Prop where
  fields : s'.fields o.this = s.fields o.this
  content : o.content s'.world h = o.content s.world h

/-- An object does what holders are documented to do: it answers the value that was set last or
loaded, which has the type of the attribute. -/
structure IsHolder (h : Nat) : Prop where
  castable : ∀ w v, o.content w h = some v → rt.Castable v o.target
  getValue : ∀ s, rt.Answers .invokeinterface (Names.holderMethod "getValue" Names.objectGetter)
    [.ref (.object h)] s fun v? s' => s'.fields o.this = s.fields o.this ∧
      ∃ v, v? = some (.ref v) ∧ o.content s'.world h = some v ∧
        ∀ w, o.content s.world h = some w → v = w
  setValue : ∀ s v, rt.Castable v o.target → rt.Answers .invokeinterface
    (Names.holderMethod "setValue" Names.objectConsumer) [.ref (.object h), .ref v] s fun v? s' =>
      v? = none ∧ s'.fields o.this = s.fields o.this ∧ o.content s'.world h = some v
  isInstantiated : ∀ s, rt.Answers .invokeinterface
    (Names.holderMethod "isInstantiated" Names.flagGetter) [.ref (.object h)] s fun v? s' =>
      v? = some (.int (if (o.content s.world h).isSome then 1 else 0)) ∧ o.Keeps s s' h
  flags : ∀ name ∈ ["isCoordinatedWithProperty", "isNewlyWeavedValueHolder"], ∀ s,
    rt.Answers .invokeinterface (Names.holderMethod name Names.flagGetter) [.ref (.object h)] s
      fun v? s' => (∃ n, v? = some (.int n)) ∧ o.Keeps s s' h
  setFlag : ∀ s, rt.Answers .invokeinterface (Names.holderMethod "setIsNewlyWeavedValueHolder" "(Z)V")
    [.ref (.object h), .int 1] s fun v? s' => v? = none ∧ o.Keeps s s' h

/-- The fetch checks run the synthesized bodies.  Fetch groups and the methods that fetch an attribute
return and do not touch the object. -/
structure Fetches : Prop where
  guards : ∀ x ∈ Names.fetchGuards, rt.body? .invokevirtual
    ⟨o.plan.className, x.1, Names.stringConsumer⟩ [o.receiver, .ref (.string o.attr.name)] =
      some (o.fetchOwner.fetchGuard x.1 x.2).body
  test : rt.body? .invokevirtual
    ⟨o.fetchOwner.className, Names.isAttributeFetched, Names.stringTest⟩
    [o.receiver, .ref (.string o.attr.name)] = some o.fetchOwner.isAttributeFetched.body
  contains : ∀ g s, g ≠ .null → rt.Answers .invokevirtual
    ⟨Names.fetchGroup, "containsAttributeInternal", Names.stringTest⟩
    [.ref g, .ref (.string o.attr.name)] s fun v? s' =>
      (∃ n, v? = some (.int n)) ∧ o.Untouched rt s s'
  tracker : rt.isInstance (.object o.this) Names.fetchGroupTracker = true
  callbacks : ∀ x ∈ Names.fetchGuards, ∀ s, rt.Answers .invokestatic
    ⟨Names.entityManager, x.2, Names.unfetchedCallback⟩ [o.receiver, .ref (.string o.attr.name)] s
      fun v? s' => v? = none ∧ o.Untouched rt s s'

/-- Changes are announced by the synthesized body.  Events and listeners do not touch the object. -/
structure Announces : Prop where
  body : ∀ args, rt.body? .invokevirtual
    ⟨o.plan.className, Names.propertyChange, Names.propertyChangeDesc⟩ (o.receiver :: args) =
      some o.listenerOwner.propertyChange.body
  makes : ∀ s, ∃ id s', rt.new? Names.changeEvent s = some (id, s') ∧ o.Untouched rt s s'
  constructs : ∀ id args s, rt.Answers .invokespecial Names.eventConstructor
    (.ref (.object id) :: o.receiver :: args) s fun v? s' => v? = none ∧ o.Untouched rt s s'
  notifies : ∀ l id s, l ≠ .null → rt.Answers .invokeinterface Names.listenerCall
    [.ref l, .ref (.object id)] s fun v? s' => v? = none ∧ o.Untouched rt s s'

/-- What the methods of the attribute rely on. -/
structure Serves : Prop where
  emitted : (o.plan.fieldGetter o.attr).IsEmitted o.plan.className
  initializes : rt.body? .invokevirtual
    ⟨o.plan.className, Names.holderInitializer o.attr.name, Names.noArgs⟩ [o.receiver] =
      some (o.plan.holderInitializer o.attr).body
  reads : rt.body? .invokevirtual
    ⟨o.plan.className, Names.fieldGetter o.attr.name, Names.getterOf o.attr.descriptor⟩
    [o.receiver] = some (o.plan.fieldGetter o.attr).body
  distinct : rt.field (o.plan.attributeRef o.attr) ≠ rt.field (o.plan.holderRef o.attr)
  constructs : ∀ s v, rt.Castable v o.target → ∃ h s', rt.new? Names.valueHolder s = some (h, s') ∧
    s'.fields o.this = s.fields o.this ∧ o.IsHolder rt h ∧
    rt.Answers .invokespecial Names.holderConstructor [.ref (.object h), .ref v] s' fun v? s'' =>
      v? = none ∧ s''.fields o.this = s'.fields o.this ∧ o.content s''.world h = some v
  fetches : o.plan.mapped.fetchGroups = true → o.Fetches rt
  announces : o.plan.changeTracking = true → o.Announces rt

/-! ## States of an object -/

/-- The fields that fetch checks and announcements read hold references. -/
structure Typed : Prop where
  fetchGroup : o.plan.mapped.fetchGroups = true →
    ∃ g, s.fields o.this (rt.field o.fetchOwner.fetchGroupRef) = .ref g
  listener : o.plan.changeTracking = true →
    ∃ l, s.fields o.this (rt.field o.listenerOwner.listenerRef) = .ref l

/-- The object has a holder with the given content. -/
structure Held (h : Nat) (c : Option Ref) : Prop where
  typed : o.Typed rt s
  holder : o.holder rt s = .ref (.object h)
  isHolder : o.IsHolder rt h
  content : o.content s.world h = c

/-- The object has no holder, and its field has the given value. -/
structure Bare (v : Ref) : Prop where
  typed : o.Typed rt s
  holder : o.holder rt s = .ref .null
  value : o.value rt s = .ref v
  castable : rt.Castable v o.target

/-- The value of the attribute is known, or is that of a holder that is not loaded. -/
inductive Ready : Option Ref → Prop
  | bare {v : Ref} (h : o.Bare rt s v) : Ready (some v)
  | held {h : Nat} {c : Option Ref} (h : o.Held rt s h c) : Ready c

/-- How many holders are still to be constructed. -/
def missing : Nat := if o.holder rt s = .ref .null then 1 else 0

/-- From one store to the other some calls gave the object the holder `h`, if it had none. -/
structure Attached (h : Nat) (c : Option Ref) (events : List Event) : Prop where
  held : o.Held rt s' h c
  same : o.holder rt s = .ref .null ∨ o.holder rt s = .ref (.object h)
  built : constructions events = o.missing rt s

variable {rt o s s'} {t : Store World} {h h' : Nat} {c c' : Option Ref} {v : Ref}
  {events events' : List Event}

theorem holderTarget_eq : Plan.holderTarget o.attr = o.target := by
  unfold Plan.holderTarget
  rw [o.type]
  rfl

theorem wrapped_eq : "L" ++ Plan.holderTarget o.attr ++ ";" = o.attr.descriptor := by
  rw [holderTarget_eq, Names.object_text, ← o.type]
  rfl

/-- The getter of the attribute was emitted, so its descriptor can be read. -/
theorem Serves.arguments (hserves : o.Serves rt) (stack : List Value) :
    arguments? .invokevirtual (Names.getterOf o.attr.descriptor) (o.receiver :: stack) =
      some ([o.receiver], stack) := by
  obtain ⟨d, hd⟩ := hserves.emitted.ofText
  have hparams := Names.params_of_getterOf hd
  change MethodDescriptor.ofText (Names.getterOf o.attr.descriptor) = .ok d at hd
  simp [arguments?, hd, hparams]

theorem Untouched.refl : o.Untouched rt s s := ⟨rfl, fun _ _ => rfl⟩

theorem holder_eq (h : s'.fields o.this = s.fields o.this) : o.holder rt s' = o.holder rt s := by
  unfold holder
  rw [h]

theorem value_eq (h : s'.fields o.this = s.fields o.this) : o.value rt s' = o.value rt s := by
  unfold value
  rw [h]

theorem Untouched.trans (h : o.Untouched rt s s') (h' : o.Untouched rt s' t) : o.Untouched rt s t :=
  ⟨h'.fields.trans h.fields, fun id hid =>
    (h'.content id ((holder_eq h.fields).trans hid)).trans (h.content id hid)⟩

theorem missing_eq (h : s'.fields o.this = s.fields o.this) : o.missing rt s' = o.missing rt s := by
  unfold missing
  rw [holder_eq h]

theorem Held.missing (h : o.Held rt s h' c) : o.missing rt s = 0 := by
  unfold LazyObject.missing
  rw [h.holder]
  exact if_neg (by simp)

theorem Typed.of_fields (h : o.Typed rt s) (hkeep : s'.fields o.this = s.fields o.this) :
    o.Typed rt s' := by
  constructor
  · rw [hkeep]
    exact h.fetchGroup
  · rw [hkeep]
    exact h.listener

/-- Fields that hold references do so after a reference was assigned to any field. -/
theorem Typed.assign (h : o.Typed rt s) (f : MemberRef) (v : Ref) :
    o.Typed rt (s.assign o.this f (.ref v)) := by
  have hfield : ∀ g, (∃ r, s.fields o.this g = .ref r) →
      ∃ r, (s.assign o.this f (.ref v)).fields o.this g = .ref r := by
    intro g hg
    rw [Store.assign_self]
    by_cases hgf : g = f
    · exact ⟨v, by rw [hgf, Function.update_self]⟩
    · rw [Function.update_of_ne hgf]
      exact hg
  exact ⟨fun hp => hfield _ (h.fetchGroup hp), fun hp => hfield _ (h.listener hp)⟩

@[simp] theorem holder_putHolder : o.holder rt (o.putHolder rt s v) = .ref v := by
  rw [holder, putHolder, Store.assign_self, Function.update_self]

@[simp] theorem value_putValue : o.value rt (o.putValue rt s v) = .ref v := by
  rw [value, putValue, Store.assign_self, Function.update_self]

theorem Serves.value_putHolder (hserves : o.Serves rt) :
    o.value rt (o.putHolder rt s v) = o.value rt s := by
  rw [value, putHolder, Store.assign_self, Function.update_of_ne hserves.distinct]
  rfl

theorem Serves.holder_putValue (hserves : o.Serves rt) :
    o.holder rt (o.putValue rt s v) = o.holder rt s := by
  rw [holder, putValue, Store.assign_self, Function.update_of_ne hserves.distinct.symm]
  rfl

theorem Held.putValue (hheld : o.Held rt s h c) (hserves : o.Serves rt) (v : Ref) :
    o.Held rt (o.putValue rt s v) h c :=
  ⟨hheld.typed.assign _ v, hserves.holder_putValue.trans hheld.holder, hheld.isHolder,
    hheld.content⟩

theorem Held.keeps (h : o.Held rt s h' c) (hkeep : o.Keeps s s' h') : o.Held rt s' h' c :=
  ⟨h.typed.of_fields hkeep.fields, (holder_eq hkeep.fields).trans h.holder, h.isHolder,
    hkeep.content.trans h.content⟩

theorem Ready.typed (h : o.Ready rt s c) : o.Typed rt s := by
  cases h with
  | bare h => exact h.typed
  | held h => exact h.typed

theorem Ready.untouched (h : o.Ready rt s c) (huntouched : o.Untouched rt s s') :
    o.Ready rt s' c := by
  cases h with
  | bare h =>
    exact .bare ⟨h.typed.of_fields huntouched.fields, (holder_eq huntouched.fields).trans h.holder,
      (value_eq huntouched.fields).trans h.value, h.castable⟩
  | held h => exact .held (h.keeps ⟨huntouched.fields, huntouched.content _ h.holder⟩)

theorem Attached.trans (h : o.Attached rt s s' h' c events) (hnext : o.Attached rt s' t h' c' events') :
    o.Attached rt s t h' c' (events ++ events') :=
  ⟨hnext.held, h.same, by
    rw [constructions_append, h.built, hnext.built, h.held.missing, Nat.add_zero]⟩

/-- What does not touch the object may come first. -/
theorem Attached.of_untouched (hattached : o.Attached rt s' t h c events')
    (huntouched : o.Untouched rt s s') (hbuilt : constructions events = 0) :
    o.Attached rt s t h c (events ++ events') := by
  refine ⟨hattached.held, ?_, ?_⟩
  · rw [← holder_eq huntouched.fields]
    exact hattached.same
  · rw [constructions_append, hbuilt, hattached.built, missing_eq huntouched.fields, Nat.zero_add]

theorem Attached.refl (hheld : o.Held rt s h c) : o.Attached rt s s h c [] :=
  ⟨hheld, .inr hheld.holder, hheld.missing.symm⟩

theorem Attached.holder_eq (hattached : o.Attached rt s s' h' c' events)
    (hheld : o.Held rt s h c) : h' = h := by
  rcases hattached.same with hnull | hsame
  · exact absurd (hheld.holder.symm.trans hnull) (by simp)
  · simpa using hsame.symm.trans hheld.holder

/-- A call that constructs nothing. -/
theorem Attached.call (hheld : o.Held rt s h c) (hheld' : o.Held rt s' h c') {e : Event}
    (he : constructsHolder e.target = false) : o.Attached rt s s' h c' [e] :=
  ⟨hheld', .inr hheld.holder, by simp [he, hheld.missing]⟩

theorem constructsHolder_holderMethod (name descriptor : String) :
    constructsHolder (Names.holderMethod name descriptor) = false := by
  simp [constructsHolder, Names.holderMethod, Names.holderInterface, Names.valueHolder]

/-! ## Making sure of a holder -/

section Bodies

variable {code rest : List Instruction} {locals : List (Option Value)} {stack : List Value}
  {Q : Option Value → Store World → List Event → Prop}

/-- Pushing a field of the object. -/
theorem completes_loadField {owner name descriptor : String} {x : Value}
    (hx : s.fields o.this (rt.field ⟨owner, name, descriptor⟩) = x) :
    rt.Completes ⟨code, aload 0 :: getField owner name descriptor :: rest, some o.receiver :: locals,
        stack⟩ s Q ↔
      rt.Completes ⟨code, rest, some o.receiver :: locals, x :: stack⟩ s Q := by
  subst hx
  rw [Runtime.completes_aload]
  constructor
  · rintro ⟨v, hv, h⟩
    obtain rfl := Option.some.inj hv
    exact Runtime.completes_getField.1 h
  · exact fun h => ⟨_, rfl, Runtime.completes_getField.2 h⟩

/-- Pushing the holder. -/
theorem completes_loadHolder {x : Value} (hholder : o.holder rt s = x) :
    rt.Completes ⟨code, o.plan.loadHolder o.attr ++ rest, some o.receiver :: locals, stack⟩ s Q ↔
      rt.Completes ⟨code, rest, some o.receiver :: locals, x :: stack⟩ s Q :=
  completes_loadField hholder

/-- Assigning the holder. -/
theorem completes_putHolder {r : Ref} :
    rt.Completes ⟨code, putField o.plan.className (Names.holderField o.attr.name)
        Names.holderInterfaceDesc :: rest, locals, .ref r :: o.receiver :: stack⟩ s Q ↔
      rt.Completes ⟨code, rest, locals, stack⟩ (o.putHolder rt s r) Q :=
  Runtime.completes_putField

/-- Reading the field of the attribute. -/
theorem completes_getValue :
    rt.Completes ⟨code, getField o.plan.className o.attr.name o.attr.descriptor :: rest, locals,
        o.receiver :: stack⟩ s Q ↔
      rt.Completes ⟨code, rest, locals, o.value rt s :: stack⟩ s Q :=
  Runtime.completes_getField

/-- Assigning the field of the attribute. -/
theorem completes_putValue {r : Ref} :
    rt.Completes ⟨code, putField o.plan.className o.attr.name o.attr.descriptor :: rest, locals,
        .ref r :: o.receiver :: stack⟩ s Q ↔
      rt.Completes ⟨code, rest, locals, stack⟩ (o.putValue rt s r) Q :=
  Runtime.completes_putField

theorem holderInitializer_body : (o.plan.holderInitializer o.attr).body =
    o.plan.loadHolder o.attr ++
      ([ jump .ifnonnull 0, aload 0, newObject Names.valueHolder, simple .dup, aload 0,
        getField o.plan.className o.attr.name o.attr.descriptor,
        invokeSpecial Names.valueHolder Names.constructor Names.objectConsumer,
        putField o.plan.className (Names.holderField o.attr.name) Names.holderInterfaceDesc ] ++
      (o.plan.loadHolder o.attr ++
      [ simple .iconst1,
        invokeInterface Names.holderInterface "setIsNewlyWeavedValueHolder" "(Z)V", mark 0,
        simple .returnVoid ])) := by
  unfold Plan.holderInitializer
  rw [if_pos o.hasField]
  rfl

/-- An object with a holder keeps it. -/
theorem Held.completes_holderInitializer (hheld : o.Held rt s h c) :
    rt.Completes (.enter (o.plan.holderInitializer o.attr).body [o.receiver]) s fun v? s' events =>
      v? = none ∧ s' = s ∧ events = [] := by
  have hmark : (o.plan.holderInitializer o.attr).body.dropWhile (· ≠ .mark 0) =
      [mark 0, simple .returnVoid] := by
    rw [holderInitializer_body]
    rfl
  have htest : test? .ifnonnull [.ref (.object h)] = some (true, []) := by simp [test?]
  rw [Activation.enter]
  nth_rewrite 2 [holderInitializer_body]
  change rt.Completes ⟨_, _, [some o.receiver], []⟩ s _
  rw [completes_loadHolder hheld.holder, List.cons_append,
    Runtime.completes_jump_of_true htest hmark, Runtime.completes_mark, Runtime.completes_returnVoid]
  exact ⟨rfl, rfl, rfl⟩

/-- An object without a holder gets one with the value of the field. -/
theorem Bare.completes_holderInitializer (hserves : o.Serves rt) (hbare : o.Bare rt s v) :
    rt.Completes (.enter (o.plan.holderInitializer o.attr).body [o.receiver]) s fun v? s' events =>
      v? = none ∧ o.value rt s' = .ref v ∧ ∃ h, o.Attached rt s s' h (some v) events := by
  obtain ⟨h, s₁, hnew, hkeep₁, hholder, hconstructed⟩ := hserves.constructs s v hbare.castable
  have htest : test? .ifnonnull [.ref .null] = some (false, []) := by simp [test?]
  have hargs : arguments? .invokespecial Names.objectConsumer
      [.ref v, .ref (.object h), .ref (.object h), o.receiver] =
      some ([.ref (.object h), .ref v], [.ref (.object h), o.receiver]) := by simp [arguments?]
  have hargs' : arguments? .invokeinterface "(Z)V" [.int 1, .ref (.object h)] =
      some ([.ref (.object h), .int 1], []) := by simp [arguments?]
  rw [Activation.enter]
  nth_rewrite 2 [holderInitializer_body]
  change rt.Completes ⟨_, _, [some o.receiver], []⟩ s _
  rw [completes_loadHolder hbare.holder]
  simp only [List.cons_append, List.nil_append]
  rw [Runtime.completes_jump_of_false htest, Runtime.completes_aload]
  refine ⟨o.receiver, rfl, ?_⟩
  rw [Runtime.completes_newObject hnew, Runtime.completes_dup, Runtime.completes_aload]
  refine ⟨o.receiver, rfl, ?_⟩
  rw [completes_getValue, value_eq hkeep₁, hbare.value]
  refine Runtime.Completes.answer hargs (.inr (by simp)) hconstructed fun v? s₂ hs₂ => ?_
  obtain ⟨rfl, hkeep₂, hcontent⟩ := hs₂
  have hheld : o.Held rt (o.putHolder rt s₂ (.object h)) h (some v) :=
    ⟨((hbare.typed.of_fields hkeep₁).of_fields hkeep₂).assign _ _, holder_putHolder, hholder, hcontent⟩
  refine completes_putHolder.2 ?_
  rw [completes_loadHolder hheld.holder, Runtime.completes_iconst1]
  refine Runtime.Completes.answer hargs' (.inr (by simp)) (hholder.setFlag _) fun v? s₃ hs₃ => ?_
  obtain ⟨rfl, hkeep₃⟩ := hs₃
  rw [Runtime.completes_mark, Runtime.completes_returnVoid]
  refine ⟨rfl, ?_, h, hheld.keeps hkeep₃, .inl hbare.holder, ?_⟩
  · rw [value_eq hkeep₃.fields, hserves.value_putHolder, value_eq hkeep₂, value_eq hkeep₁, hbare.value]
  · simp [LazyObject.missing, hbare.holder, constructsHolder, Names.holderInterface,
      Names.valueHolder]

/-- Afterwards there is a holder, and the field is as it was. -/
theorem Ready.completes_ensureHolder (hready : o.Ready rt s c) (hserves : o.Serves rt)
    (hrest : ∀ s' h events, o.Attached rt s s' h c events → o.value rt s' = o.value rt s →
      rt.Completes ⟨code, rest, some o.receiver :: locals, stack⟩ s' fun v? t events' =>
        Q v? t (events ++ events')) :
    rt.Completes ⟨code, o.plan.ensureHolder o.attr ++ rest, some o.receiver :: locals, stack⟩ s Q := by
  have hargs : arguments? .invokevirtual Names.noArgs (o.receiver :: stack) =
      some ([o.receiver], stack) := by simp [arguments?]
  have hreceiver : [o.receiver].head? ≠ some (.ref .null) := by simp [receiver]
  refine Runtime.completes_aload.2 ⟨o.receiver, rfl, Runtime.Completes.invoke hargs (.inr hreceiver)
    ((Runtime.invokes_of_body hserves.initializes).2 ?_)⟩
  cases hready with
  | held hheld =>
    refine hheld.completes_holderInitializer.mono fun v? s' events hdone => ?_
    obtain ⟨rfl, rfl, rfl⟩ := hdone
    exact hrest s' _ [] (.refl hheld) rfl
  | bare hbare =>
    refine (hbare.completes_holderInitializer hserves).mono fun v? s' events hdone => ?_
    obtain ⟨rfl, hvalue, h, hattached⟩ := hdone
    exact hrest s' h events hattached (hvalue.trans hbare.value.symm)

/-! ## Reading -/

/-- The holder answers its value, which is loaded then. -/
theorem Held.completes_getValue (hheld : o.Held rt s h c)
    (hrest : ∀ s' v events, o.Attached rt s s' h (some v) events → (∀ w, c = some w → v = w) →
      o.value rt s' = o.value rt s → rt.Completes ⟨code, rest, locals, .ref v :: stack⟩ s'
        fun v? t events' => Q v? t (events ++ events')) :
    rt.Completes ⟨code, Plan.holderCall "getValue" Names.objectGetter ++ rest, locals,
      .ref (.object h) :: stack⟩ s Q := by
  have hargs : arguments? .invokeinterface Names.objectGetter (.ref (.object h) :: stack) =
      some ([.ref (.object h)], stack) := by simp [arguments?]
  refine Runtime.Completes.answer hargs (.inr (by simp)) (hheld.isHolder.getValue s)
    fun v? s' hanswer => ?_
  obtain ⟨hkeep, v, rfl, hcontent, hsame⟩ := hanswer
  have hheld' : o.Held rt s' h (some v) :=
    ⟨hheld.typed.of_fields hkeep, (holder_eq hkeep).trans hheld.holder, hheld.isHolder, hcontent⟩
  exact hrest s' v [_] (.call hheld hheld' (constructsHolder_holderMethod _ _))
    (fun w hw => hsame w (hheld.content.trans hw)) (value_eq hkeep)

/-- Afterwards the holder is loaded, and the field has its value. -/
theorem Ready.completes_syncFromHolder (hready : o.Ready rt s c) (hserves : o.Serves rt)
    (hrest : ∀ s' h v events, o.Attached rt s s' h (some v) events → (∀ w, c = some w → v = w) →
      o.value rt s' = .ref v → rt.Completes ⟨code, rest, some o.receiver :: locals, stack⟩ s'
        fun v? t events' => Q v? t (events ++ events')) :
    rt.Completes ⟨code, o.plan.syncFromHolder o.attr ++ rest, some o.receiver :: locals, stack⟩ s
      Q := by
  unfold Plan.syncFromHolder
  simp only [List.append_assoc]
  refine hready.completes_ensureHolder hserves fun s₁ h events₁ hattached₁ _ => ?_
  refine Runtime.completes_aload.2 ⟨o.receiver, rfl, ?_⟩
  refine (completes_loadHolder hattached₁.held.holder).2 ?_
  refine hattached₁.held.completes_getValue fun s₂ v events₂ hattached₂ hsame _ => ?_
  have hcast : rt.Castable v (Plan.holderTarget o.attr) := by
    rw [holderTarget_eq]
    exact hattached₂.held.isHolder.castable _ _ hattached₂.held.content
  refine (Runtime.completes_checkCast hcast).2 (completes_putValue.2 ?_)
  have hattached : o.Attached rt s (o.putValue rt s₂ v) h (some v) (events₁ ++ events₂) := by
    refine hattached₁.trans ⟨hattached₂.held.putValue hserves v, hattached₂.same, hattached₂.built⟩
  have hrest := hrest _ h v _ hattached hsame value_putValue
  simp only [List.append_assoc] at hrest
  exact hrest

/-! ## Fetch checks -/

/-- Whether the attribute was fetched is found out without touching the object. -/
theorem Fetches.completes_isAttributeFetched (hfetches : o.Fetches rt) {g : Ref}
    (hgroup : s.fields o.this (rt.field o.fetchOwner.fetchGroupRef) = .ref g) :
    rt.Completes (.enter o.fetchOwner.isAttributeFetched.body
        [o.receiver, .ref (.string o.attr.name)]) s fun v? s' events =>
      (∃ n, v? = some (.int n)) ∧ o.Untouched rt s s' ∧ constructions events = 0 := by
  have hfetched : o.fetchOwner.isAttributeFetched.body.dropWhile (· ≠ .mark 0) =
      [ mark 0, simple .iconst1, jump .goto 2, mark 1, simple .iconst0, mark 2, simple .ireturn ] := rfl
  have hunfetched : o.fetchOwner.isAttributeFetched.body.dropWhile (· ≠ .mark 1) =
      [mark 1, simple .iconst0, mark 2, simple .ireturn] := rfl
  have hdone : o.fetchOwner.isAttributeFetched.body.dropWhile (· ≠ .mark 2) =
      [mark 2, simple .ireturn] := rfl
  have hgoto : test? .goto [.int 1] = some (true, [.int 1]) := rfl
  -- From the first mark the answer is yes.
  have hyes : ∀ {locals t Q}, rt.Completes ⟨o.fetchOwner.isAttributeFetched.body,
      [mark 0, simple .iconst1, jump .goto 2, mark 1, simple .iconst0, mark 2, simple .ireturn],
      locals, []⟩ t Q ↔ Q (some (.int 1)) t [] := by
    intro locals t Q
    rw [Runtime.completes_mark, Runtime.completes_iconst1,
      Runtime.completes_jump_of_true hgoto hdone, Runtime.completes_mark, Runtime.completes_ireturn]
  change rt.Completes ⟨o.fetchOwner.isAttributeFetched.body,
    [ aload 0, getField o.fetchOwner.className StateField.fetchGroup.name
        StateField.fetchGroup.type.text, jump .ifnull 0,
      aload 0, getField o.fetchOwner.className StateField.fetchGroup.name
        StateField.fetchGroup.type.text, aload 1,
      invokeVirtual Names.fetchGroup "containsAttributeInternal" Names.stringTest, jump .ifeq 1,
      mark 0, simple .iconst1, jump .goto 2, mark 1, simple .iconst0, mark 2, simple .ireturn ],
    [some o.receiver, some (.ref (.string o.attr.name))], []⟩ s _
  rw [completes_loadField hgroup]
  by_cases hnull : g = .null
  · have htest : test? .ifnull [.ref g] = some (true, []) := by simp [test?, hnull]
    rw [Runtime.completes_jump_of_true htest hfetched, hyes]
    exact ⟨⟨1, rfl⟩, .refl, rfl⟩
  · have htest : test? .ifnull [.ref g] = some (false, []) := by simp [test?, hnull]
    have hargs : arguments? .invokevirtual Names.stringTest [.ref (.string o.attr.name), .ref g] =
        some ([.ref g, .ref (.string o.attr.name)], []) := by simp [arguments?]
    rw [Runtime.completes_jump_of_false htest, completes_loadField hgroup, Runtime.completes_aload]
    refine ⟨_, rfl, Runtime.Completes.answer hargs (.inr (by simpa using hnull))
      (hfetches.contains g s hnull) fun v? s' hanswer => ?_⟩
    obtain ⟨⟨n, rfl⟩, huntouched⟩ := hanswer
    by_cases hzero : n = 0
    · have htest : test? .ifeq [.int n] = some (true, []) := by simp [test?, hzero]
      refine (Runtime.completes_jump_of_true htest hunfetched).2 ?_
      rw [Runtime.completes_mark, Runtime.completes_iconst0, Runtime.completes_mark,
        Runtime.completes_ireturn]
      exact ⟨⟨0, rfl⟩, huntouched, by simp [constructsHolder, Names.fetchGroup, Names.valueHolder]⟩
    · have htest : test? .ifeq [.int n] = some (false, []) := by simp [test?, hzero]
      refine (Runtime.completes_jump_of_false htest).2 (hyes.2 ?_)
      exact ⟨⟨1, rfl⟩, huntouched, by simp [constructsHolder, Names.fetchGroup, Names.valueHolder]⟩

/-- A fetch check does not touch the object. -/
theorem Fetches.completes_fetchGuard (hfetches : o.Fetches rt) {x : String × String}
    (hx : x ∈ Names.fetchGuards) {g : Ref}
    (hgroup : s.fields o.this (rt.field o.fetchOwner.fetchGroupRef) = .ref g) :
    rt.Completes (.enter (o.fetchOwner.fetchGuard x.1 x.2).body
        [o.receiver, .ref (.string o.attr.name)]) s fun v? s' events =>
      v? = none ∧ o.Untouched rt s s' ∧ constructions events = 0 := by
  have hmark : (o.fetchOwner.fetchGuard x.1 x.2).body.dropWhile (· ≠ .mark 0) =
      [mark 0, simple .returnVoid] := rfl
  have hargs : arguments? .invokevirtual Names.stringTest [.ref (.string o.attr.name), o.receiver] =
      some ([o.receiver, .ref (.string o.attr.name)], []) := by simp [arguments?]
  have hargs' : arguments? .invokestatic Names.unfetchedCallback
      [.ref (.string o.attr.name), o.receiver] =
      some ([o.receiver, .ref (.string o.attr.name)], []) := by simp [arguments?]
  change rt.Completes ⟨(o.fetchOwner.fetchGuard x.1 x.2).body,
    [ aload 0, aload 1,
      invokeVirtual o.fetchOwner.className Names.isAttributeFetched Names.stringTest,
      jump .ifne 0, aload 0, checkCast Names.fetchGroupTracker, aload 1,
      invokeStatic Names.entityManager x.2 Names.unfetchedCallback, mark 0, simple .returnVoid ],
    [some o.receiver, some (.ref (.string o.attr.name))], []⟩ s _
  simp only [Runtime.completes_aload]
  refine ⟨_, rfl, _, rfl, Runtime.Completes.invoke hargs (.inr (by simp [receiver]))
    ((Runtime.invokes_of_body hfetches.test).2 ?_)⟩
  refine (hfetches.completes_isAttributeFetched hgroup).mono fun v? s₁ events hasked => ?_
  obtain ⟨⟨n, rfl⟩, huntouched, hbuilt⟩ := hasked
  by_cases hzero : n = 0
  · have htest : test? .ifne [.int n] = some (false, []) := by simp [test?, hzero]
    refine (Runtime.completes_jump_of_false htest).2 (Runtime.completes_aload.2 ⟨_, rfl, ?_⟩)
    refine (Runtime.completes_checkCast (.inr hfetches.tracker)).2
      (Runtime.completes_aload.2 ⟨_, rfl, ?_⟩)
    refine Runtime.Completes.answer hargs' (.inl rfl) (hfetches.callbacks x hx s₁)
      fun v? s₂ hanswer => ?_
    obtain ⟨rfl, huntouched'⟩ := hanswer
    rw [Runtime.completes_mark, Runtime.completes_returnVoid]
    refine ⟨rfl, huntouched.trans huntouched', ?_⟩
    simp [hbuilt, constructsHolder, Names.entityManager, Names.valueHolder]
  · have htest : test? .ifne [.int n] = some (true, []) := by simp [test?, hzero]
    refine (Runtime.completes_jump_of_true htest hmark).2 ?_
    rw [Runtime.completes_mark, Runtime.completes_returnVoid]
    exact ⟨rfl, huntouched, by simp [hbuilt]⟩

/-- Both accessors of the field start with the fetch check, after which the holder is loaded and the
field has its value. -/
theorem Ready.completes_accessPrologue (hready : o.Ready rt s c) (hserves : o.Serves rt)
    {x : String × String} (hx : x ∈ Names.fetchGuards)
    (hrest : ∀ s' h v events, o.Attached rt s s' h (some v) events → (∀ w, c = some w → v = w) →
      o.value rt s' = .ref v → rt.Completes ⟨code, rest, some o.receiver :: locals, stack⟩ s'
        fun v? t events' => Q v? t (events ++ events')) :
    rt.Completes ⟨code, o.plan.accessPrologue o.attr x.1 ++ rest, some o.receiver :: locals, stack⟩ s
      Q := by
  unfold Plan.accessPrologue
  rw [if_pos o.weaves, List.append_assoc]
  split
  · next hfetch =>
    have hfetches := hserves.fetches hfetch
    obtain ⟨g, hgroup⟩ := hready.typed.fetchGroup hfetch
    have hargs : arguments? .invokevirtual Names.stringConsumer
        (.ref (.string o.attr.name) :: o.receiver :: stack) =
        some ([o.receiver, .ref (.string o.attr.name)], stack) := by simp [arguments?]
    refine Runtime.completes_aload.2 ⟨o.receiver, rfl, Runtime.completes_ldcString.2 ?_⟩
    refine Runtime.Completes.invoke hargs (.inr (by simp [receiver]))
      ((Runtime.invokes_of_body (hfetches.guards x hx)).2 ?_)
    refine (hfetches.completes_fetchGuard hx hgroup).mono fun v? s₁ events₁ hchecked => ?_
    obtain ⟨rfl, huntouched, hbuilt⟩ := hchecked
    refine (hready.untouched huntouched).completes_syncFromHolder hserves
      fun s₂ h v events₂ hattached hsame hvalue => ?_
    have hrest := hrest s₂ h v (events₁ ++ events₂)
      (hattached.of_untouched huntouched hbuilt) hsame hvalue
    simp only [List.append_assoc] at hrest
    exact hrest
  · exact hready.completes_syncFromHolder hserves hrest

/-! ## The accessors of the field -/

/-- The getter of the field answers the value of the holder, which the field has then too. -/
theorem Ready.completes_fieldGetter (hready : o.Ready rt s c) (hserves : o.Serves rt) :
    rt.Completes (.enter (o.plan.fieldGetter o.attr).body [o.receiver]) s fun v? s' events =>
      ∃ h v, v? = some (.ref v) ∧ o.Attached rt s s' h (some v) events ∧
        (∀ w, c = some w → v = w) ∧ o.value rt s' = .ref v := by
  have hret : ret o.attr.type = simple .areturn := by
    rw [o.type]
    rfl
  change rt.Completes ⟨_, o.plan.accessPrologue o.attr Names.checkFetched ++
    [aload 0, getField o.plan.className o.attr.name o.attr.descriptor, ret o.attr.type],
    [some o.receiver], []⟩ s _
  refine hready.completes_accessPrologue hserves (x := (Names.checkFetched, _)) (.head _)
    fun s' h v events hattached hsame hvalue => ?_
  rw [completes_loadField hvalue, hret, Runtime.completes_areturn, List.append_nil]
  exact ⟨h, v, rfl, hattached, hsame, hvalue⟩

/-- A change is announced without touching the object. -/
theorem Held.completes_announceChange (hheld : o.Held rt s h (some v)) (hserves : o.Serves rt)
    (hvalue : o.value rt s = .ref v) {w : Ref}
    (hrest : ∀ s' events, o.Attached rt s s' h (some v) events →
      rt.Completes ⟨code, rest, [some o.receiver, some (.ref w)], []⟩ s'
        fun v? t events' => Q v? t (events ++ events')) :
    rt.Completes ⟨code, (if o.plan.changeTracking then o.plan.announceChange o.attr else []) ++ rest,
      [some o.receiver, some (.ref w)], []⟩ s Q := by
  split
  · next htracking =>
    have hannounces := hserves.announces htracking
    obtain ⟨l, hlistener⟩ := hheld.typed.listener htracking
    have hargs : arguments? .invokevirtual Names.propertyChangeDesc
        [.ref w, .ref v, .ref (.string o.attr.name), o.receiver] =
        some ([o.receiver, .ref (.string o.attr.name), .ref v, .ref w], []) := by
      simp [arguments?]
    have hbox : o.attr.type.boxCode = [] := by
      rw [o.type]
      rfl
    unfold Plan.announceChange
    simp only [hbox, List.nil_append, List.cons_append]
    refine Runtime.completes_aload.2 ⟨o.receiver, rfl, Runtime.completes_ldcString.2 ?_⟩
    rw [completes_loadField hvalue, Runtime.completes_load]
    refine ⟨.ref w, rfl, Runtime.Completes.invoke hargs (.inr (by simp [receiver]))
      ((Runtime.invokes_of_body (hannounces.body _)).2 ?_)⟩
    refine Plan.completes_propertyChange hlistener (fun _ => hrest s [] (.refl hheld)) ?_
    intro hnull _
    obtain ⟨id, s₁, hnew, huntouched₁⟩ := hannounces.makes s
    refine ⟨id, s₁, hnew, (hannounces.constructs id _ s₁).mono fun v? s₂ hs₂ => ?_⟩
    obtain ⟨rfl, huntouched₂⟩ := hs₂
    refine ⟨rfl, (hannounces.notifies l id s₂ hnull).mono fun v? s₃ hs₃ => ?_⟩
    obtain ⟨rfl, huntouched₃⟩ := hs₃
    have huntouched := (huntouched₁.trans huntouched₂).trans huntouched₃
    refine ⟨rfl, hrest s₃ _ ⟨hheld.keeps ⟨huntouched.fields, huntouched.content _ hheld.holder⟩,
      .inr hheld.holder, ?_⟩⟩
    simp [hheld.missing, constructsHolder, Names.eventConstructor, Names.listenerCall,
      Names.changeEvent, Names.listener, Names.valueHolder]
  · exact hrest s [] (.refl hheld)

/-- The setter of the field gives the field and the holder the same value. -/
theorem Ready.completes_fieldSetter (hready : o.Ready rt s c) (hserves : o.Serves rt)
    (hcast : rt.Castable v o.target) :
    rt.Completes (.enter (o.plan.fieldSetter o.attr).body [o.receiver, .ref v]) s
      fun v? s' events => v? = none ∧ ∃ h, o.Attached rt s s' h (some v) events ∧
        o.value rt s' = .ref v := by
  have hbody : (o.plan.fieldSetter o.attr).body =
      o.plan.accessPrologue o.attr Names.checkFetchedForSet ++
        ((if o.plan.changeTracking then o.plan.announceChange o.attr else []) ++
          ([ aload 0, Instruction.load o.attr.type 1,
            putField o.plan.className o.attr.name o.attr.descriptor ] ++
          (o.plan.loadHolder o.attr ++ [ aload 1,
            invokeInterface Names.holderInterface "setValue" Names.objectConsumer,
            simple .returnVoid ]))) := by
    simp [Plan.fieldSetter, o.weaves, Plan.holderCall]
  rw [Activation.enter]
  nth_rewrite 2 [hbody]
  change rt.Completes ⟨_, _, [some o.receiver, some (.ref v)], []⟩ s _
  refine hready.completes_accessPrologue hserves (x := (Names.checkFetchedForSet, _))
    (.tail _ (.head _)) fun s₁ h w events₁ hattached₁ _ hvalue₁ => ?_
  refine hattached₁.held.completes_announceChange hserves hvalue₁ fun s₂ events₂ hattached₂ => ?_
  refine Runtime.completes_aload.2 ⟨o.receiver, rfl, Runtime.completes_load.2 ⟨.ref v, rfl, ?_⟩⟩
  have hheld := hattached₂.held.putValue hserves v
  refine completes_putValue.2 ((completes_loadHolder hheld.holder).2 ?_)
  have hargs : arguments? .invokeinterface Names.objectConsumer [.ref v, .ref (.object h)] =
      some ([.ref (.object h), .ref v], []) := by simp [arguments?]
  refine Runtime.completes_aload.2 ⟨.ref v, rfl, Runtime.Completes.answer hargs (.inr (by simp))
    (hheld.isHolder.setValue _ v hcast) fun v? s₃ hanswer => ?_⟩
  obtain ⟨rfl, hkeep, hcontent⟩ := hanswer
  rw [Runtime.completes_returnVoid]
  have hheld' : o.Held rt s₃ h (some v) :=
    ⟨hheld.typed.of_fields hkeep, (holder_eq hkeep).trans hheld.holder, hheld.isHolder, hcontent⟩
  have hattached : o.Attached rt s (o.putValue rt s₂ v) h (some w) (events₁ ++ events₂) :=
    hattached₁.trans ⟨hheld, hattached₂.same, hattached₂.built⟩
  refine ⟨rfl, h, ?_, (value_eq hkeep).trans value_putValue⟩
  rw [← List.append_assoc]
  exact hattached.trans (.call hheld hheld' (constructsHolder_holderMethod _ _))

/-! ## The accessors of the holder -/

theorem callGetter_eq : o.plan.callGetter o.attr =
    [ aload 0, invokeVirtual o.plan.className (Names.fieldGetter o.attr.name)
      (Names.getterOf o.attr.descriptor) ] := by
  simp [Plan.callGetter, o.getter, ← wrapped_eq]

theorem callSetter_eq (push : List Instruction) : o.plan.callSetter o.attr push =
    aload 0 :: push ++ [ invokeVirtual o.plan.className (Names.fieldSetter o.attr.name)
      (Names.setterOf o.attr.descriptor) ] := by
  simp [Plan.callSetter, o.setter, ← wrapped_eq]

/-- The accessors of the holder read the attribute through the getter of its field. -/
theorem Held.completes_callGetter (hheld : o.Held rt s h c) (hserves : o.Serves rt)
    (hrest : ∀ s' v events, o.Attached rt s s' h (some v) events → (∀ w, c = some w → v = w) →
      o.value rt s' = .ref v → rt.Completes ⟨code, rest, some o.receiver :: locals, .ref v :: stack⟩
        s' fun v? t events' => Q v? t (events ++ events')) :
    rt.Completes ⟨code, o.plan.callGetter o.attr ++ rest, some o.receiver :: locals, stack⟩ s Q := by
  rw [callGetter_eq]
  refine Runtime.completes_aload.2 ⟨o.receiver, rfl, Runtime.Completes.invoke
    (hserves.arguments stack) (.inr (by simp [receiver]))
    ((Runtime.invokes_of_body hserves.reads).2 ?_)⟩
  refine ((Ready.held hheld).completes_fieldGetter hserves).mono fun v? s' events hread => ?_
  obtain ⟨h', v, rfl, hattached, hsame, hvalue⟩ := hread
  obtain rfl := hattached.holder_eq hheld
  exact hrest s' v events hattached hsame hvalue

/-- A flag of the holder is asked without changing anything. -/
theorem Held.completes_flag (hheld : o.Held rt s h c) {name : String}
    (hname : name ∈ ["isCoordinatedWithProperty", "isNewlyWeavedValueHolder"])
    (hrest : ∀ s' n events, o.Attached rt s s' h c events → o.value rt s' = o.value rt s →
      rt.Completes ⟨code, rest, locals, .int n :: stack⟩ s'
        fun v? t events' => Q v? t (events ++ events')) :
    rt.Completes ⟨code, Plan.holderCall name Names.flagGetter ++ rest, locals,
      .ref (.object h) :: stack⟩ s Q := by
  have hargs : arguments? .invokeinterface Names.flagGetter (.ref (.object h) :: stack) =
      some ([.ref (.object h)], stack) := by simp [arguments?]
  refine Runtime.Completes.answer hargs (.inr (by simp)) (hheld.isHolder.flags name hname s)
    fun v? s' hanswer => ?_
  obtain ⟨⟨n, rfl⟩, hkeep⟩ := hanswer
  exact hrest s' n [_] (.call hheld (hheld.keeps hkeep) (constructsHolder_holderMethod _ _))
    (value_eq hkeep.fields)

/-- What the getter of the holder ends with. -/
def holderGetterEnd : List Instruction :=
  mark 1 :: (o.plan.loadHolder o.attr ++ [simple .areturn])

/-- How the getter of the holder brings the attribute into step. -/
def holderGetterResync : List Instruction :=
  mark 0 :: (o.plan.callGetter o.attr ++ ([var .astore 1, aload 1] ++ (o.plan.loadHolder o.attr ++
    (Plan.holderCall "getValue" Names.objectGetter ++ ([jump .ifAcmpeq 1] ++
      (o.plan.callSetter o.attr [aload 1] ++ o.holderGetterEnd))))))

theorem holderGetter_body : (o.plan.holderGetter o.attr).body =
    o.plan.ensureHolder o.attr ++ (o.plan.loadHolder o.attr ++
      (Plan.holderCall "isCoordinatedWithProperty" Names.flagGetter ++ ([jump .ifne 0] ++
        (o.plan.loadHolder o.attr ++ (Plan.holderCall "isNewlyWeavedValueHolder" Names.flagGetter ++
          ([jump .ifeq 1] ++ o.holderGetterResync)))))) := by
  simp [Plan.holderGetter, holderGetterResync, holderGetterEnd]

theorem holderGetter_dropWhile : (o.plan.holderGetter o.attr).body.dropWhile (· ≠ .mark 0) =
      o.holderGetterResync ∧
    (o.plan.holderGetter o.attr).body.dropWhile (· ≠ .mark 1) = o.holderGetterEnd := by
  rw [holderGetter_body, holderGetterResync, holderGetterEnd, callGetter_eq, callSetter_eq]
  exact ⟨rfl, rfl⟩

/-- In the end the getter of the holder answers the holder. -/
theorem Held.completes_holderGetterEnd (hheld : o.Held rt s h c) :
    rt.Completes ⟨code, o.holderGetterEnd, some o.receiver :: locals, []⟩ s Q ↔
      Q (some (.ref (.object h))) s [] := by
  unfold holderGetterEnd
  rw [Runtime.completes_mark, completes_loadHolder hheld.holder, Runtime.completes_areturn]

/-- The value that the getter of the field answers is the value of the holder, so the setter of the
field is not called. -/
theorem Held.completes_holderGetterResync (hheld : o.Held rt s h c) (hserves : o.Serves rt) :
    rt.Completes ⟨(o.plan.holderGetter o.attr).body, o.holderGetterResync, [some o.receiver], []⟩ s
      fun v? s' events => v? = some (.ref (.object h)) ∧ ∃ v, o.Attached rt s s' h (some v) events ∧
        (∀ w, c = some w → v = w) ∧ o.value rt s' = .ref v := by
  unfold holderGetterResync
  rw [Runtime.completes_mark]
  refine hheld.completes_callGetter hserves fun s₁ v events₁ hattached₁ hsame hvalue₁ => ?_
  refine Runtime.completes_astore.2 ?_
  change rt.Completes ⟨_, aload 1 :: _, [some o.receiver, some (.ref v)], []⟩ s₁ _
  refine Runtime.completes_aload.2 ⟨.ref v, rfl, ?_⟩
  refine (completes_loadHolder hattached₁.held.holder).2 ?_
  refine hattached₁.held.completes_getValue fun s₂ w events₂ hattached₂ hsame₂ hvalue₂ => ?_
  obtain rfl : w = v := hsame₂ v rfl
  have htest : test? .ifAcmpeq [.ref w, .ref w] = some (true, []) := by simp [test?]
  refine (Runtime.completes_jump_of_true htest holderGetter_dropWhile.2).2 ?_
  refine hattached₂.held.completes_holderGetterEnd.2 ⟨rfl, w, ?_, hsame, hvalue₂.trans hvalue₁⟩
  rw [List.append_nil]
  exact hattached₁.trans hattached₂

/-- The getter of the holder answers the holder.  If the field had the value of the attribute before, it
has it afterwards. -/
theorem Ready.completes_holderGetter (hready : o.Ready rt s c) (hserves : o.Serves rt)
    (hvalue : o.value rt s = .ref (c.getD .null)) :
    rt.Completes (.enter (o.plan.holderGetter o.attr).body [o.receiver]) s fun v? s' events =>
      ∃ h c', v? = some (.ref (.object h)) ∧ o.Attached rt s s' h c' events ∧
        (∀ w, c = some w → c' = some w) ∧ o.value rt s' = .ref (c'.getD .null) := by
  have hresync : ∀ {s₁ h events₁}, o.Attached rt s s₁ h c events₁ →
      rt.Completes ⟨(o.plan.holderGetter o.attr).body, o.holderGetterResync, [some o.receiver], []⟩ s₁
        fun v? s' events => ∃ h c', v? = some (.ref (.object h)) ∧
          o.Attached rt s s' h c' (events₁ ++ events) ∧ (∀ w, c = some w → c' = some w) ∧
            o.value rt s' = .ref (c'.getD .null) := by
    intro s₁ h events₁ hattached₁
    refine (hattached₁.held.completes_holderGetterResync hserves).mono fun v? s' events hdone => ?_
    obtain ⟨rfl, v, hattached, hsame, hvalue⟩ := hdone
    exact ⟨h, some v, rfl, hattached₁.trans hattached, fun w hw => congrArg some (hsame w hw), hvalue⟩
  rw [Activation.enter]
  nth_rewrite 2 [holderGetter_body]
  change rt.Completes ⟨_, _, [some o.receiver], []⟩ s _
  refine hready.completes_ensureHolder hserves fun s₁ h events₁ hattached₁ hvalue₁ => ?_
  refine (completes_loadHolder hattached₁.held.holder).2 ?_
  refine hattached₁.held.completes_flag (.head _) fun s₂ n events₂ hattached₂ hvalue₂ => ?_
  have hattached₂ := hattached₁.trans hattached₂
  by_cases hcoordinated : n = 0
  · have htest : test? .ifne [.int n] = some (false, []) := by simp [test?, hcoordinated]
    refine (Runtime.completes_jump_of_false htest).2 ?_
    refine (completes_loadHolder hattached₂.held.holder).2 ?_
    refine hattached₂.held.completes_flag (.tail _ (.head _))
      fun s₃ m events₃ hattached₃ hvalue₃ => ?_
    have hattached₃ := hattached₂.trans hattached₃
    by_cases hwoven : m = 0
    · have htest : test? .ifeq [.int m] = some (true, []) := by simp [test?, hwoven]
      refine (Runtime.completes_jump_of_true htest holderGetter_dropWhile.2).2 ?_
      refine hattached₃.held.completes_holderGetterEnd.2 ⟨h, c, rfl, ?_, fun _ hw => hw, ?_⟩
      · simpa using hattached₃
      · rw [hvalue₃, hvalue₂, hvalue₁, hvalue]
    · have htest : test? .ifeq [.int m] = some (false, []) := by simp [test?, hwoven]
      refine (Runtime.completes_jump_of_false htest).2 ?_
      have hresync := hresync hattached₃
      simp only [List.append_assoc] at hresync
      exact hresync
  · have htest : test? .ifne [.int n] = some (true, []) := by simp [test?, hcoordinated]
    refine (Runtime.completes_jump_of_true htest holderGetter_dropWhile.1).2 ?_
    have hresync := hresync hattached₂
    simp only [List.append_assoc] at hresync
    exact hresync

/-- How the setter of the holder ends when the holder is loaded. -/
def holderSetterLoaded : List Instruction :=
  o.plan.callGetter o.attr ++ ([var .astore 2, aload 1] ++
    (Plan.holderCall "getValue" Names.objectGetter ++
      ([var .astore 3, aload 2, aload 3, jump .ifAcmpeq 1] ++
        (o.plan.callSetter o.attr [aload 3, checkCast (Plan.holderTarget o.attr)] ++
          [ mark 1, jump .goto 2, mark 0, aload 0, simple .aconstNull,
            putField o.plan.className o.attr.name o.attr.descriptor, mark 2, simple .returnVoid ]))))

theorem holderSetter_body : (o.plan.holderSetter o.attr).body =
    [ aload 0, aload 1,
      putField o.plan.className (Names.holderField o.attr.name) Names.holderInterfaceDesc, aload 1 ] ++
      (Plan.holderCall "isInstantiated" Names.flagGetter ++ ([jump .ifeq 0] ++
        o.holderSetterLoaded)) := by
  simp [Plan.holderSetter, holderSetterLoaded, o.setter, o.hasField]

theorem holderSetter_dropWhile : (o.plan.holderSetter o.attr).body.dropWhile (· ≠ .mark 0) =
      [ mark 0, aload 0, simple .aconstNull,
        putField o.plan.className o.attr.name o.attr.descriptor, mark 2, simple .returnVoid ] ∧
    (o.plan.holderSetter o.attr).body.dropWhile (· ≠ .mark 1) =
      [ mark 1, jump .goto 2, mark 0, aload 0, simple .aconstNull,
        putField o.plan.className o.attr.name o.attr.descriptor, mark 2, simple .returnVoid ] ∧
    (o.plan.holderSetter o.attr).body.dropWhile (· ≠ .mark 2) = [mark 2, simple .returnVoid] := by
  rw [holderSetter_body, holderSetterLoaded, callGetter_eq, callSetter_eq]
  exact ⟨rfl, rfl, rfl⟩

/-- The field gets the value of a loaded holder from the getter of the field, so the setter of the field
is not called. -/
theorem Held.completes_holderSetterLoaded (hheld : o.Held rt s h (some v)) (hserves : o.Serves rt) :
    rt.Completes ⟨(o.plan.holderSetter o.attr).body, o.holderSetterLoaded,
        [some o.receiver, some (.ref (.object h))], []⟩ s fun v? s' events =>
      v? = none ∧ o.Attached rt s s' h (some v) events ∧ o.value rt s' = .ref v := by
  unfold holderSetterLoaded
  refine hheld.completes_callGetter hserves fun s₁ w events₁ hattached₁ hsame₁ hvalue₁ => ?_
  obtain rfl : w = v := hsame₁ v rfl
  refine Runtime.completes_astore.2 ?_
  change rt.Completes ⟨_, aload 1 :: _, [some o.receiver, some (.ref (.object h)), some (.ref w)],
    []⟩ s₁ _
  refine Runtime.completes_aload.2 ⟨.ref (.object h), rfl, ?_⟩
  refine hattached₁.held.completes_getValue fun s₂ x events₂ hattached₂ hsame₂ hvalue₂ => ?_
  obtain rfl : x = w := hsame₂ w rfl
  refine Runtime.completes_astore.2 ?_
  change rt.Completes ⟨_, aload 2 :: _,
    [some o.receiver, some (.ref (.object h)), some (.ref x), some (.ref x)], []⟩ s₂ _
  have htest : test? .ifAcmpeq [.ref x, .ref x] = some (true, []) := by simp [test?]
  have hgoto : test? .goto [] = some (true, []) := rfl
  refine Runtime.completes_aload.2 ⟨.ref x, rfl, Runtime.completes_aload.2 ⟨.ref x, rfl, ?_⟩⟩
  refine (Runtime.completes_jump_of_true htest holderSetter_dropWhile.2.1).2 ?_
  rw [Runtime.completes_mark, Runtime.completes_jump_of_true hgoto holderSetter_dropWhile.2.2,
    Runtime.completes_mark, Runtime.completes_returnVoid, List.append_nil]
  exact ⟨rfl, hattached₁.trans hattached₂, hvalue₂.trans hvalue₁⟩

/-- The setter of the holder gives the field the value of a loaded holder, and null if it is not
loaded.  No holder is constructed. -/
theorem Typed.completes_holderSetter (htyped : o.Typed rt s) (hserves : o.Serves rt)
    (hholder : o.IsHolder rt h) (hcontent : o.content s.world h = c) :
    rt.Completes (.enter (o.plan.holderSetter o.attr).body [o.receiver, .ref (.object h)]) s
      fun v? s' events => v? = none ∧ o.Held rt s' h c ∧ constructions events = 0 ∧
        o.value rt s' = .ref (c.getD .null) := by
  have hheld : o.Held rt (o.putHolder rt s (.object h)) h c :=
    ⟨htyped.assign _ _, holder_putHolder, hholder, hcontent⟩
  have hargs : arguments? .invokeinterface Names.flagGetter [.ref (.object h)] =
      some ([.ref (.object h)], []) := by simp [arguments?]
  have hother : ∀ e events, e.target = Names.holderMethod "isInstantiated" Names.flagGetter →
      constructions (e :: events) = constructions events := by
    intro e events he
    simp [he, constructsHolder_holderMethod]
  rw [Activation.enter]
  nth_rewrite 2 [holderSetter_body]
  change rt.Completes ⟨_, _, [some o.receiver, some (.ref (.object h))], []⟩ s _
  refine Runtime.completes_aload.2 ⟨o.receiver, rfl,
    Runtime.completes_aload.2 ⟨.ref (.object h), rfl, completes_putHolder.2 ?_⟩⟩
  refine Runtime.completes_aload.2 ⟨.ref (.object h), rfl, Runtime.Completes.answer hargs
    (.inr (by simp)) (hholder.isInstantiated _) fun v? s₁ hanswer => ?_⟩
  obtain ⟨rfl, hkeep⟩ := hanswer
  have hheld₁ := hheld.keeps hkeep
  rw [hheld.content]
  cases c with
  | none =>
    have htest : test? .ifeq [.int (if (none : Option Ref).isSome then 1 else 0)] = some (true, []) :=
      rfl
    refine (Runtime.completes_jump_of_true htest holderSetter_dropWhile.1).2 ?_
    rw [Runtime.completes_mark]
    refine Runtime.completes_aload.2 ⟨o.receiver, rfl, ?_⟩
    rw [Runtime.completes_aconstNull]
    refine completes_putValue.2 ?_
    rw [Runtime.completes_mark, Runtime.completes_returnVoid]
    exact ⟨rfl, hheld₁.putValue hserves .null, hother _ _ rfl, value_putValue⟩
  | some v =>
    have htest : test? .ifeq [.int (if (some v).isSome then 1 else 0)] = some (false, []) := rfl
    refine (Runtime.completes_jump_of_false htest).2 ?_
    refine (hheld₁.completes_holderSetterLoaded hserves).mono fun v? s' events hdone => ?_
    obtain ⟨rfl, hattached, hvalue⟩ := hdone
    refine ⟨rfl, hattached.held, ?_, hvalue⟩
    rw [hother _ _ rfl, hattached.built, hheld₁.missing]

end Bodies

end LazyObject

end Machine

end EntityLoom
