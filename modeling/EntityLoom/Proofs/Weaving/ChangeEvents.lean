import EntityLoom.Proofs.Machine.Boxing
import EntityLoom.Proofs.Weaving.TypedBodies

/-!
# Change events

The setter of a field in a class that tracks changes, run on an object.  It reads the old value,
boxes it and the new one, and has both compared by the method that holds the listener; only then is
the field assigned.  `Machine.Runtime.Tracks.changes_announced` says what the listener hears of a
sequence of calls.
-/

namespace EntityLoom

open Machine Instruction

/-- The method that a listener is told of a change by. -/
def Names.listenerCall : MemberRef := ⟨listener, "propertyChange", changeEventConsumer⟩

/-- The constructor of the events that listeners are told. -/
def Names.eventConstructor : MemberRef := ⟨changeEvent, constructor, changeEventConstructor⟩

namespace Plan

/-- The field of an attribute, as code of the class refers to it. -/
def attributeRef (p : Plan) (a : MappedAttribute) : MemberRef := ⟨p.className, a.name, a.descriptor⟩

/-- The field of the listener, as code of the class refers to it. -/
def listenerRef (p : Plan) : MemberRef :=
  ⟨p.className, StateField.listener.name, StateField.listener.type.text⟩

end Plan

variable {World : Type} {rt : Runtime World} {boxes : Descriptor → Ref → Value → Prop} {p q : Plan}
  {a : MappedAttribute} {this : Nat} {listener : Ref} {s s' : Store World} {old new v : Value}

/-! ## The surroundings of an object -/

variable (rt boxes p q a this listener) in
/-- An object whose changes are tracked: the setters of `p` announce changes through the method of
`q`, which holds the listener.  Boxing, the fetch check, events and the listener return and do not
write the object. -/
structure Machine.Runtime.Tracks : Prop where
  boxing : rt.Boxing this boxes
  announces : ∀ args, rt.body? .invokevirtual
      ⟨p.className, Names.propertyChange, Names.propertyChangeDesc⟩ (.ref (.object this) :: args) =
    some q.propertyChange.body
  fetches : p.mapped.fetchGroups = true → ∀ s, rt.Invokes .invokevirtual
    ⟨p.className, Names.checkFetchedForSet, Names.stringConsumer⟩
    [.ref (.object this), .ref (.string a.name)] s fun v? s' events => v? = none ∧
      s'.fields this = s.fields this ∧
      ∀ e ∈ events, e.target ≠ Names.listenerCall ∧ e.fields this = s.fields this
  makes : ∀ s, ∃ id s', rt.new? Names.changeEvent s = some (id, s') ∧
    s'.fields this = s.fields this
  constructs : ∀ id args s,
    rt.body? .invokespecial Names.eventConstructor
      (.ref (.object id) :: .ref (.object this) :: args) = none ∧
    ∃ s', rt.call? Names.eventConstructor (.ref (.object id) :: .ref (.object this) :: args) s =
      some (none, s') ∧ s'.fields this = s.fields this
  notifies : ∀ id s, rt.body? .invokeinterface Names.listenerCall [.ref listener, .ref (.object id)] =
      none ∧
    ∃ s', rt.call? Names.listenerCall [.ref listener, .ref (.object id)] s = some (none, s') ∧
      s'.fields this = s.fields this
  installed : listener ≠ .null
  distinct : rt.field (p.attributeRef a) ≠ rt.field q.listenerRef

/-! ## What the listener hears -/

/-- The calls that tell a listener of a change from `o` to `n`: an event is made of the object, the
attribute and the two references, and the listener gets it. -/
def Announcement (this : Nat) (listener : Ref) (name : String) (o n : Ref) (events : List Event) :
    Prop :=
  if o = n then events = []
  else ∃ id before before', events =
    [ ⟨Names.eventConstructor, [.ref (.object id), .ref (.object this), .ref (.string name), .ref o,
        .ref n], none, before⟩,
      ⟨Names.listenerCall, [.ref listener, .ref (.object id)], none, before'⟩ ]

/-- The calls that leave a setter: first those of the fetch check, then the old value and the new one
are boxed, and the change between the two references is announced.  All of them find the object as it
was before. -/
structure Announces (boxes : Descriptor → Ref → Value → Prop) (this : Nat) (listener : Ref)
    (a : MappedAttribute) (fields : MemberRef → Value) (old new : Value) (events : List Event) :
    Prop where
  calls : ∃ checks o n before before' announcement,
    events = checks ++ (boxEvents a.type old o before ++ (boxEvents a.type new n before' ++
      announcement)) ∧
    (∀ e ∈ checks, e.target ≠ Names.listenerCall) ∧
    StandsFor boxes a.type o old ∧ StandsFor boxes a.type n new ∧
    Announcement this listener a.name o n announcement
  unchanged : ∀ e ∈ events, e.fields this = fields

/-- A listener is told of a change once, and not at all if both references are the same. -/
theorem Announces.told {fields : MemberRef → Value} {events : List Event}
    (h : Announces boxes this listener a fields old new events) :
    ∃ o n, StandsFor boxes a.type o old ∧ StandsFor boxes a.type n new ∧
      events.countP (·.target = Names.listenerCall) = if o = n then 0 else 1 := by
  obtain ⟨checks, o, n, before, before', announcement, rfl, hchecks, ho, hn, hannouncement⟩ := h.calls
  refine ⟨o, n, ho, hn, ?_⟩
  have hquiet : checks.countP (·.target = Names.listenerCall) = 0 :=
    List.countP_eq_zero.2 fun e he => by simpa using hchecks e he
  have hboxes : ∀ v r f, (boxEvents a.type v r f).countP (·.target = Names.listenerCall) = 0 := by
    intro v r f
    refine List.countP_eq_zero.2 fun e he => ?_
    unfold boxEvents at he
    split at he
    · rw [List.mem_singleton.1 he]
      simp [Descriptor.boxingRef, Names.listenerCall]
    · cases he
  rw [List.countP_append, List.countP_append, List.countP_append, hquiet, hboxes, hboxes]
  unfold Announcement at hannouncement
  split at hannouncement
  · next hsame => rw [hannouncement, if_pos hsame, List.countP_nil]
  · next hdiffer =>
    obtain ⟨id, f, f', rfl⟩ := hannouncement
    rw [if_neg hdiffer]
    rfl

/-! ## The method that holds the listener -/

/-- Without a listener, or if both references are the same, nothing happens.  Otherwise an event is made
of the object, the attribute and the references, and the listener is told. -/
theorem Plan.completes_propertyChange {q : Plan} {name : String} {l o n : Ref}
    {Q : Option Value → Store World → List Event → Prop}
    (hlistener : s.fields this (rt.field q.listenerRef) = .ref l)
    (hsilent : l = .null ∨ o = n → Q none s [])
    (htold : l ≠ .null → o ≠ n → ∃ id s₁, rt.new? Names.changeEvent s = some (id, s₁) ∧
      rt.Answers .invokespecial Names.eventConstructor
        [.ref (.object id), .ref (.object this), .ref (.string name), .ref o, .ref n] s₁
        fun v? s₂ => v? = none ∧ rt.Answers .invokeinterface Names.listenerCall
          [.ref l, .ref (.object id)] s₂ fun w? s₃ => w? = none ∧ Q none s₃
            [ ⟨Names.eventConstructor, [.ref (.object id), .ref (.object this), .ref (.string name),
                .ref o, .ref n], none, s₁.fields⟩,
              ⟨Names.listenerCall, [.ref l, .ref (.object id)], none, s₂.fields⟩ ]) :
    rt.Completes (.enter q.propertyChange.body
      [.ref (.object this), .ref (.string name), .ref o, .ref n]) s Q := by
  have hmark : q.propertyChange.body.dropWhile (· ≠ .mark 0) = [.mark 0, simple .returnVoid] := rfl
  have hload : s.fields this (rt.field
      ⟨q.className, StateField.listener.name, StateField.listener.type.text⟩) = .ref l := hlistener
  change rt.Completes ⟨q.propertyChange.body,
    [ aload 0, getField q.className StateField.listener.name StateField.listener.type.text,
      jump .ifnull 0, aload 2, aload 3, jump .ifAcmpeq 0, aload 0,
      getField q.className StateField.listener.name StateField.listener.type.text,
      newObject Names.changeEvent, simple .dup, aload 0, aload 1, aload 2, aload 3,
      invokeSpecial Names.changeEvent Names.constructor Names.changeEventConstructor,
      invokeInterface Names.listener "propertyChange" Names.changeEventConsumer, mark 0,
      simple .returnVoid ],
    [some (.ref (.object this)), some (.ref (.string name)), some (.ref o), some (.ref n)], []⟩ s Q
  rw [Runtime.completes_aload]
  refine ⟨_, rfl, ?_⟩
  rw [Runtime.completes_getField, hload]
  by_cases hnull : l = .null
  · have habsent : test? .ifnull [.ref l] = some (true, []) := by simp [test?, hnull]
    rw [Runtime.completes_jump_of_true habsent hmark, Runtime.completes_mark,
      Runtime.completes_returnVoid]
    exact hsilent (.inl hnull)
  have hthere : test? .ifnull [.ref l] = some (false, []) := by simp [test?, hnull]
  rw [Runtime.completes_jump_of_false hthere, Runtime.completes_aload]
  refine ⟨_, rfl, ?_⟩
  rw [Runtime.completes_aload]
  refine ⟨_, rfl, ?_⟩
  by_cases hsame : o = n
  · have hequal : test? .ifAcmpeq [.ref n, .ref o] = some (true, []) := by simp [test?, hsame]
    rw [Runtime.completes_jump_of_true hequal hmark, Runtime.completes_mark,
      Runtime.completes_returnVoid]
    exact hsilent (.inr hsame)
  · have hdiffer : test? .ifAcmpeq [.ref n, .ref o] = some (false, []) := by
      simp [test?, Ne.symm hsame]
    obtain ⟨id, s₁, hnew, hconstructed⟩ := htold hnull hsame
    rw [Runtime.completes_jump_of_false hdiffer, Runtime.completes_aload]
    refine ⟨_, rfl, ?_⟩
    rw [Runtime.completes_getField, hload,
      Runtime.completes_newObject hnew, Runtime.completes_dup]
    simp only [Runtime.completes_aload]
    refine ⟨_, rfl, _, rfl, _, rfl, _, rfl, ?_⟩
    have hargs : arguments? .invokespecial Names.changeEventConstructor
        [.ref n, .ref o, .ref (.string name), .ref (.object this), .ref (.object id),
          .ref (.object id), .ref l] =
        some ([.ref (.object id), .ref (.object this), .ref (.string name), .ref o, .ref n],
          [.ref (.object id), .ref l]) := by simp [arguments?]
    refine Runtime.Completes.answer hargs (.inr (by simp)) hconstructed fun v? s₂ hnotified => ?_
    obtain ⟨rfl, hnotified⟩ := hnotified
    have hargs' : arguments? .invokeinterface Names.changeEventConsumer
        [.ref (.object id), .ref l] = some ([.ref l, .ref (.object id)], []) := by
      simp [arguments?]
    refine Runtime.Completes.answer hargs' (.inr (by simpa using hnull)) hnotified fun w? s₃ hQ => ?_
    obtain ⟨rfl, hQ⟩ := hQ
    rw [Runtime.completes_mark, Runtime.completes_returnVoid]
    exact hQ

/-- A change is announced unless both references are the same. -/
theorem Machine.Runtime.Tracks.completes_propertyChange
    (h : rt.Tracks boxes p q a this listener) {name : String} {o n : Ref}
    (hlistener : s.fields this (rt.field q.listenerRef) = .ref listener) :
    rt.Completes (.enter q.propertyChange.body
        [.ref (.object this), .ref (.string name), .ref o, .ref n]) s
      fun v? s' events => v? = none ∧ s'.fields this = s.fields this ∧
        Announcement this listener name o n events ∧ ∀ e ∈ events, e.fields this = s.fields this := by
  refine Plan.completes_propertyChange hlistener (fun hsilent => ?_) fun _ hdiffer => ?_
  · have hsame := hsilent.resolve_left h.installed
    exact ⟨rfl, rfl, (if_pos hsame).mpr rfl, by simp⟩
  · obtain ⟨id, s₁, hnew, hkeep₁⟩ := h.makes s
    obtain ⟨hbody, s₂, hcall, hkeep₂⟩ :=
      h.constructs id [.ref (.string name), .ref o, .ref n] s₁
    obtain ⟨hbody', s₃, hcall', hkeep₃⟩ := h.notifies id s₂
    refine ⟨id, s₁, hnew, hbody, none, s₂, hcall, rfl, hbody', none, s₃, hcall', rfl, rfl,
      hkeep₃.trans (hkeep₂.trans hkeep₁), ?_, ?_⟩
    · rw [Announcement, if_neg hdiffer]
      exact ⟨id, _, _, rfl⟩
    · simp [hkeep₁, hkeep₂]

/-! ## Setters -/

section Setter

variable {code rest : List Instruction} {locals : List (Option Value)} {stack : List Value}
  {Q : Option Value → Store World → List Event → Prop}

/-- The fetch check leaves the object alone. -/
theorem Machine.Runtime.Tracks.completes_accessPrologue (h : rt.Tracks boxes p q a this listener)
    (hholder : p.weavesHolder a = false)
    (hrest : ∀ s' events, s'.fields this = s.fields this →
      (∀ e ∈ events, e.target ≠ Names.listenerCall ∧ e.fields this = s.fields this) →
      rt.Completes ⟨code, rest, some (.ref (.object this)) :: locals, stack⟩ s' fun v? t events' =>
        Q v? t (events ++ events')) :
    rt.Completes ⟨code, p.accessPrologue a Names.checkFetchedForSet ++ rest,
      some (.ref (.object this)) :: locals, stack⟩ s Q := by
  unfold Plan.accessPrologue Plan.checkFetched
  rw [hholder]
  split
  · next hfetch =>
    simp only [Bool.false_eq_true, if_false, List.append_nil, List.cons_append, List.nil_append,
      Runtime.completes_aload, Runtime.completes_ldcString]
    refine ⟨_, rfl, ?_⟩
    have hargs : arguments? .invokevirtual Names.stringConsumer
        (.ref (.string a.name) :: .ref (.object this) :: stack) =
        some ([.ref (.object this), .ref (.string a.name)], stack) := by simp [arguments?]
    refine Runtime.Completes.invoke hargs (.inr (by simp)) ((h.fetches hfetch s).mono
      fun v? s' events hchecked => ?_)
    obtain ⟨rfl, hkeeps, hevents⟩ := hchecked
    exact hrest s' events hkeeps hevents
  · exact hrest s [] rfl (by simp)

/-- Before it assigns the field, a setter announces the change. -/
theorem Machine.Runtime.Tracks.completes_announceChange (h : rt.Tracks boxes p q a this listener)
    (hlistener : s.fields this (rt.field q.listenerRef) = .ref listener)
    (hold : (s.fields this (rt.field (p.attributeRef a))).HasType a.type) (hnew : new.HasType a.type)
    (hlocal : (locals[0]?).join = some new)
    (hrest : ∀ s' o n before before' announcement, s'.fields this = s.fields this →
      StandsFor boxes a.type o (s.fields this (rt.field (p.attributeRef a))) →
      StandsFor boxes a.type n new → Announcement this listener a.name o n announcement →
      before this = s.fields this → before' this = s.fields this →
      (∀ e ∈ announcement, e.fields this = s.fields this) →
      rt.Completes ⟨code, rest, some (.ref (.object this)) :: locals, []⟩ s' fun v? t events =>
        Q v? t (boxEvents a.type (s.fields this (rt.field (p.attributeRef a))) o before ++
          (boxEvents a.type new n before' ++ (announcement ++ events)))) :
    rt.Completes ⟨code, p.announceChange a ++ rest, some (.ref (.object this)) :: locals, []⟩ s
      Q := by
  unfold Plan.announceChange
  simp only [List.append_assoc, List.cons_append, List.nil_append, Runtime.completes_aload,
    Runtime.completes_ldcString]
  refine ⟨_, rfl, _, rfl, ?_⟩
  rw [Runtime.completes_getField]
  refine Runtime.completes_boxCode h.boxing hold fun o s₁ ho hkeep₁ => ?_
  rw [Runtime.completes_load]
  refine ⟨new, hlocal, Runtime.completes_boxCode h.boxing hnew fun n s₂ hn hkeep₂ => ?_⟩
  have hargs : arguments? .invokevirtual Names.propertyChangeDesc
      [.ref n, .ref o, .ref (.string a.name), .ref (.object this)] =
      some ([.ref (.object this), .ref (.string a.name), .ref o, .ref n], []) := by
    simp [arguments?]
  refine Runtime.Completes.invoke hargs (.inr (by simp)) ?_
  rw [Runtime.invokes_of_body (h.announces _)]
  have hkeep := hkeep₂.trans hkeep₁
  refine (h.completes_propertyChange (by rw [hkeep]; exact hlistener)).mono
    fun v? s₃ announcement hannounced => ?_
  obtain ⟨rfl, hkeep₃, hevents, hbefore⟩ := hannounced
  exact hrest s₃ o n s.fields s₁.fields announcement (hkeep₃.trans hkeep) ho hn hevents rfl hkeep₁
    fun e he => (hbefore e he).trans hkeep

/-- A setter announces the change from the old value to the new one, and assigns the field. -/
theorem Machine.Runtime.Tracks.completes_fieldSetter (h : rt.Tracks boxes p q a this listener)
    (htracking : p.changeTracking = true) (hholder : p.weavesHolder a = false)
    (hlistener : s.fields this (rt.field q.listenerRef) = .ref listener)
    (hold : (s.fields this (rt.field (p.attributeRef a))).HasType a.type) (hnew : new.HasType a.type) :
    rt.Completes (.enter (p.fieldSetter a).body [.ref (.object this), new]) s fun v? s' events =>
      v? = none ∧
      s'.fields this = Function.update (s.fields this) (rt.field (p.attributeRef a)) new ∧
      Announces boxes this listener a (s.fields this) (s.fields this (rt.field (p.attributeRef a)))
        new events := by
  have hlocal : ((new.slots ++ [])[0]?).join = some new := by
    rw [List.append_nil, Value.slots_getElem?_zero]
  have hbody : (p.fieldSetter a).body = p.accessPrologue a Names.checkFetchedForSet ++
      (p.announceChange a ++ [aload 0, Instruction.load a.type 1,
        putField p.className a.name a.descriptor, simple .returnVoid]) := by
    simp [Plan.fieldSetter, htracking, hholder]
  have henter : Activation.enter (p.fieldSetter a).body [.ref (.object this), new] =
      ⟨(p.fieldSetter a).body, p.accessPrologue a Names.checkFetchedForSet ++
        (p.announceChange a ++ [aload 0, Instruction.load a.type 1,
          putField p.className a.name a.descriptor, simple .returnVoid]),
        some (.ref (.object this)) :: (new.slots ++ []), []⟩ := by
    rw [← hbody]
    rfl
  rw [henter]
  refine h.completes_accessPrologue hholder fun s₁ checks hkeep₁ hchecks => ?_
  refine h.completes_announceChange (by rw [hkeep₁]; exact hlistener) (by rw [hkeep₁]; exact hold)
    hnew hlocal fun s₂ o n before before' announcement hkeep₂ ho hn hevents hb hb' hannouncement => ?_
  rw [hkeep₁] at hkeep₂ ho hb hb' hannouncement ⊢
  have hkept : new.narrow a.descriptor = new := Value.narrow_text hnew
  simp only [Runtime.completes_aload, Runtime.completes_load]
  refine ⟨_, rfl, new, hlocal, ?_⟩
  rw [Runtime.completes_putField, Runtime.completes_returnVoid, hkept, List.append_nil]
  refine ⟨rfl, ?_, ⟨checks, o, n, before, before', announcement, rfl, fun e he => (hchecks e he).1, ho,
    hn, hevents⟩, fun e he => ?_⟩
  · rw [Store.assign_self, hkeep₂]
    rfl
  · have hboxed : ∀ v r f, f this = s.fields this → ∀ e ∈ boxEvents a.type v r f,
        e.fields this = s.fields this := by
      intro v r f hf e he
      unfold boxEvents at he
      split at he
      · rw [List.mem_singleton] at he
        subst he
        exact hf
      · cases he
    simp only [List.mem_append] at he
    rcases he with he | he | he | he
    · exact (hchecks e he).2
    · exact hboxed _ _ _ hb e he
    · exact hboxed _ _ _ hb' e he
    · exact hannouncement e he

end Setter

/-! ## Sequences of calls -/

/-- Each call of a setter announces the change from the value that the call before it left to its own
value, at a time when the object is as it was before the call.  In the end the field holds the value
of the last call, and no other field of the object has changed. -/
theorem Machine.Runtime.Tracks.changes_announced (h : rt.Tracks boxes p q a this listener)
    (htracking : p.changeTracking = true) (hholder : p.weavesHolder a = false)
    (hlistener : s.fields this (rt.field q.listenerRef) = .ref listener)
    (hold : (s.fields this (rt.field (p.attributeRef a))).HasType a.type) (vs : List Value)
    (hvs : ∀ v ∈ vs, v.HasType a.type) :
    ∃ traces s', rt.Calls (p.fieldSetter a).body this s vs traces s' ∧
      (∀ traces' t, rt.Calls (p.fieldSetter a).body this s vs traces' t →
        traces' = traces ∧ t = s') ∧
      traces.length = vs.length ∧
      s'.fields this = Function.update (s.fields this) (rt.field (p.attributeRef a))
        (vs.getLastD (s.fields this (rt.field (p.attributeRef a)))) ∧
      ∀ (k : Nat) (old new : Value),
        (s.fields this (rt.field (p.attributeRef a)) :: vs)[k]? = some old → vs[k]? = some new →
        ∃ events, traces[k]? = some events ∧ Announces boxes this listener a
          (Function.update (s.fields this) (rt.field (p.attributeRef a)) old) old new events := by
  induction vs generalizing s with
  | nil =>
    refine ⟨[], s, .nil s, fun _ _ hcalls => hcalls.unique (.nil s), rfl,
      (Function.update_eq_self _ _).symm, fun k old new _ hnew => ?_⟩
    cases hnew
  | cons v vs ih =>
    obtain ⟨hv, hvs⟩ := List.forall_mem_cons.1 hvs
    obtain ⟨v?, s₁, events, hreturns, rfl, hfields, hannounces⟩ :=
      h.completes_fieldSetter htracking hholder hlistener hold hv
    have hvalue : s₁.fields this (rt.field (p.attributeRef a)) = v := by
      rw [hfields, Function.update_self]
    have hlistener₁ : s₁.fields this (rt.field q.listenerRef) = .ref listener := by
      rw [hfields, Function.update_of_ne (Ne.symm h.distinct), hlistener]
    obtain ⟨traces, s', hcalls, -, hlength, hlast, hall⟩ := ih hlistener₁ (hvalue.symm ▸ hv) hvs
    rw [hvalue, hfields] at hlast hall
    have hcalls := Runtime.Calls.cons hreturns hcalls
    refine ⟨events :: traces, s', hcalls, fun _ _ hcalls' => hcalls'.unique hcalls,
      congrArg (· + 1) hlength, ?_, ?_⟩
    · rw [hlast, Function.update_idem, List.getLastD_cons]
    · intro k old new hold' hnew'
      cases k with
      | zero =>
        obtain rfl := Option.some.inj hold'
        obtain rfl := Option.some.inj hnew'
        refine ⟨events, rfl, ?_⟩
        rw [Function.update_eq_self]
        exact hannounces
      | succ k =>
        obtain ⟨events', htrace, hannounces'⟩ := hall k old new hold' hnew'
        rw [Function.update_idem] at hannounces'
        exact ⟨events', htrace, hannounces'⟩

namespace Sample

def counted : MappedAttribute := { name := "n", type := .int }

/-- The plan for a class with a counter whose changes are tracked. -/
def counter : Plan :=
  { mapped := { name := "A", attributes := [counted] }, superName := Names.object
    changeTracking := true, superclassTracksChanges := false, superclassInternal := false
    superclassConstructorOptimization := false, xmlTransient := Context.default.xmlTransient }

/-- All events are one object, and methods other than those of boxes do nothing. -/
def counterRuntime : Machine.Runtime Unit where
  body? _ r _ :=
    if r = ⟨"A", Names.propertyChange, Names.propertyChangeDesc⟩ then some counter.propertyChange.body
    else none
  call? r args s :=
    match boxCall? r args with
    | some v => some (some v, s)
    | none => some (none, s)
  field r := r
  isInstance := isBoxInstance
  new? _ s := some (1, s)

/-- The counter is zero, and the listener is there. -/
def counterStore : Store Unit where
  fields _ r := if r = counter.listenerRef then .ref (.object 2) else .int 0
  world := ()

theorem counterRuntime_boxing : counterRuntime.Boxing 0 IsBox := by
  refine boxing_of_model 0 (fun {d wrapper} hw op args => ?_) (fun r args v s h => ?_)
    fun _ _ => rfl
  · have howners : ∀ e ∈ Descriptor.primitives, e.wrapper? ≠ some "A" := by decide
    have howner : wrapper ≠ "A" := by
      rintro rfl
      exact howners d (Descriptor.mem_primitives hw) hw
    have hnone : ∀ name descriptor, counterRuntime.body? op ⟨wrapper, name, descriptor⟩ args = none := by
      intro name descriptor
      simp [counterRuntime, howner]
    exact ⟨hnone _ _, fun _ => hnone _ _⟩
  · simp [counterRuntime, h]

theorem counterRuntime_tracks :
    counterRuntime.Tracks IsBox counter counter counted 0 (.object 2) where
  boxing := counterRuntime_boxing
  announces _ := rfl
  fetches h := by cases h
  makes s := ⟨1, s, rfl, rfl⟩
  constructs _ _ s := ⟨rfl, s, rfl, rfl⟩
  notifies _ s := ⟨rfl, s, rfl, rfl⟩
  installed := by simp
  distinct := by decide

end Sample

/-- The counter is set to five and then to six: either call tells the listener once. -/
theorem Machine.Runtime.Tracks.changes_announced_sample :
    ∃ traces s', Sample.counterRuntime.Calls (Sample.counter.fieldSetter Sample.counted).body 0
        Sample.counterStore [.int 5, .int 6] traces s' ∧
      s'.fields 0 (Sample.counter.attributeRef Sample.counted) = .int 6 ∧
      traces.map (·.countP (·.target = Names.listenerCall)) = [1, 1] := by
  have htold : ∀ {fields events} {m m' : Int32}, Announces IsBox 0 (.object 2) Sample.counted fields
      (.int m) (.int m') events → m ≠ m' → events.countP (·.target = Names.listenerCall) = 1 := by
    intro fields events m m' h hne
    obtain ⟨o, n, ⟨id, rfl, hid⟩, ⟨id', rfl, hid'⟩, hcount⟩ := h.told
    rw [hcount, if_neg]
    intro hsame
    obtain rfl := Ref.object.inj hsame
    rw [hid, Option.some_inj, Prod.mk.injEq] at hid'
    exact hne (Value.int.inj hid'.2)
  have hzero : Sample.counterStore.fields 0
      (Sample.counterRuntime.field (Sample.counter.attributeRef Sample.counted)) = .int 0 := by decide
  obtain ⟨traces, s', hcalls, -, hlength, hlast, hall⟩ :=
    changes_announced (s := Sample.counterStore) Sample.counterRuntime_tracks rfl rfl (by decide)
      (by rw [hzero]; rfl) [.int 5, .int 6] (by simp [Sample.counted, Value.HasType, Value.narrowInt])
  rw [hzero] at hlast hall
  obtain ⟨first, second, rfl⟩ := List.length_eq_two.1 hlength
  obtain ⟨_, ⟨⟩, hfirst⟩ := hall 0 _ _ rfl rfl
  obtain ⟨_, ⟨⟩, hsecond⟩ := hall 1 _ _ rfl rfl
  refine ⟨_, s', hcalls, ?_, ?_⟩
  · rw [hlast]
    exact Function.update_self ..
  · simp [htold hfirst (by decide), htold hsecond (by decide)]

end EntityLoom
