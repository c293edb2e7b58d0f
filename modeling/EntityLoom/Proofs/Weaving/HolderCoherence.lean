import EntityLoom.Proofs.Weaving.Holders

/-!
# Coherence of a holder and its field

The methods of a lazy attribute are called on an object one after the other: the accessors of the field
and the accessors of the holder.  `Machine.LazyObject.Serves.calls_coherent` says what a sequence of
calls does to an object that had no holder.  One holder is constructed, if any.  After every call there
is a holder, and the field has its value if it is loaded.  The getter of the field answers what was set
last, the value of the holder that was installed last, or the value that the field had at first.

The accessors of the holder never call the setter of the field, because the getter has already brought
the field into step when they compare.  This is shown by running them without that setter
(`Runtime.refusing`): they still return.
-/

namespace EntityLoom

open Machine Instruction

/-! ## The setter of the field is not called -/

/-- A name that starts otherwise is not that of the setter of a field. -/
theorem Names.ne_fieldSetter {name : String}
    (h : name.toList.take 17 ≠ "_persistence_set_".toList) (attr : String) :
    name ≠ fieldSetter attr := by
  have hchars : (fieldSetter attr).toList = "_persistence_set_".toList ++ attr.toList :=
    String.toList_append
  rintro rfl
  rw [hchars] at h
  exact h (List.take_left' (by simp))

theorem Names.holderInitializer_ne_fieldSetter (attr : String) :
    holderInitializer attr ≠ fieldSetter attr := by
  have hassoc : holderInitializer attr = "_persistence_initialize_" ++ (attr ++ "_vh") :=
    String.append_assoc ..
  have hchars : (holderInitializer attr).toList =
      "_persistence_initialize_".toList ++ (attr ++ "_vh").toList :=
    (congrArg String.toList hassoc).trans String.toList_append
  refine ne_fieldSetter ?_ attr
  rw [hchars, List.take_append_of_le_length (by simp)]
  decide

theorem Names.fieldGetter_ne_fieldSetter (attr : String) : fieldGetter attr ≠ fieldSetter attr := by
  have hchars : (fieldGetter attr).toList = "_persistence_get_".toList ++ attr.toList :=
    String.toList_append
  refine ne_fieldSetter ?_ attr
  rw [hchars, List.take_append_of_le_length (by simp)]
  decide

namespace Machine

variable {World : Type} {rt : Runtime World} {s s' t : Store World}

namespace LazyObject

variable {o : LazyObject World} {h : Nat} {c c' : Option Ref} {v : Ref}

variable (rt o) in
/-- The classes around the object, without the setter of the field. -/
def withoutSetter : Runtime World := rt.refusing (Names.fieldSetter o.attr.name)

theorem IsHolder.withoutSetter (hholder : o.IsHolder rt h) : o.IsHolder (o.withoutSetter rt) h where
  castable := hholder.castable
  getValue s := (hholder.getValue s).refusing (Names.ne_fieldSetter (by decide) _)
  setValue s v hv := (hholder.setValue s v hv).refusing (Names.ne_fieldSetter (by decide) _)
  isInstantiated s := (hholder.isInstantiated s).refusing (Names.ne_fieldSetter (by decide) _)
  flags name hname s := by
    have hnames : ∀ name ∈ ["isCoordinatedWithProperty", "isNewlyWeavedValueHolder"],
        name.toList.take 17 ≠ "_persistence_set_".toList := by decide
    exact (hholder.flags name hname s).refusing (Names.ne_fieldSetter (hnames name hname) _)
  setFlag s := (hholder.setFlag s).refusing (Names.ne_fieldSetter (by decide) _)

theorem Untouched.withoutSetter (h : o.Untouched rt s s') : o.Untouched (o.withoutSetter rt) s s' :=
  ⟨h.fields, h.content⟩

theorem Fetches.withoutSetter (hfetches : o.Fetches rt) : o.Fetches (o.withoutSetter rt) where
  guards x hx := by
    have hnames : ∀ x ∈ Names.fetchGuards, x.1.toList.take 17 ≠ "_persistence_set_".toList := by
      decide
    exact (Runtime.refusing_body? (Names.ne_fieldSetter (hnames x hx) _)).trans (hfetches.guards x hx)
  test := by
    have hname : Names.isAttributeFetched ≠ Names.fieldSetter o.attr.name :=
      Names.ne_fieldSetter (by decide) _
    exact (Runtime.refusing_body? hname).trans hfetches.test
  contains g s hg := ((hfetches.contains g s hg).refusing (Names.ne_fieldSetter (by decide) _)).mono
    fun _ _ hanswer => ⟨hanswer.1, hanswer.2.withoutSetter⟩
  tracker := hfetches.tracker
  callbacks x hx s := by
    have hnames : ∀ x ∈ Names.fetchGuards, x.2.toList.take 17 ≠ "_persistence_set_".toList := by
      decide
    exact ((hfetches.callbacks x hx s).refusing (Names.ne_fieldSetter (hnames x hx) _)).mono
      fun _ _ hanswer => ⟨hanswer.1, hanswer.2.withoutSetter⟩

theorem Announces.withoutSetter (hannounces : o.Announces rt) : o.Announces (o.withoutSetter rt) where
  body args := by
    have hname : Names.propertyChange ≠ Names.fieldSetter o.attr.name :=
      Names.ne_fieldSetter (by decide) _
    exact (Runtime.refusing_body? hname).trans (hannounces.body args)
  makes s := by
    obtain ⟨id, s', hnew, huntouched⟩ := hannounces.makes s
    exact ⟨id, s', hnew, huntouched.withoutSetter⟩
  constructs id args s :=
    ((hannounces.constructs id args s).refusing (Names.ne_fieldSetter (by decide) _)).mono
      fun _ _ hanswer => ⟨hanswer.1, hanswer.2.withoutSetter⟩
  notifies l id s hl :=
    ((hannounces.notifies l id s hl).refusing (Names.ne_fieldSetter (by decide) _)).mono
      fun _ _ hanswer => ⟨hanswer.1, hanswer.2.withoutSetter⟩

/-- Nothing that the methods rely on is the setter of the field. -/
theorem Serves.withoutSetter (hserves : o.Serves rt) : o.Serves (o.withoutSetter rt) where
  emitted := hserves.emitted
  initializes := (Runtime.refusing_body? (Names.holderInitializer_ne_fieldSetter _)).trans
    hserves.initializes
  reads := (Runtime.refusing_body? (Names.fieldGetter_ne_fieldSetter _)).trans hserves.reads
  distinct := hserves.distinct
  constructs s v hv := by
    obtain ⟨h, s', hnew, hkeep, hholder, hconstructed⟩ := hserves.constructs s v hv
    exact ⟨h, s', hnew, hkeep, hholder.withoutSetter,
      hconstructed.refusing (Names.ne_fieldSetter (by decide) _)⟩
  fetches hfetch := (hserves.fetches hfetch).withoutSetter
  announces htracking := (hserves.announces htracking).withoutSetter

theorem Typed.withoutSetter (htyped : o.Typed rt s) : o.Typed (o.withoutSetter rt) s :=
  ⟨htyped.fetchGroup, htyped.listener⟩

theorem Held.withoutSetter (hheld : o.Held rt s h c) : o.Held (o.withoutSetter rt) s h c :=
  ⟨hheld.typed.withoutSetter, hheld.holder, hheld.isHolder.withoutSetter,
    hheld.content⟩

theorem Ready.withoutSetter (hready : o.Ready rt s c) : o.Ready (o.withoutSetter rt) s c := by
  cases hready with
  | bare h =>
    exact .bare ⟨h.typed.withoutSetter, h.holder, h.value, h.castable⟩
  | held h => exact .held h.withoutSetter

/-- The getter of the holder returns without the setter of the field. -/
theorem Ready.holderGetter_avoids (hready : o.Ready rt s c) (hserves : o.Serves rt)
    (hvalue : o.value rt s = .ref (c.getD .null)) {x : State World}
    (hx : rt.Steps (.running (.enter (o.plan.holderGetter o.attr).body [o.receiver]) [] s []) x) :
    ¬x.Calls (Names.fieldSetter o.attr.name) :=
  (hready.withoutSetter.completes_holderGetter hserves.withoutSetter hvalue).not_calls hx

/-- The setter of the holder returns without the setter of the field. -/
theorem Typed.holderSetter_avoids (htyped : o.Typed rt s) (hserves : o.Serves rt)
    (hholder : o.IsHolder rt h) {x : State World} (hx : rt.Steps (.running
      (.enter (o.plan.holderSetter o.attr).body [o.receiver, .ref (.object h)]) [] s []) x) :
    ¬x.Calls (Names.fieldSetter o.attr.name) :=
  (htyped.withoutSetter.completes_holderSetter hserves.withoutSetter hholder.withoutSetter
    rfl).not_calls hx

end LazyObject

/-! ## Calls -/

/-- A call of a method of a lazy attribute. -/
inductive AttributeCall
  | get
  | set (v : Ref)
  | getHolder
  | setHolder (h : Nat)

/-- How many holders a call constructs for an object that has none. -/
def AttributeCall.constructs : AttributeCall → Nat
  | .get | .set _ | .getHolder => 1
  | .setHolder _ => 0

/-- Whether the call is one of an accessor of the holder. -/
def AttributeCall.ofHolder : AttributeCall → Bool
  | .getHolder | .setHolder _ => true
  | .get | .set _ => false

/-- A call that returned. -/
structure Outcome (World : Type) where
  call : AttributeCall
  before : Store World
  result : Option Value
  events : List Event
  after : Store World

namespace LazyObject

variable (rt) (o : LazyObject World)

/-- The activation of a call. -/
def activation : AttributeCall → Activation
  | .get => .enter (o.plan.fieldGetter o.attr).body [o.receiver]
  | .set v => .enter (o.plan.fieldSetter o.attr).body [o.receiver, .ref v]
  | .getHolder => .enter (o.plan.holderGetter o.attr).body [o.receiver]
  | .setHolder h => .enter (o.plan.holderSetter o.attr).body [o.receiver, .ref (.object h)]

/-- The call has arguments of the right types. -/
def Admits : AttributeCall → Prop
  | .get | .getHolder => True
  | .set v => rt.Castable v o.target
  | .setHolder h => o.IsHolder rt h

/-- Calls are made one after the other, and each returns. -/
inductive Runs : Store World → List AttributeCall → List (Outcome World) → Prop
  | nil (s : Store World) : Runs s [] []
  | cons {s s' : Store World} {call : AttributeCall} {calls : List AttributeCall}
    {v? : Option Value} {events : List Event} {outcomes : List (Outcome World)}
    (first : rt.Returns (o.activation call) s v? s' events) (rest : Runs s' calls outcomes) :
    Runs s (call :: calls) (⟨call, s, v?, events, s'⟩ :: outcomes)

/-- The value of the holder, if there is one and it is loaded. -/
def loaded (s : Store World) : Option Ref :=
  match o.holder rt s with
  | .ref (.object h) => o.content s.world h
  | _ => none

/-- The value of the attribute after a call, if `c` was its value before: that which is set, or that of
the holder which is installed.  It is not known while that holder is not loaded, and is then the value
that it is loaded with. -/
def establish (c : Option Ref) (out : Outcome World) : Option Ref :=
  match out.call with
  | .set v => some v
  | .setHolder h => o.content out.before.world h
  | .get | .getHolder => c.or (o.loaded rt out.after)

/-- The value of the attribute after some calls. -/
def established (initial : Ref) (outcomes : List (Outcome World)) : Option Ref :=
  outcomes.foldl (o.establish rt) (some initial)

/-- A call leaves the object with the holder `h`, whose value is the value `c` of the attribute, and
with that value in the field, or null as long as it is not known. -/
structure Coherent (c : Option Ref) (out : Outcome World) (h : Nat) : Prop where
  holder : o.holder rt out.after = .ref (.object h)
  content : o.content out.after.world h = c
  value : o.value rt out.after = .ref ((o.content out.after.world h).getD .null)
  installed : ∀ h', out.call = .setHolder h' → h' = h
  answersHolder : out.call = .getHolder → out.result = some (.ref (.object h))
  answersValue : out.call = .get → ∃ v, out.result = some (.ref v) ∧ c = some v
  avoids : out.call.ofHolder = true → ∀ x, rt.Steps (.running (o.activation out.call) [] out.before [])
    x → ¬x.Calls (Names.fieldSetter o.attr.name)

variable {rt o} {call : AttributeCall} {calls : List AttributeCall}
  {outcomes outcomes' : List (Outcome World)}

theorem Runs.unique (hruns : o.Runs rt s calls outcomes) (hruns' : o.Runs rt s calls outcomes') :
    outcomes = outcomes' := by
  induction hruns generalizing outcomes' with
  | nil =>
    cases hruns'
    rfl
  | cons first _ ih =>
    cases hruns' with
    | cons first' rest' =>
      obtain ⟨rfl, rfl, rfl⟩ := first.unique first'
      rw [ih rest']

theorem Held.loaded (hheld : o.Held rt s h c) : o.loaded rt s = c := by
  unfold LazyObject.loaded
  rw [hheld.holder]
  exact hheld.content

/-- Between calls it is known what the object would answer, and the field has that value. -/
structure InStep (rt : Runtime World) (o : LazyObject World) (s : Store World) (c : Option Ref) :
    Prop where
  ready : o.Ready rt s c
  value : o.value rt s = .ref (c.getD .null)

/-- What a call does to an object in step. -/
structure Settles (rt : Runtime World) (o : LazyObject World) (c : Option Ref) (out : Outcome World) :
    Prop where
  inStep : o.InStep rt out.after (o.establish rt c out)
  coherent : ∃ h, o.Coherent rt (o.establish rt c out) out h
  attached : o.missing rt out.after = 0
  built : constructions out.events = o.missing rt out.before * out.call.constructs

/-- A read leaves the value of the attribute as it was, if it was known. -/
theorem Held.establish_of_read {out : Outcome World} (hheld : o.Held rt out.after h c')
    (hcall : out.call = .get ∨ out.call = .getHolder) (hsame : ∀ v, c = some v → c' = some v) :
    o.establish rt c out = c' := by
  have hor : o.establish rt c out = c.or c' := by
    unfold establish
    rcases hcall with hcall | hcall <;> rw [hcall, hheld.loaded]
  rw [hor]
  cases c with
  | none => rfl
  | some v => exact (hsame v rfl).symm

theorem Held.settles {out : Outcome World} (hheld : o.Held rt out.after h c')
    (hestablish : o.establish rt c out = c') (hvalue : o.value rt out.after = .ref (c'.getD .null))
    (hbuilt : constructions out.events = o.missing rt out.before * out.call.constructs)
    (hinstalled : ∀ h', out.call = .setHolder h' → h' = h)
    (hanswersHolder : out.call = .getHolder → out.result = some (.ref (.object h)))
    (hanswersValue : out.call = .get → ∃ v, out.result = some (.ref v) ∧ c' = some v)
    (havoids : out.call.ofHolder = true → ∀ x,
      rt.Steps (.running (o.activation out.call) [] out.before []) x →
        ¬x.Calls (Names.fieldSetter o.attr.name)) : o.Settles rt c out := by
  subst hestablish
  have hcoherent : o.Coherent rt (o.establish rt c out) out h :=
    { holder := hheld.holder
      content := hheld.content
      value := by rw [hheld.content, hvalue]
      installed := hinstalled
      answersHolder := hanswersHolder
      answersValue := hanswersValue
      avoids := havoids }
  exact ⟨⟨.held hheld, hvalue⟩, ⟨h, hcoherent⟩, hheld.missing, hbuilt⟩

theorem Attached.built_of_constructs {events : List Event} (hattached : o.Attached rt s s' h c events)
    (hcall : call.constructs = 1) : constructions events = o.missing rt s * call.constructs := by
  rw [hattached.built, hcall, Nat.mul_one]

/-- Each call keeps the object in step. -/
theorem InStep.completes (hstep : o.InStep rt s c) (hserves : o.Serves rt) (hcall : o.Admits rt call) :
    rt.Completes (o.activation call) s fun v? s' events =>
      o.Settles rt c ⟨call, s, v?, events, s'⟩ := by
  cases call with
  | get =>
    refine (hstep.ready.completes_fieldGetter hserves).mono fun v? s' events hdone => ?_
    obtain ⟨h, v, rfl, hattached, hsame, hvalue⟩ := hdone
    have hestablish : o.establish rt c ⟨.get, s, some (.ref v), events, s'⟩ = some v :=
      hattached.held.establish_of_read (.inl rfl) fun w hw => congrArg some (hsame w hw)
    exact hattached.held.settles hestablish hvalue (hattached.built_of_constructs rfl)
      nofun nofun (fun _ => ⟨v, rfl, rfl⟩) nofun
  | set v =>
    refine (hstep.ready.completes_fieldSetter hserves hcall).mono fun v? s' events hdone => ?_
    obtain ⟨rfl, h, hattached, hvalue⟩ := hdone
    exact hattached.held.settles rfl hvalue (hattached.built_of_constructs rfl)
      nofun nofun nofun nofun
  | getHolder =>
    refine (hstep.ready.completes_holderGetter hserves hstep.value).mono fun v? s' events hdone => ?_
    obtain ⟨h, c', rfl, hattached, hsame, hvalue⟩ := hdone
    have hestablish : o.establish rt c ⟨.getHolder, s, some (.ref (.object h)), events, s'⟩ = c' :=
      hattached.held.establish_of_read (.inr rfl) hsame
    exact hattached.held.settles hestablish hvalue (hattached.built_of_constructs rfl)
      nofun (fun _ => rfl) nofun
      fun _ x hx => hstep.ready.holderGetter_avoids hserves hstep.value hx
  | setHolder h =>
    have htyped := hstep.ready.typed
    refine (htyped.completes_holderSetter hserves hcall rfl).mono fun v? s' events hdone => ?_
    obtain ⟨rfl, hheld, hbuilt, hvalue⟩ := hdone
    refine hheld.settles rfl hvalue hbuilt (fun h' heq => ?_) nofun nofun
      fun _ x hx => htyped.holderSetter_avoids hserves hcall hx
    cases heq
    rfl

/-- What a sequence of calls does. -/
theorem InStep.runs (hstep : o.InStep rt s c) (hserves : o.Serves rt)
    (hcalls : ∀ call ∈ calls, o.Admits rt call) : ∃ outcomes, o.Runs rt s calls outcomes ∧
      constructions (outcomes.flatMap Outcome.events) =
        o.missing rt s * (calls.head?.map AttributeCall.constructs).getD 0 ∧
      ∀ k out, outcomes[k]? = some out →
        ∃ h, o.Coherent rt ((outcomes.take (k + 1)).foldl (o.establish rt) c) out h := by
  induction calls generalizing s c with
  | nil => exact ⟨[], .nil s, (Nat.mul_zero _).symm, fun k out hout => by cases hout⟩
  | cons call calls ih =>
    obtain ⟨hcall, hcalls⟩ := List.forall_mem_cons.1 hcalls
    obtain ⟨v?, s', events, hreturns, hsettles⟩ := hstep.completes hserves hcall
    obtain ⟨outcomes, hruns, hbuilt, hcoherent⟩ := ih hsettles.inStep hcalls
    refine ⟨_, .cons hreturns hruns, ?_, fun k out hout => ?_⟩
    · rw [hsettles.attached, Nat.zero_mul] at hbuilt
      rw [List.flatMap_cons, constructions_append, hbuilt, Nat.add_zero]
      exact hsettles.built
    · cases k with
      | zero =>
        obtain rfl := Option.some.inj hout
        exact hsettles.coherent
      | succ k => exact hcoherent k out hout

/-- Calls on an object that has no holder.  If the first one installs a holder none is constructed, and
otherwise one.  After each call there is a holder, which holds the value of the attribute; the getters
answer the two, and the accessors of the holder do not call the setter of the field. -/
theorem Serves.calls_coherent (hserves : o.Serves rt) (hbare : o.Bare rt s v)
    (hcalls : ∀ call ∈ calls, o.Admits rt call) : ∃ outcomes, o.Runs rt s calls outcomes ∧
      (∀ outcomes', o.Runs rt s calls outcomes' → outcomes' = outcomes) ∧
      constructions (outcomes.flatMap Outcome.events) =
        (calls.head?.map AttributeCall.constructs).getD 0 ∧
      ∀ k out, outcomes[k]? = some out →
        ∃ h, o.Coherent rt (o.established rt v (outcomes.take (k + 1))) out h := by
  have hstep : o.InStep rt s (some v) := ⟨.bare hbare, hbare.value⟩
  have hmissing : o.missing rt s = 1 := if_pos hbare.holder
  obtain ⟨outcomes, hruns, hbuilt, hcoherent⟩ := hstep.runs hserves hcalls
  rw [hmissing, Nat.one_mul] at hbuilt
  exact ⟨outcomes, hruns, fun outcomes' hruns' => hruns'.unique hruns, hbuilt, hcoherent⟩

end LazyObject

end Machine

namespace Sample

def ownedAttribute : MappedAttribute := { name := "b", type := .object "B", valueHolders := true }

/-- The plan for a class that loads an attribute lazily, checks what was fetched and tracks changes. -/
def ownerPlan : Plan :=
  { mapped := { name := "A", valueHolders := true, fetchGroups := true, attributes := [ownedAttribute] }
    superName := Names.object, changeTracking := true, superclassTracksChanges := false
    superclassInternal := false, superclassConstructorOptimization := false
    xmlTransient := Context.default.xmlTransient }

/-- The world is the values of all holders. -/
def ownerObject : LazyObject (Nat → Option Ref) where
  plan := ownerPlan
  fetchOwner := ownerPlan
  listenerOwner := ownerPlan
  attr := ownedAttribute
  target := "B"
  this := 0
  content w h := w h
  weaves := rfl
  hasField := rfl
  type := rfl
  getter := rfl
  setter := rfl

/-- The methods of the class that other methods call. -/
def ownerBody? (name : String) : Option (List Instruction) :=
  if name = Names.holderInitializer "b" then some (ownerPlan.holderInitializer ownedAttribute).body
  else if name = Names.fieldGetter "b" then some (ownerPlan.fieldGetter ownedAttribute).body
  else if name = Names.isAttributeFetched then some ownerPlan.isAttributeFetched.body
  else if name = Names.propertyChange then some ownerPlan.propertyChange.body
  else (Names.fetchGuards.find? (·.1 = name)).map fun x => (ownerPlan.fetchGuard x.1 x.2).body

/-- Holders load the fifth object, attributes were not fetched, and other methods do nothing. -/
def ownerRuntime : Machine.Runtime (Nat → Option Ref) where
  body? _ r _ := if r.owner = "A" then ownerBody? r.name else none
  call? r args s :=
    match args with
    | [.ref (.object h)] =>
      if r.name = "getValue" then
        let v := (s.world h).getD (.object 5)
        some (some (.ref v), { s with world := Function.update s.world h (some v) })
      else if r.name = "isInstantiated" then
        some (some (.int (if (s.world h).isSome then 1 else 0)), s)
      else some (some (.int 0), s)
    | [.ref (.object h), .ref v] =>
      if r.descriptor = Names.objectConsumer then
        some (none, { s with world := Function.update s.world h (some v) })
      else if r.descriptor = Names.stringTest then some (some (.int 0), s)
      else some (none, s)
    | _ => if r.descriptor = Names.stringTest then some (some (.int 0), s) else some (none, s)
  field r := r
  isInstance _ _ := true
  new? name s := some (if name = Names.valueHolder then 8 else 9, s)

/-- The object has no holder; its field has the fourth object, and it has a fetch group and a
listener. -/
def ownerStore : Store (Nat → Option Ref) where
  fields _ r :=
    if r = ownerPlan.holderRef ownedAttribute then .ref .null
    else if r = ownerPlan.attributeRef ownedAttribute then .ref (.object 4)
    else .ref (.object 3)
  world _ := none

theorem ownerRuntime_isHolder (h : Nat) : ownerObject.IsHolder ownerRuntime h where
  castable _ _ _ := .inr rfl
  getValue s := by
    refine ⟨rfl, _, _, rfl, rfl, _, rfl, Function.update_self .., fun w hw => ?_⟩
    change s.world h = some w at hw
    rw [hw]
    rfl
  setValue s v _ := ⟨rfl, _, _, rfl, rfl, rfl, Function.update_self ..⟩
  isInstantiated s := ⟨rfl, _, _, rfl, rfl, rfl, rfl⟩
  flags name hname s := by
    simp only [List.mem_cons, List.not_mem_nil, or_false] at hname
    rcases hname with rfl | rfl <;> exact ⟨rfl, _, _, rfl, ⟨0, rfl⟩, rfl, rfl⟩
  setFlag s := ⟨rfl, _, _, rfl, rfl, rfl, rfl⟩

theorem ownerRuntime_fetches : ownerObject.Fetches ownerRuntime where
  guards x hx := by
    simp only [Names.fetchGuards, List.mem_cons, List.not_mem_nil, or_false] at hx
    rcases hx with rfl | rfl <;> rfl
  test := rfl
  contains g s hg := by
    cases g with
    | null => exact absurd rfl hg
    | string | object => exact ⟨rfl, _, _, rfl, ⟨0, rfl⟩, .refl⟩
  tracker := rfl
  callbacks x hx s := by
    simp only [Names.fetchGuards, List.mem_cons, List.not_mem_nil, or_false] at hx
    rcases hx with rfl | rfl <;> exact ⟨rfl, _, _, rfl, rfl, .refl⟩

theorem ownerRuntime_announces : ownerObject.Announces ownerRuntime where
  body args := rfl
  makes s := ⟨9, s, rfl, .refl⟩
  constructs id args s := by
    cases args <;> exact ⟨rfl, _, _, rfl, rfl, .refl⟩
  notifies l id s hl := by
    cases l <;> exact ⟨rfl, _, _, rfl, rfl, .refl⟩

theorem ownerRuntime_serves : ownerObject.Serves ownerRuntime where
  emitted := isEmitted_of_emits (by decide +kernel)
  initializes := rfl
  reads := rfl
  distinct := by decide
  constructs s v _ :=
    ⟨8, s, rfl, rfl, ownerRuntime_isHolder 8, rfl, _, _, rfl, rfl, rfl, rfl⟩
  fetches _ := ownerRuntime_fetches
  announces _ := ownerRuntime_announces

theorem ownerStore_bare : ownerObject.Bare ownerRuntime ownerStore (.object 4) where
  typed := ⟨fun _ => ⟨_, rfl⟩, fun _ => ⟨_, rfl⟩⟩
  holder := rfl
  value := rfl
  castable := .inr rfl

end Sample

/-- The attribute is read, set, and read again after its holder was asked for: one holder is
constructed, and the reads answer the initial value and the one that was set. -/
theorem Machine.LazyObject.Serves.calls_coherent_sample :
    ∃ first second third fourth, Sample.ownerObject.Runs Sample.ownerRuntime Sample.ownerStore
        [.get, .set (.object 6), .getHolder, .get] [first, second, third, fourth] ∧
      constructions ([first, second, third, fourth].flatMap Outcome.events) = 1 ∧
      first.result = some (.ref (.object 4)) ∧ fourth.result = some (.ref (.object 6)) := by
  have hcalls : ∀ call ∈ [.get, .set (.object 6), .getHolder, .get],
      Sample.ownerObject.Admits Sample.ownerRuntime call := by
    simp only [List.forall_mem_cons]
    exact ⟨True.intro, .inr rfl, True.intro, True.intro, by simp⟩
  obtain ⟨outcomes, hruns, -, hbuilt, hcoherent⟩ :=
    calls_coherent Sample.ownerRuntime_serves Sample.ownerStore_bare hcalls
  cases hruns with
  | cons first hruns =>
  cases hruns with
  | cons second hruns =>
  cases hruns with
  | cons third hruns =>
  cases hruns with
  | cons fourth hruns =>
  cases hruns
  obtain ⟨_, hfirst⟩ := hcoherent 0 _ rfl
  obtain ⟨_, hfourth⟩ := hcoherent 3 _ rfl
  obtain ⟨v, hv, hinitial⟩ := hfirst.answersValue rfl
  obtain ⟨w, hw, hset⟩ := hfourth.answersValue rfl
  obtain rfl : Ref.object 4 = v := Option.some.inj hinitial
  obtain rfl : Ref.object 6 = w := Option.some.inj hset
  exact ⟨_, _, _, _, .cons first (.cons second (.cons third (.cons fourth (.nil _)))), hbuilt, hv, hw⟩

end EntityLoom
