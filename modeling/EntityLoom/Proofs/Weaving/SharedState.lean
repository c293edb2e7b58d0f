import EntityLoom.Proofs.Weaving.ListenerOwner

/-!
# State that a hierarchy holds once

The support of a class is placed by several rules: some of it at the root of the hierarchy, the
listener at the first class that is to track changes, and a holder for each lazy attribute at the
class that declares it.  `WovenChain.shared_once` says that no two classes of a hierarchy are given the
same field or the same one of the interfaces that stand for such state, whatever each of them was
woven with.

Weaving keeps the fields that a class has, whatever they are called.  A class that had a field by the
name of one that its superclass is given therefore declares it a second time
(`WovenChain.not_declared_once`).
-/

namespace EntityLoom

/-! ## Fields and interfaces of two classes -/

namespace Context.Planned

variable {context context' : Context} {m : Model} {c d e : MappedClass} {bytes bytes' : Bytes}
  {file file' : ClassFile} {existing existing' : List String} {p q : Plan} {name : String}

/-- The root of a hierarchy is one class. -/
theorem eq_of_root (hp : Planned context m bytes file d existing p)
    (hq : Planned context' m bytes' file' e existing' q) (hm : m.Validated) (hc : c ∈ m.classes)
    (hd : d ∈ m.lineage c) (he : e ∈ m.lineage c) (hdroot : p.root = true) (heroot : q.root = true) :
    d = e := by
  unfold Plan.root MappedClass.isRoot at hdroot heroot
  rw [hp.mapped_eq] at hdroot
  rw [hq.mapped_eq] at heroot
  obtain ⟨-, -, hunique⟩ := hm.rootOf_spec hc
  exact (hunique d hd (Option.isNone_iff_eq_none.1 hdroot)).trans
    (hunique e he (Option.isNone_iff_eq_none.1 heroot)).symm

/-- The holder of the listener is one class. -/
theorem eq_of_ownsListener (hp : Planned context m bytes file d existing p)
    (hq : Planned context' m bytes' file' e existing' q) (hm : m.Validated) (hc : c ∈ m.classes)
    (hd : d ∈ m.lineage c) (he : e ∈ m.lineage c) (hdowns : p.ownsListener = true)
    (heowns : q.ownsListener = true) : d = e :=
  Option.some.inj ((hp.topTracker_of_ownsListener hm hc hd hdowns).symm.trans
    (hq.topTracker_of_ownsListener hm hc he heowns))

/-- A lazy attribute is one that the class itself declares. -/
theorem mem_ownAttributes (hp : Planned context m bytes file d existing p) {a : MappedAttribute}
    (ha : a ∈ p.lazyAttributes) : a ∈ d.ownAttributes := by
  have hown := (List.mem_filter.1 ha).1
  unfold Plan.ownAttributes at hown
  rwa [hp.mapped_eq] at hown

/-- A field is added to one class of a hierarchy. -/
theorem eq_of_fieldPlace (hp : Planned context m bytes file d existing p)
    (hq : Planned context' m bytes' file' e existing' q) (hm : m.Validated) (hc : c ∈ m.classes)
    (hd : d ∈ m.lineage c) (he : e ∈ m.lineage c) (hplace : p.FieldPlace name)
    (hplace' : q.FieldPlace name) : d = e := by
  have hlistener : StateField.listener.name ∉ Plan.rootNames := by decide +kernel
  -- The kinds of fields differ in their names, and each kind has its one class.
  rcases hplace.cases with ⟨a, ha, rfl⟩ | ⟨howns, rfl⟩ | ⟨hroot, hname⟩
  · rcases hplace'.cases with ⟨b, hb, hsame⟩ | ⟨-, hsame⟩ | ⟨-, hname⟩
    · by_contra hne
      exact hm.ownAttributes_disjoint hc hd he hne (hp.mem_ownAttributes ha) (hq.mem_ownAttributes hb)
        (Names.holderField_inj.1 hsame.symm)
    · exact absurd hsame (Names.holderField_ne (by decide) a.name)
    · exact absurd hname (Plan.holderField_not_root a.name)
  · rcases hplace'.cases with ⟨b, -, hsame⟩ | ⟨howns', -⟩ | ⟨-, hname⟩
    · exact absurd hsame (Names.holderField_ne (by decide) b.name)
    · exact hp.eq_of_ownsListener hq hm hc hd he howns howns'
    · exact absurd hname hlistener
  · rcases hplace'.cases with ⟨b, -, hsame⟩ | ⟨-, rfl⟩ | ⟨hroot', -⟩
    · exact absurd (hsame ▸ hname) (Plan.holderField_not_root b.name)
    · exact absurd hname hlistener
    · exact hp.eq_of_root hq hm hc hd he hroot hroot'

end Context.Planned

/-- The interfaces that stand for state which one class of a hierarchy holds. -/
def Header.sharedInterfaces : List String :=
  Header.rootInterfaces ++ [Names.changeTracker]

/-- An interface that stands for shared state is added to one class of a hierarchy. -/
theorem Context.Planned.eq_of_sharedInterface {context context' : Context} {m : Model}
    {c d e : MappedClass} {bytes bytes' : Bytes} {file file' : ClassFile}
    {existing existing' : List String} {p q : Plan} {i : String}
    (hp : Planned context m bytes file d existing p)
    (hq : Planned context' m bytes' file' e existing' q) (hm : m.Validated) (hc : c ∈ m.classes)
    (hd : d ∈ m.lineage c) (he : e ∈ m.lineage c) (hi : i ∈ Header.sharedInterfaces)
    (hadded : i ∈ Header.addedInterfaces p existing)
    (hadded' : i ∈ Header.addedInterfaces q existing') : d = e := by
  rcases List.mem_append.1 hi with hroot | htracker
  · have hdroot := Header.root_of_mem_wovenInterfaces (List.mem_filter.1 hadded).1 hroot
    have heroot := Header.root_of_mem_wovenInterfaces (List.mem_filter.1 hadded').1 hroot
    exact hp.eq_of_root hq hm hc hd he hdroot heroot
  · obtain rfl := List.mem_singleton.1 htracker
    exact hp.eq_of_ownsListener hq hm hc hd he (hp.changeTracker_mem_iff.1 hadded)
      (hq.changeTracker_mem_iff.1 hadded')

/-! ## Woven chains -/

/-- The classes of a lineage are all woven, each in a context of its own, unless they are woven
already.  `data` holds their class files, `input` what is read from these, `output` what weaving makes
of it, and `added` what is reported as added. -/
structure WovenChain (m : Model) (c : MappedClass) (data : MappedClass → Bytes)
    (input output : MappedClass → ClassFile) (added : MappedClass → Added) : Prop where
  parsed : ∀ d ∈ m.lineage c, ClassFile.parse (data d) = .ok (input d)
  named : ∀ d ∈ m.lineage c, (input d).name = .ok d.name
  woven : ∀ d ∈ m.lineage c, ∃ context : Context,
    context.extend m (data d) = .ok none ∧ output d = input d ∧ added d = {} ∨
    ∃ report, context.extend m (data d) = .ok (some (output d, report)) ∧ added d = report.added

namespace WovenChain

open Context (Planned)

variable {m : Model} {c d e : MappedClass} {data : MappedClass → Bytes}
  {input output : MappedClass → ClassFile} {added : MappedClass → Added}

/-- What was added to a class of the chain was added by a plan for it. -/
theorem exists_plan (h : WovenChain m c data input output added) (hm : m.Validated)
    (hc : c ∈ m.classes) (hd : d ∈ m.lineage c) :
    output d = input d ∧ added d = {} ∨
      ∃ context existing p report parts, Planned context m (data d) (input d) d existing p ∧
        p.Carried existing (input d) (output d) report parts ∧ added d = report.added := by
  obtain ⟨context, ⟨-, hsame, hnothing⟩ | ⟨report, hextend, hadded⟩⟩ := h.woven d hd
  · exact .inl ⟨hsame, hnothing⟩
  · have hfound := hm.get?_name (hm.lineage_closed hc d hd).1
    obtain ⟨existing, p, parts, hplanned, hcarried⟩ :=
      Context.extend_class_eq_ok (h.parsed d hd) (h.named d hd) hfound hextend
    exact .inr ⟨context, existing, p, report, parts, hplanned, hcarried, hadded⟩

/-- A field that is added has its place in a plan for the class. -/
theorem fieldPlace_of_added (h : WovenChain m c data input output added) (hm : m.Validated)
    (hc : c ∈ m.classes) (hd : d ∈ m.lineage c) {name : String} (hname : name ∈ (added d).fields) :
    ∃ context existing p, Planned context m (data d) (input d) d existing p ∧ p.FieldPlace name := by
  rcases h.exists_plan hm hc hd with ⟨-, hnothing⟩ |
    ⟨context, existing, p, report, parts, hplanned, hcarried, hadded⟩
  · rw [hnothing] at hname
    cases hname
  · rw [hadded, hcarried.added] at hname
    obtain ⟨f, hf, rfl⟩ := List.mem_map.1 hname
    exact ⟨context, existing, p, hplanned, Plan.fieldPlace (MemberDecl.mem_fieldsOf.1 hf)⟩

/-- A field of a woven class was there before, or has its place in a plan for the class. -/
theorem kept_or_fieldPlace (h : WovenChain m c data input output added) (hm : m.Validated)
    (hc : c ∈ m.classes) (hd : d ∈ m.lineage c) {f : Member} (hf : f ∈ (output d).fields)
    {name : String} (hname : (output d).pool.utf8At f.name = .ok name) :
    f ∈ (input d).fields ∨
      ∃ context existing p, Planned context m (data d) (input d) d existing p ∧
        p.FieldPlace name := by
  rcases h.exists_plan hm hc hd with ⟨hsame, -⟩ |
    ⟨context, existing, p, report, parts, hplanned, hcarried, -⟩
  · exact .inl (hsame ▸ hf)
  · have hfields : (output d).fields = (input d).fields ++ parts.fields := by rw [hcarried.file]
    rw [hfields] at hf
    rcases List.mem_append.1 hf with hold | hnew
    · exact .inl hold
    · obtain ⟨g, hg, hmade⟩ := exists_mem_of_forall₂ hcarried.fields hnew
      obtain rfl := Except.ok.inj (hmade.1.name.symm.trans hname)
      exact .inr ⟨context, existing, p, hplanned, Plan.fieldPlace (MemberDecl.mem_fieldsOf.1 hg)⟩

/-- An interface that is added is one that a plan for the class adds. -/
theorem interface_of_added (h : WovenChain m c data input output added) (hm : m.Validated)
    (hc : c ∈ m.classes) (hd : d ∈ m.lineage c) {i : String} (hi : i ∈ (added d).interfaces) :
    ∃ context existing p, Planned context m (data d) (input d) d existing p ∧
      i ∈ Header.addedInterfaces p existing := by
  rcases h.exists_plan hm hc hd with ⟨-, hnothing⟩ |
    ⟨context, existing, p, report, parts, hplanned, hcarried, hadded⟩
  · rw [hnothing] at hi
    cases hi
  · rw [hadded, hcarried.added] at hi
    exact ⟨context, existing, p, hplanned, hi⟩

/-- No field that weaving adds to a class of a hierarchy is added to another one, nor does a woven
class other than that declare a field of its name, unless it had that before.  Each of the interfaces
that stand for shared state is added to one class of the hierarchy at most. -/
theorem shared_once {classes : List MappedClass} (hmodel : Model.ofClasses classes = .ok m)
    (hc : c ∈ m.classes) (h : WovenChain m c data input output added) (hd : d ∈ m.lineage c)
    (he : e ∈ m.lineage c) (hne : d ≠ e) :
    (∀ name ∈ (added d).fields, name ∉ (added e).fields ∧
      ∀ f ∈ (output e).fields, (output e).pool.utf8At f.name = .ok name → f ∈ (input e).fields) ∧
    ∀ i ∈ Header.sharedInterfaces, i ∈ (added d).interfaces → i ∉ (added e).interfaces := by
  have hm := Model.validated_of_ofClasses hmodel
  refine ⟨fun name hname => ?_, fun i hi hadded hadded' => ?_⟩
  · obtain ⟨context, existing, p, hp, hplace⟩ := h.fieldPlace_of_added hm hc hd hname
    refine ⟨fun hname' => ?_, fun f hf hnamed => ?_⟩
    · obtain ⟨context', existing', q, hq, hplace'⟩ := h.fieldPlace_of_added hm hc he hname'
      exact hne (hp.eq_of_fieldPlace hq hm hc hd he hplace hplace')
    · refine (h.kept_or_fieldPlace hm hc he hf hnamed).resolve_right ?_
      rintro ⟨context', existing', q, hq, hplace'⟩
      exact hne (hp.eq_of_fieldPlace hq hm hc hd he hplace hplace')
  · obtain ⟨context, existing, p, hp, hplan⟩ := h.interface_of_added hm hc hd hadded
    obtain ⟨context', existing', q, hq, hplan'⟩ := h.interface_of_added hm hc he hadded'
    exact hne (hp.eq_of_sharedInterface hq hm hc hd he hi hplan hplan')

end WovenChain

/-! ## A sample chain

A class and its subclass that are both to track changes.  The subclass is woven from two class files,
and in one of them it has a field by the name of the listener already. -/

namespace Sample

/-- The class files of the two classes, with a field in the subclass. -/
def listeningFile (c : MappedClass) : ClassFile :=
  if c = trackedChild then
    { bareFile c with
      pool := (bareFile c).pool.appendAll
        [text StateField.listener.name, text StateField.listener.type.text]
      fields := [⟨Access.protectedFlag, 5, 6, []⟩] }
  else bareFile c

/-- Both class files are read back. -/
theorem listeningFile_parsed (d : MappedClass) (hd : d ∈ [trackedChild, tracker]) :
    ClassFile.parse (listeningFile d).toBytes = .ok (listeningFile d) := by
  refine ClassFile.parse_toBytes ?_
  simp only [List.mem_cons, List.not_mem_nil, or_false] at hd
  rcases hd with rfl | rfl
  · have hslots : (bareFile trackedChild).pool.count ≤ Pool.maxCount := by decide +kernel
    have hbuilt : (bareFile trackedChild).pool.Built := Pool.built_appendAll .empty hslots
    have hfield : Member.Fits ⟨Access.protectedFlag, 5, 6, []⟩ := ⟨by decide, by simp⟩
    constructor
    case built => exact Pool.built_appendAll hbuilt (by decide +kernel)
    case texts => decide +kernel
    case slots => decide +kernel
    case toTablesFit => constructor <;> simp [listeningFile, bareFile, hfield]
  · exact bareFile_fits (by decide +kernel) (by decide +kernel)

/-- The two classes make a woven chain once both are extended. -/
theorem trackers_woven {file : MappedClass → ClassFile} {first second : ClassFile × WeaveReport}
    (hparsed : ∀ d ∈ [trackedChild, tracker], ClassFile.parse (file d).toBytes = .ok (file d))
    (hnamed : ∀ d ∈ [trackedChild, tracker], (file d).name = .ok d.name)
    (hfirst : Context.default.extend trackers (file tracker).toBytes = .ok (some first))
    (hsecond : Context.default.extend trackers (file trackedChild).toBytes = .ok (some second)) :
    WovenChain trackers trackedChild (fun c => (file c).toBytes) file
      (fun c => if c = tracker then first.1 else second.1)
      (fun c => if c = tracker then first.2.added else second.2.added) := by
  have hlineage : trackers.lineage trackedChild = [trackedChild, tracker] := by decide
  constructor
  case parsed =>
    rw [hlineage]
    exact hparsed
  case named =>
    rw [hlineage]
    exact hnamed
  case woven =>
    rw [hlineage]
    simp only [List.forall_mem_cons]
    exact ⟨⟨.default, .inr ⟨second.2, hsecond, rfl⟩⟩, ⟨.default, .inr ⟨first.2, hfirst, rfl⟩⟩,
      by simp⟩

/-- The first class of the two is given the listener and the interface. -/
theorem tracker_extended :
    ∃ x, Context.default.extend trackers (bareFile tracker).toBytes = .ok (some x) ∧
      StateField.listener.name ∈ x.2.added.fields ∧ Names.changeTracker ∈ x.2.added.interfaces := by
  decide +kernel

end Sample

/-- Of a class and its subclass that are both to track changes the first one is given the listener and
the interface, and the other one is not. -/
theorem WovenChain.shared_once_sample :
    ∃ input output added, WovenChain Sample.trackers Sample.trackedChild
        (fun c => (Sample.bareFile c).toBytes) input output added ∧
      (StateField.listener.name ∈ (added Sample.tracker).fields ∧
        StateField.listener.name ∉ (added Sample.trackedChild).fields) ∧
      Names.changeTracker ∈ (added Sample.tracker).interfaces ∧
        Names.changeTracker ∉ (added Sample.trackedChild).interfaces := by
  have hmodel : ∃ m, Model.ofClasses [Sample.tracker, Sample.trackedChild] = .ok m ∧
      m = Sample.trackers := by decide +kernel
  have hsecond : ∃ x, Context.default.extend Sample.trackers
      (Sample.bareFile Sample.trackedChild).toBytes = .ok (some x) ∧ True := by decide +kernel
  obtain ⟨m, hm, rfl⟩ := hmodel
  obtain ⟨first, hfirst, hfield, hinterface⟩ := Sample.tracker_extended
  obtain ⟨second, hsecond, -⟩ := hsecond
  have hlineage : Sample.trackers.lineage Sample.trackedChild =
      [Sample.trackedChild, Sample.tracker] := by decide
  have hne : Sample.tracker ≠ Sample.trackedChild := by decide
  have hchain := Sample.trackers_woven (hlineage ▸ Sample.trackers_observed.parsed)
    (hlineage ▸ Sample.trackers_observed.named) hfirst hsecond
  obtain ⟨hfields, hinterfaces⟩ := shared_once hm (by decide) hchain
    (d := Sample.tracker) (e := Sample.trackedChild) (by decide) (by decide) hne
  exact ⟨_, _, _, hchain, ⟨hfield, (hfields _ hfield).1⟩, hinterface,
    hinterfaces _ (by decide) hinterface⟩

/-- A field that is added to a class of a hierarchy may be declared by another woven class of it, which
had it before. -/
theorem WovenChain.not_declared_once :
    ¬∀ (classes : List MappedClass) (m : Model) (c d e : MappedClass) (data : MappedClass → Bytes)
        (input output : MappedClass → ClassFile) (added : MappedClass → Added),
      Model.ofClasses classes = .ok m → c ∈ m.classes → WovenChain m c data input output added →
      d ∈ m.lineage c → e ∈ m.lineage c → d ≠ e → ∀ name ∈ (added d).fields,
      ∀ f ∈ (output e).fields, (output e).pool.utf8At f.name ≠ .ok name := by
  intro hclaim
  have hmodel : ∃ m, Model.ofClasses [Sample.tracker, Sample.trackedChild] = .ok m ∧
      m = Sample.trackers := by decide +kernel
  have hsecond : ∃ x, Context.default.extend Sample.trackers
      (Sample.listeningFile Sample.trackedChild).toBytes = .ok (some x) ∧
      ∃ f ∈ x.1.fields, x.1.pool.utf8At f.name = .ok StateField.listener.name := by decide +kernel
  obtain ⟨m, hm, rfl⟩ := hmodel
  obtain ⟨first, hfirst, hfield, -⟩ := Sample.tracker_extended
  obtain ⟨second, hsecond, f, hf, hname⟩ := hsecond
  have hchain := Sample.trackers_woven Sample.listeningFile_parsed (by decide +kernel)
    hfirst hsecond
  exact hclaim _ _ _ Sample.tracker Sample.trackedChild _ _ _ _ hm (by decide) hchain (by decide)
    (by decide) (by decide) _ hfield f hf hname

end EntityLoom
