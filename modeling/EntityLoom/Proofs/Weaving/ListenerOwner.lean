import EntityLoom.Proofs.Weaving.Declared
import EntityLoom.Proofs.Weaving.Observation

/-!
# The class that holds the listener

Which class of a hierarchy holds the listener is decided on what the mappings ask for, while whether a
class tracks its changes by woven code depends also on what classes do by hand.  In a lineage that was
observed before it was woven the two agree: `Context.ObservedLineage.listener_owner` says that, where
a class tracks its changes by woven code, the topmost class of its lineage that is to track changes
does so too, holds the listener, and is the one class to which weaving adds the interface.
-/

namespace EntityLoom

/-- What holds of a plan for a class that does, or does not, hold the listener of its hierarchy. -/
structure Plan.ListenerHeld (p : Plan) (existing : List String) (file : ClassFile) (holds : Prop) :
    Prop where
  tracks : holds → p.changeTracking = true
  owns : p.ownsListener = true ↔ holds
  members : ∀ r ∈ listenerMembers p.className, p.Provides r ↔ holds
  interface : Names.changeTracker ∈ Header.addedInterfaces p existing ↔ holds
  woven : ∀ d report, p.extend existing file = .ok (d, report) →
    (Names.changeTracker ∈ report.added.interfaces ↔ holds) ∧
      (holds → ∀ r ∈ listenerMembers p.className, d.Declares r)

namespace Context

variable {context : Context} {m : Model} {c d : MappedClass} {bytes : Bytes} {file : ClassFile}
  {existing : List String} {p : Plan}

/-! ## Who holds the listener -/

/-- A class holds the listener if it tracks its changes by woven code and no ancestor of it is to
track changes. -/
theorem Planned.ownsListener_eq_true (h : Planned context m bytes file d existing p) :
    p.ownsListener = true ↔ p.changeTracking = true ∧ m.ancestorTracksChanges d = false := by
  unfold Plan.ownsListener Plan.root MappedClass.isRoot
  rw [h.mapped_eq, h.superclassTracksChanges_eq]
  cases hsuper : d.superclass with
  | some s => simp
  | none =>
    have hfirst : m.ancestorTracksChanges d = false := by
      rw [Model.ancestorTracksChanges_eq_false, Model.ancestors_of_superclass_none hsuper]
      simp
    simp [hfirst]

/-- Change tracking is added to the interfaces of the class that holds the listener. -/
theorem Planned.changeTracker_mem_iff (h : Planned context m bytes file d existing p) :
    Names.changeTracker ∈ Header.addedInterfaces p existing ↔ p.ownsListener = true := by
  unfold Header.addedInterfaces
  rw [List.mem_filter, Header.changeTracker_mem_wovenInterfaces, h.ownsListener_eq_true,
    h.superclassTracksChanges_eq]
  constructor
  · exact fun hadded => hadded.1
  · intro howns
    have hnew := (h.changeTracking_eq_true.1 howns.1).2.2
    exact ⟨howns, decide_eq_true hnew⟩

/-- Only the topmost class of a lineage that is to track changes holds the listener. -/
theorem Planned.topTracker_of_ownsListener (h : Planned context m bytes file d existing p)
    (hm : m.Validated) (hc : c ∈ m.classes) (hd : d ∈ m.lineage c) (howns : p.ownsListener = true) :
    m.topTracker? c = some d := by
  obtain ⟨htracks, hfirst⟩ := h.ownsListener_eq_true.1 howns
  exact (hm.topTracker?_eq_some hc).2 ⟨hd, (h.changeTracking_eq_true.1 htracks).1, hfirst⟩

/-! ## Observed lineages -/

namespace ObservedLineage

variable {t bottom : MappedClass} {data : MappedClass → Bytes} {input : MappedClass → ClassFile}

/-- Below the topmost class that is to track changes, and in it, tracking by woven code makes that
class the holder of the listener. -/
theorem ownsListener_iff (h : context.ObservedLineage m bottom data input) (hm : m.Validated)
    (hbottom : bottom ∈ m.classes) (hc : c ∈ m.lineage bottom)
    (hp : Planned context m (data c) (input c) c existing p) (htracks : p.changeTracking = true)
    (ht : m.topTracker? c = some t) (hd : d ∈ m.lineage bottom) {existing' : List String} {q : Plan}
    (hq : Planned context m (data d) (input d) d existing' q) :
    q.ownsListener = true ↔ d = t := by
  have hc' := (hm.lineage_closed hbottom c hc).1
  constructor
  · intro howns
    have hself := hq.topTracker_of_ownsListener hm hbottom hd howns
    exact Option.some.inj (hself.symm.trans (hm.topTracker?_of_mem hbottom hc ht))
  · rintro rfl
    obtain ⟨hmem, hasked, hfirst⟩ := (hm.topTracker?_eq_some hc').1 ht
    refine hq.ownsListener_eq_true.2 ⟨?_, hfirst⟩
    exact (h.of_mem hm hbottom hc).changeTracking_of_mem hm hc' hp htracks hmem hq hasked

/-- Where a class tracks its changes by woven code, the topmost class of its lineage that is to track
changes does so too, if its file names its superclass, so that it can be woven at all.  It holds the
listener, and of the classes above and below it alone is given the members for the listener and the
interface. -/
theorem listener_owner {classes : List MappedClass} (hmodel : Model.ofClasses classes = .ok m)
    (hbottom : bottom ∈ m.classes) (h : context.ObservedLineage m bottom data input)
    (hc : c ∈ m.lineage bottom) (hp : Planned context m (data c) (input c) c existing p)
    (htracks : p.changeTracking = true) :
    ∃ t, m.topTracker? c = some t ∧
      (NamesSuperclass (input t) t →
        ∃ existing' q, Planned context m (data t) (input t) t existing' q ∧
          q.changeTracking = true) ∧
      ∀ d ∈ m.lineage bottom, ∀ existing' q,
        Planned context m (data d) (input d) d existing' q →
          q.ListenerHeld existing' (input d) (d = t) := by
  have hm := Model.validated_of_ofClasses hmodel
  have hasked := (hp.changeTracking_eq_true.1 htracks).1
  obtain ⟨t, ht⟩ := Model.exists_topTracker (m := m) hasked
  have howns : ∀ d ∈ m.lineage bottom, ∀ existing' q,
      Planned context m (data d) (input d) d existing' q → (q.ownsListener = true ↔ d = t) :=
    fun d hd existing' q hq => h.ownsListener_iff hm hbottom hc hp htracks ht hd hq
  refine ⟨t, ht, fun hsuper => ?_, fun d hd existing' q hq => ?_⟩
  · obtain ⟨hc', hsub⟩ := hm.lineage_closed hbottom c hc
    have hmem := hsub t (Model.mem_of_topTracker? ht).1
    obtain ⟨existing', hinterfaces, hunwoven⟩ := h.unwoven t hmem
    have hfound := hm.get?_name (hm.lineage_closed hbottom t hmem).1
    obtain ⟨q, hq⟩ := exists_planned context (h.parsed t hmem) (h.named t hmem) hfound
      hinterfaces hunwoven hsuper
    have hholds := (howns t hmem existing' q hq).2 rfl
    exact ⟨existing', q, hq, (hq.ownsListener_eq_true.1 hholds).1⟩
  · have hheld := howns d hd existing' q hq
    have hadded := hq.changeTracker_mem_iff.trans hheld
    constructor
    case tracks => exact fun hdt => (hq.ownsListener_eq_true.1 (hheld.2 hdt)).1
    case owns => exact hheld
    case members => exact fun r hr => (Plan.provides_listenerMember_iff hr).trans hheld
    case interface => exact hadded
    case woven =>
      intro output report hextend
      obtain ⟨parts, hcarried⟩ := hq.carried hextend
      refine ⟨?_, fun hdt r hr => ?_⟩
      · rw [hcarried.added]
        exact hadded
      · exact hcarried.declares ((Plan.provides_listenerMember_iff hr).2 (hheld.2 hdt))

end ObservedLineage

end Context

/-! ## A sample lineage -/

namespace Sample

theorem trackers_observed :
    Context.default.ObservedLineage trackers trackedChild (fun c => (bareFile c).toBytes)
      bareFile := by
  have hlineage : trackers.lineage trackedChild = [trackedChild, tracker] := by decide
  constructor
  case observed =>
    refine ⟨.default, [tracker, trackedChild].map fun c => (bareFile c).toBytes,
      by decide +kernel, ?_⟩
    rw [hlineage]
    simp
  case parsed =>
    rw [hlineage]
    simp only [List.forall_mem_cons]
    exact ⟨ClassFile.parse_toBytes (bareFile_fits (by decide +kernel) (by decide +kernel)),
      ClassFile.parse_toBytes (bareFile_fits (by decide +kernel) (by decide +kernel)), by simp⟩
  case named =>
    rw [hlineage]
    decide +kernel
  case unwoven => exact fun d _ => ⟨[], rfl, List.not_mem_nil⟩

end Sample

/-- Of a class and its subclass that are both to track changes the first one holds the listener. -/
theorem Context.ObservedLineage.listener_owner_sample :
    ∃ p q, default.Planned Sample.trackers (Sample.bareFile Sample.trackedChild).toBytes
        (Sample.bareFile Sample.trackedChild) Sample.trackedChild [] p ∧
      default.Planned Sample.trackers (Sample.bareFile Sample.tracker).toBytes
        (Sample.bareFile Sample.tracker) Sample.tracker [] q ∧
      p.changeTracking = true ∧ p.ownsListener = false ∧
      q.changeTracking = true ∧ q.ownsListener = true := by
  have hmodel : ∃ m, Model.ofClasses [Sample.tracker, Sample.trackedChild] = .ok m ∧
      m = Sample.trackers := by decide +kernel
  obtain ⟨m, hm, rfl⟩ := hmodel
  obtain ⟨p, hp⟩ := Sample.bareFile_planned default Sample.trackers Sample.trackedChild
    (by decide +kernel) (by decide +kernel) (by decide) ⟨some "R", by decide +kernel, by decide⟩
  obtain ⟨q, hq⟩ := Sample.bareFile_planned default Sample.trackers Sample.tracker
    (by decide +kernel) (by decide +kernel) (by decide)
    ⟨some Names.object, by decide +kernel, by decide⟩
  have htracks : p.changeTracking = true :=
    hp.changeTracking_eq_true.2 ⟨rfl, by decide, List.not_mem_nil⟩
  obtain ⟨t, ht, -, hheld⟩ := listener_owner hm (by decide) Sample.trackers_observed
    (Model.mem_lineage_self _ _) hp htracks
  obtain rfl : Sample.tracker = t := Option.some.inj (Eq.trans (by decide) ht)
  have hfirst := hheld Sample.tracker (by decide) [] q hq
  have hsecond := hheld Sample.trackedChild (by decide) [] p hp
  refine ⟨p, q, hp, hq, htracks, ?_, hfirst.tracks rfl, hfirst.owns.2 rfl⟩
  exact Bool.eq_false_iff.2 fun howns => absurd (hsecond.owns.1 howns) (by decide)

end EntityLoom
