import EntityLoom.CommandLine.Execution
import EntityLoom.Proofs.Weaving.Idempotence

/-!
# Settings and contexts

The settings of an input are there to tell when it must be woven again.  Of the context they hold
the release and whether fields are hidden from XML binding, but not the classes that track their
changes by hand, which come from all inputs of a session.  Weaving asks the context whether a class
or an ancestor of it is one of these, and nothing else about them (`Context.plan_congr`).

`Context.weave_settings` therefore finds two weaves of the same data under equal settings to differ
exactly where the two contexts are at odds over a class (`Context.AtOdds`): its mapping asks for
change tracking, it does not track its changes by hand itself, and only one context knows of a
class of its lineage that does.
-/

namespace EntityLoom

variable {context context' : Context} {m m' : Model} {data : Bytes} {file : ClassFile}
  {mapped : MappedClass} {existing : List String}

/-! ## What weaving takes from the context -/

namespace Context

/-- Whether the changes of a mapped class with the given interfaces are tracked by woven code. -/
def tracksByCode (context : Context) (m : Model) (mapped : MappedClass) (existing : List String) :
    Bool :=
  mapped.changeTracking &&
    !(context.tracksNatively m mapped || decide (Names.changeTracker ∈ existing))

/-- Contexts differ in this where the mapping asks for change tracking, the class does not track its
changes by hand, and one of them alone knows of a class of its lineage that does. -/
theorem tracksByCode_ne_iff :
    context.tracksByCode m mapped existing ≠ context'.tracksByCode m mapped existing ↔
      mapped.changeTracking = true ∧ Names.changeTracker ∉ existing ∧
        context.tracksNatively m mapped ≠ context'.tracksNatively m mapped := by
  unfold tracksByCode
  by_cases hhand : Names.changeTracker ∈ existing
  · simp [hhand]
  · cases mapped.changeTracking <;> simp [hhand]

/-- Contexts that agree on two questions make the same plan. -/
theorem plan_congr (hxml : context.xmlTransient = context'.xmlTransient)
    (htracks : context.tracksByCode m mapped existing = context'.tracksByCode m mapped existing)
    (superName : Option String) :
    Plan.make mapped m context superName existing =
      Plan.make mapped m context' superName existing := by
  unfold tracksByCode at htracks
  unfold Plan.make
  simp only [hxml, htracks]

/-- A class is extended alike in contexts that make the same plans for it. -/
theorem extendFile_congr
    (h : ∀ existing superName, file.interfaceNames = .ok existing → Names.woven ∉ existing →
      Plan.make mapped m context superName existing =
        Plan.make mapped m context' superName existing) :
    context.extendFile m file mapped = context'.extendFile m file mapped := by
  unfold extendFile
  refine bind_congr_ok fun existing hexisting => ?_
  by_cases hwoven : Names.woven ∈ existing
  · simp only [if_pos hwoven]
  · simp only [if_neg hwoven]
    refine bind_congr_ok fun superName _ => ?_
    rw [h existing superName (WeaveError.ofFormat_eq_ok.1 hexisting) hwoven]

/-- Two contexts are at odds over the class in some data: it is not woven yet, it is to track its
changes and does not do so by hand, and only one of them knows of a class of its lineage that does. -/
structure AtOdds (context context' : Context) (m : Model) (data : Bytes) (file : ClassFile)
    (mapped : MappedClass) (existing : List String) : Prop where
  parsed : ClassFile.parse data = .ok file
  named : file.name = .ok mapped.name
  found : m.get? mapped.name = some mapped
  interfaces : file.interfaceNames = .ok existing
  unwoven : Names.woven ∉ existing
  asked : mapped.changeTracking = true
  notByHand : Names.changeTracker ∉ existing
  differ : context.tracksNatively m mapped ≠ context'.tracksNatively m mapped

/-- Contexts that are at odds over no class weave alike. -/
theorem weave_congr (hxml : context.xmlTransient = context'.xmlTransient)
    (h : ∀ file mapped existing, ¬context.AtOdds context' m data file mapped existing) :
    context.weave m data = context'.weave m data := by
  have hextend : context.extend m data = context'.extend m data := by
    unfold extend
    refine bind_congr_ok fun file hparsed => bind_congr_ok fun name hnamed => ?_
    cases hfound : m.get? name with
    | none => rfl
    | some mapped =>
      obtain ⟨-, rfl⟩ := Model.mem_of_get? hfound
      refine extendFile_congr fun existing superName hexisting hwoven => ?_
      refine plan_congr hxml ?_ superName
      by_contra hdiffer
      obtain ⟨hasked, hhand, hnative⟩ := tracksByCode_ne_iff.1 hdiffer
      exact h file mapped existing
        { parsed := WeaveError.ofFormat_eq_ok.1 hparsed
          named := WeaveError.ofFormat_eq_ok.1 hnamed
          found := hfound
          interfaces := hexisting
          unwoven := hwoven
          asked := hasked
          notByHand := hhand
          differ := hnative }
  unfold weave
  rw [hextend]

/-! ## Contexts that are at odds -/

namespace AtOdds

theorem symm (h : context.AtOdds context' m data file mapped existing) :
    context'.AtOdds context m data file mapped existing :=
  { h with differ := h.differ.symm }

/-- A class over which contexts are at odds is not passed over, and what is reported of it says
whether its changes are tracked by woven code. -/
theorem reported (h : context.AtOdds context' m data file mapped existing)
    (hnew : Names.wovenChangeTracking ∉ existing) {outcome : WeaveOutcome}
    (hwoven : context.weave m data = .ok outcome) :
    ∃ bytes report, outcome = .woven bytes report ∧
      (Names.wovenChangeTracking ∈ report.added.interfaces ↔
        context.tracksNatively m mapped = false) := by
  cases outcome with
  | alreadyWoven =>
    obtain ⟨file', -, existing', hparsed, -, -, hinterfaces, hmarked⟩ :=
      weave_eq_alreadyWoven.1 hwoven
    obtain rfl := Except.ok.inj (h.parsed.symm.trans hparsed)
    obtain rfl := Except.ok.inj (h.interfaces.symm.trans hinterfaces)
    exact absurd hmarked h.unwoven
  | woven bytes report =>
    obtain ⟨d, hextend, -⟩ := weave_eq_woven.1 hwoven
    obtain ⟨existing', p, parts, hplanned, hcarried⟩ :=
      extend_class_eq_ok h.parsed h.named h.found hextend
    obtain rfl := Except.ok.inj (h.interfaces.symm.trans hplanned.interfaces)
    refine ⟨bytes, report, rfl, ?_⟩
    rw [hcarried.added, Header.wovenChangeTracking_mem_addedInterfaces hnew,
      hplanned.changeTracking_eq_true]
    exact ⟨fun hall => hall.2.1, fun hnative => ⟨h.asked, hnative, h.notByHand⟩⟩

end AtOdds

/-! ## What a session learns -/

/-- Looking at an input leaves all but the known classes as it was. -/
theorem observeInput_eq (context : Context) (data : Bytes) :
    ∃ names, context.observeInput data = { context with nativeTrackers := names } := by
  cases hobserve : context.observe data with
  | error e =>
    refine ⟨context.nativeTrackers, ?_⟩
    rw [observeInput, hobserve]
    rfl
  | ok observed =>
    rw [observeInput_of_ok hobserve]
    unfold observe at hobserve
    obtain ⟨file, -, hobserve⟩ := bind_eq_ok.1 hobserve
    obtain ⟨existing, -, hobserve⟩ := bind_eq_ok.1 hobserve
    split at hobserve
    · obtain ⟨name, -, hrecord⟩ := bind_eq_ok.1 hobserve
      cases hrecord
      unfold record
      split
      · exact ⟨context.nativeTrackers, rfl⟩
      · exact ⟨name :: context.nativeTrackers, rfl⟩
    · cases hobserve
      exact ⟨context.nativeTrackers, rfl⟩

theorem observeInputs_eq (context : Context) (seen : List Bytes) :
    ∃ names, context.observeInputs seen = { context with nativeTrackers := names } := by
  induction seen generalizing context with
  | nil => exact ⟨context.nativeTrackers, rfl⟩
  | cons data seen ih =>
    obtain ⟨names, hdata⟩ := observeInput_eq context data
    rw [observeInputs_cons, hdata]
    exact ih { context with nativeTrackers := names }

/-- The settings of a session do not tell what its inputs have shown. -/
theorem settingsOf_observeInputs (digest : String) (context : Context) (seen : List Bytes)
    (classPath : List String) :
    CommandLine.settingsOf digest (context.observeInputs seen) classPath =
      CommandLine.settingsOf digest context classPath := by
  obtain ⟨names, hseen⟩ := observeInputs_eq context seen
  rw [hseen]
  rfl

/-! ## Settings -/

/-- The digest of the model, assumed to belong to one model alone, and the other settings decide what
weaving makes of some data, unless the contexts are at odds over the class in it.  If they are, two
weaves that succeed do not answer alike: one reports that the changes of the class are tracked by
woven code, and the other does not.  A class that has the interface which says so before it is woven
is left out there, since neither report then names it. -/
theorem weave_settings {digest digest' : String} {classPath classPath' : List String}
    (hmodel : digest = digest' → m = m')
    (hsettings : CommandLine.settingsOf digest context classPath =
      CommandLine.settingsOf digest' context' classPath') (data : Bytes) :
    ((∀ file mapped existing, ¬context.AtOdds context' m data file mapped existing) →
      context.weave m data = context'.weave m' data) ∧
    ∀ file mapped existing, context.AtOdds context' m data file mapped existing →
      Names.wovenChangeTracking ∉ existing →
      ∀ outcome outcome', context.weave m data = .ok outcome → context'.weave m' data = .ok outcome' →
        ∃ bytes report bytes' report', outcome = .woven bytes report ∧
          outcome' = .woven bytes' report' ∧
          (Names.wovenChangeTracking ∈ report.added.interfaces ↔
            Names.wovenChangeTracking ∉ report'.added.interfaces) := by
  unfold CommandLine.settingsOf WeaveSettings.ofClassPath at hsettings
  obtain ⟨hdigest, -, hxml, -⟩ := WeaveSettings.mk.inj hsettings
  obtain rfl := hmodel hdigest
  refine ⟨weave_congr hxml, fun file mapped existing hodds hnew outcome outcome' houtcome houtcome' => ?_⟩
  obtain ⟨bytes, report, rfl, hreport⟩ := hodds.reported hnew houtcome
  obtain ⟨bytes', report', rfl, hreport'⟩ := hodds.symm.reported hnew houtcome'
  refine ⟨bytes, report, bytes', report', rfl, rfl, ?_⟩
  have hother := Bool.eq_not_iff.2 hodds.differ
  rw [hreport, hreport', hother]
  simp

/-- A session that has seen the superclass of a class, which tracks its changes by hand, and one that
has not are at odds over the class.  They have the same settings and weave it otherwise. -/
theorem weave_settings_observed :
    ∃ observed outcome outcome', observed = default.observeInputs [Sample.trackerFile.toBytes] ∧
      CommandLine.settingsOf "digest" observed [] = CommandLine.settingsOf "digest" default [] ∧
      default.weave Sample.trackers (Sample.bareFile Sample.trackedChild).toBytes = .ok outcome ∧
      observed.weave Sample.trackers (Sample.bareFile Sample.trackedChild).toBytes = .ok outcome' ∧
      outcome ≠ outcome' := by
  have hsettings := settingsOf_observeInputs "digest" default [Sample.trackerFile.toBytes] []
  have hodds : default.AtOdds (default.observeInputs [Sample.trackerFile.toBytes]) Sample.trackers
      (Sample.bareFile Sample.trackedChild).toBytes (Sample.bareFile Sample.trackedChild)
      Sample.trackedChild [] := by
    constructor
    case parsed =>
      exact ClassFile.parse_toBytes (Sample.bareFile_fits (by decide +kernel) (by decide +kernel))
    case named => decide +kernel
    case found => decide
    case interfaces => rfl
    case unwoven | notByHand => exact List.not_mem_nil
    case asked => rfl
    case differ => decide +kernel
  have hrun : ∃ outcome,
      default.weave Sample.trackers (Sample.bareFile Sample.trackedChild).toBytes = .ok outcome ∧
      ∃ outcome', (default.observeInputs [Sample.trackerFile.toBytes]).weave Sample.trackers
        (Sample.bareFile Sample.trackedChild).toBytes = .ok outcome' ∧ True := by
    decide +kernel
  obtain ⟨outcome, houtcome, outcome', houtcome', -⟩ := hrun
  refine ⟨_, outcome, outcome', rfl, hsettings, houtcome, houtcome', ?_⟩
  obtain ⟨-, hdiffer⟩ := weave_settings (fun _ => rfl) hsettings.symm
    (Sample.bareFile Sample.trackedChild).toBytes
  obtain ⟨bytes, report, bytes', report', rfl, rfl, hreports⟩ :=
    hdiffer _ _ _ hodds List.not_mem_nil outcome outcome' houtcome houtcome'
  intro hsame
  obtain ⟨-, rfl⟩ := WeaveOutcome.woven.inj hsame
  exact iff_not_self hreports

/-- Sessions whose inputs show the same classes to track their changes by hand weave all data alike,
in whatever order the inputs are looked at. -/
theorem weave_eq_of_seen {seen seen' : List Bytes}
    (h : ∀ name, (∃ data ∈ seen, TracksByHand data name) ↔ ∃ data ∈ seen', TracksByHand data name) :
    (context.observeInputs seen).weave m data = (context.observeInputs seen').weave m data := by
  have hknown : ∀ name, name ∈ (context.observeInputs seen).nativeTrackers ↔
      name ∈ (context.observeInputs seen').nativeTrackers := by
    intro name
    rw [mem_observeInputs, mem_observeInputs, h name]
  have hxml : (context.observeInputs seen).xmlTransient = (context.observeInputs seen').xmlTransient := by
    obtain ⟨names, hseen⟩ := observeInputs_eq context seen
    obtain ⟨names', hseen'⟩ := observeInputs_eq context seen'
    rw [hseen, hseen']
  refine weave_congr hxml fun file mapped existing hodds => ?_
  apply hodds.differ
  rw [Bool.eq_iff_iff, tracksNatively_eq_true, tracksNatively_eq_true]
  simp only [hknown]

end Context

end EntityLoom
