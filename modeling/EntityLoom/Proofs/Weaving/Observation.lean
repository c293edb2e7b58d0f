import EntityLoom.Proofs.Model.Validated
import EntityLoom.Proofs.Weaving.Conservative

/-!
# Observed classes

A session looks at the header of every input before the first class is woven, and records the classes
that track their changes by hand.  `Context.mem_observeInputs` says which those are: the classes of
the unwoven inputs that implement change tracking.  A woven class is passed over, also one that tracked
its changes by hand before it was woven, so a session with inputs that are woven already may answer
otherwise than one that sees the classes before.  `Context.observeInputs_woven` says when it does.
-/

namespace EntityLoom

/-- The data is an unwoven class of the given name that tracks its changes by hand. -/
def TracksByHand (data : Bytes) (name : String) : Prop :=
  ∃ file existing, ClassFile.parse data = .ok file ∧ file.interfaceNames = .ok existing ∧
    file.name = .ok name ∧ Names.woven ∉ existing ∧ Names.changeTracker ∈ existing

namespace Context

variable {context context' : Context} {m : Model} {c : MappedClass} {data : Bytes} {name n : String}
  {seen : List Bytes}

/-! ## Observing an input -/

theorem mem_record :
    n ∈ (context.record name).nativeTrackers ↔ n ∈ context.nativeTrackers ∨ n = name := by
  unfold record
  split
  · next hmem =>
    refine ⟨.inl, fun h => ?_⟩
    rcases h with h | rfl
    · exact h
    · exact hmem
  · exact List.mem_cons.trans or_comm

/-- A class whose header can be read is observed. -/
theorem observe_of_read {file : ClassFile} {existing : List String}
    (hfile : ClassFile.parse data = .ok file) (hexisting : file.interfaceNames = .ok existing)
    (hname : file.name = .ok name) :
    context.observe data = .ok (if Names.woven ∉ existing ∧ Names.changeTracker ∈ existing then
      context.record name else context) := by
  unfold observe
  refine bind_eq_ok.2 ⟨file, hfile, bind_eq_ok.2 ⟨existing, hexisting, ?_⟩⟩
  split
  · exact bind_eq_ok.2 ⟨name, hname, rfl⟩
  · rfl

/-- A class that tracks its changes by hand is recorded. -/
theorem observe_of_tracksByHand (h : TracksByHand data name) :
    context.observe data = .ok (context.record name) := by
  obtain ⟨file, existing, hfile, hexisting, hname, hboth⟩ := h
  rw [observe_of_read hfile hexisting hname, if_pos hboth]

/-- Observing a class forgets nothing, and records the class if it tracks its changes by hand. -/
theorem mem_observe (h : context.observe data = .ok context') :
    n ∈ context'.nativeTrackers ↔ n ∈ context.nativeTrackers ∨ TracksByHand data n := by
  constructor
  · intro hn
    unfold observe at h
    obtain ⟨file, hfile, h⟩ := bind_eq_ok.1 h
    obtain ⟨existing, hexisting, h⟩ := bind_eq_ok.1 h
    split at h
    · next hboth =>
      obtain ⟨name, hname, h⟩ := bind_eq_ok.1 h
      cases h
      rcases mem_record.1 hn with hold | rfl
      · exact .inl hold
      · exact .inr ⟨file, existing, hfile, hexisting, hname, hboth⟩
    · cases h
      exact .inl hn
  · rintro (hold | hhand)
    · unfold observe at h
      obtain ⟨file, -, h⟩ := bind_eq_ok.1 h
      obtain ⟨existing, -, h⟩ := bind_eq_ok.1 h
      split at h
      · obtain ⟨name, -, h⟩ := bind_eq_ok.1 h
        cases h
        exact mem_record.2 (.inl hold)
      · cases h
        exact hold
    · rw [observe_of_tracksByHand hhand] at h
      cases h
      exact mem_record.2 (.inr rfl)

/-! ## Observing all inputs -/

theorem observeInputs_cons :
    context.observeInputs (data :: seen) = (context.observeInput data).observeInputs seen := rfl

theorem observeInput_of_ok (h : context.observe data = .ok context') :
    context.observeInput data = context' := by
  unfold observeInput
  rw [h]
  rfl

theorem mem_observeInput :
    n ∈ (context.observeInput data).nativeTrackers ↔
      n ∈ context.nativeTrackers ∨ TracksByHand data n := by
  cases hobserve : context.observe data with
  | ok context' =>
    rw [observeInput_of_ok hobserve]
    exact mem_observe hobserve
  | error e =>
    have hsame : context.observeInput data = context := by
      unfold observeInput
      rw [hobserve]
      rfl
    rw [hsame]
    -- Data that is no class tracks nothing.
    refine ⟨.inl, fun h => h.resolve_right fun hhand => ?_⟩
    rw [observe_of_tracksByHand hhand] at hobserve
    cases hobserve

/-- The recorded classes are those that track their changes by hand. -/
theorem mem_observeInputs :
    n ∈ (context.observeInputs seen).nativeTrackers ↔
      n ∈ context.nativeTrackers ∨ ∃ data ∈ seen, TracksByHand data n := by
  induction seen generalizing context with
  | nil => simp [observeInputs]
  | cons data seen ih =>
    rw [observeInputs_cons, @ih (context.observeInput data), mem_observeInput, or_assoc]
    simp

theorem observeInputs_of_foldlM (h : seen.foldlM observe context = .ok context') :
    context.observeInputs seen = context' := by
  induction seen generalizing context with
  | nil => exact Except.ok.inj h
  | cons data seen ih =>
    obtain ⟨middle, hdata, hseen⟩ := foldlM_cons_eq_ok.1 h
    rw [observeInputs_cons, observeInput_of_ok hdata]
    exact ih hseen

/-- A class that tracks no changes by hand is in no lineage of one that does. -/
theorem tracksNatively_eq_false :
    context.tracksNatively m c = false ↔ ∀ d ∈ m.lineage c, d.name ∉ context.nativeTrackers := by
  unfold tracksNatively Model.lineage
  simp

theorem tracksNatively_eq_true :
    context.tracksNatively m c = true ↔ ∃ d ∈ m.lineage c, d.name ∈ context.nativeTrackers := by
  unfold tracksNatively Model.lineage
  simp

end Context

/-! ## Observed lineages -/

/-- The unwoven classes of a lineage were all observed by a context.  `data` holds their class files,
and `input` what is read from these. -/
structure Context.ObservedLineage (context : Context) (m : Model) (c : MappedClass)
    (data : MappedClass → Bytes) (input : MappedClass → ClassFile) : Prop where
  observed : ∃ (start : Context) (seen : List Bytes), start.observeInputs seen = context ∧
    ∀ d ∈ m.lineage c, data d ∈ seen
  parsed : ∀ d ∈ m.lineage c, ClassFile.parse (data d) = .ok (input d)
  named : ∀ d ∈ m.lineage c, (input d).name = .ok d.name
  unwoven : ∀ d ∈ m.lineage c, ∃ existing, (input d).interfaceNames = .ok existing ∧
    Names.woven ∉ existing

namespace Context.ObservedLineage

variable {context : Context} {m : Model} {c d : MappedClass} {data : MappedClass → Bytes}
  {input : MappedClass → ClassFile} {existing existing' : List String} {p q : Plan}

/-- The lineages of the classes in an observed lineage are observed too. -/
theorem of_mem (h : context.ObservedLineage m c data input) (hm : m.Validated)
    (hc : c ∈ m.classes) (hd : d ∈ m.lineage c) : context.ObservedLineage m d data input := by
  have hsub := (hm.lineage_closed hc d hd).2
  obtain ⟨start, seen, hobserve, hseen⟩ := h.observed
  exact
    { observed := ⟨start, seen, hobserve, fun e he => hseen e (hsub e he)⟩
      parsed := fun e he => h.parsed e (hsub e he)
      named := fun e he => h.named e (hsub e he)
      unwoven := fun e he => h.unwoven e (hsub e he) }

/-- Where a class tracks its changes by woven code, so do all its ancestors that are to track theirs:
none of them does so by hand. -/
theorem changeTracking_of_mem (h : context.ObservedLineage m c data input) (hm : m.Validated)
    (hc : c ∈ m.classes) (hp : Planned context m (data c) (input c) c existing p)
    (htracks : p.changeTracking = true) (hd : d ∈ m.lineage c)
    (hq : Planned context m (data d) (input d) d existing' q) (hdtracks : d.changeTracking = true) :
    q.changeTracking = true := by
  obtain ⟨-, hwoven, -⟩ := hp.changeTracking_eq_true.1 htracks
  have hnone := tracksNatively_eq_false.1 hwoven
  apply hq.changeTracking_eq_true.2
  refine ⟨hdtracks, tracksNatively_eq_false.2 fun e he => ?_, fun htracker => ?_⟩
  · exact hnone e ((hm.lineage_closed hc d hd).2 e he)
  · obtain ⟨start, seen, rfl, hseen⟩ := h.observed
    apply hnone d hd
    exact mem_observeInputs.2 (.inr ⟨data d, hseen d hd, input d, existing', hq.parsed,
      hq.interfaces, hq.named, hq.unwoven, htracker⟩)

end Context.ObservedLineage

/-! ## Woven inputs -/

/-- A woven class has the interfaces that it had, and those that were added. -/
theorem Plan.Carried.interfaceNames {p : Plan} {existing : List String} {file d : ClassFile}
    {report : WeaveReport} {parts : Plan.Parts} (h : Carried p existing file d report parts)
    (hexisting : file.interfaceNames = .ok existing) :
    d.interfaceNames = .ok (existing ++ Header.addedInterfaces p existing) := by
  unfold ClassFile.interfaceNames at hexisting ⊢
  have hinterfaces : d.interfaces = file.interfaces ++ parts.interfaces := by rw [h.file]
  rw [hinterfaces, mapM_eq_ok]
  refine List.rel_append ?_ h.interfaces.flip
  exact (mapM_eq_ok.1 hexisting).imp fun _ _ hname => h.pool.classNameAt hname

/-- The output is what weaving makes of the input with some model in some context, within the limits
of the format. -/
def WovenFrom (input output : Bytes) : Prop :=
  ∃ (context : Context) (m : Model) (report : WeaveReport),
    context.weave m input = .ok (.woven output report) ∧
      ∀ d, context.extend m input = .ok (some (d, report)) →
        d.WithinLimits ∧ d.pool.count ≤ Pool.maxCount

namespace Context

variable {context : Context} {data bytes : Bytes}

/-- A woven class is passed over. -/
theorem observe_output (h : WovenFrom data bytes) : context.observe bytes = .ok context := by
  obtain ⟨weaver, m, report, hwoven, hlimits⟩ := h
  obtain ⟨d, hextend, rfl⟩ := weave_eq_woven.1 hwoven
  obtain ⟨hlimits, hcount⟩ := hlimits d hextend
  obtain ⟨file, mapped, existing, p, hplanned, hp⟩ := extend_eq_ok hextend
  obtain ⟨parts, hcarried⟩ := hplanned.carried hp
  have hfits : file.Fits := by
    refine ClassFile.fits_of_count_le hplanned.parsed (Nat.le_trans ?_ hcount)
    rw [Pool.count_eq, Pool.count_eq]
    exact hcarried.pool.slots_prefix.length_le
  have hparsed := ClassFile.parse_toBytes (hcarried.fits hfits hlimits)
  have hmarked : Names.woven ∈ existing ++ Header.addedInterfaces p existing :=
    List.mem_append_right _ (Header.woven_mem_addedInterfaces hplanned.unwoven)
  unfold observe
  refine bind_eq_ok.2 ⟨d, hparsed, bind_eq_ok.2
    ⟨_, hcarried.interfaceNames hplanned.interfaces, ?_⟩⟩
  rw [if_neg fun hboth => hboth.1 hmarked]
  rfl

/-- A class that can be woven can be observed. -/
theorem exists_observe_input (h : WovenFrom data bytes) :
    ∃ context', context.observe data = .ok context' := by
  obtain ⟨weaver, m, report, hwoven, -⟩ := h
  obtain ⟨d, hextend, -⟩ := weave_eq_woven.1 hwoven
  obtain ⟨file, mapped, existing, p, hplanned, -⟩ := extend_eq_ok hextend
  exact ⟨_, observe_of_read hplanned.parsed hplanned.interfaces hplanned.named⟩

theorem not_tracksByHand_output (h : WovenFrom data bytes) (name : String) :
    ¬TracksByHand bytes name := by
  intro hhand
  -- A context that knows nobody does not learn of the class.
  have hpassed : default.observe bytes = .ok default := observe_output h
  have hmem := (mem_observe (n := name) hpassed).2 (.inr hhand)
  cases hmem

variable {start : Context} {m : Model} {c : MappedClass} {pairs : List (Bytes × Bytes)}

/-- The unwoven inputs show what the inputs of the session show, and the classes that tracked their
changes by hand before they were woven. -/
theorem mem_observeInputs_unwoven (hpairs : ∀ x ∈ pairs, x.2 = x.1 ∨ WovenFrom x.1 x.2) (n : String) :
    n ∈ (start.observeInputs (pairs.map Prod.fst)).nativeTrackers ↔
      n ∈ (start.observeInputs (pairs.map Prod.snd)).nativeTrackers ∨
        ∃ x ∈ pairs, WovenFrom x.1 x.2 ∧ TracksByHand x.1 n := by
  rw [mem_observeInputs, mem_observeInputs]
  simp only [List.mem_map]
  constructor
  · rintro (hstart | ⟨-, ⟨x, hx, rfl⟩, hhand⟩)
    · exact .inl (.inl hstart)
    · rcases hpairs x hx with hsame | hwoven
      · exact .inl (.inr ⟨x.2, ⟨x, hx, rfl⟩, hsame ▸ hhand⟩)
      · exact .inr ⟨x, hx, hwoven, hhand⟩
  · rintro ((hstart | ⟨-, ⟨x, hx, rfl⟩, hhand⟩) | ⟨x, hx, -, hhand⟩)
    · exact .inl hstart
    · rcases hpairs x hx with hsame | hwoven
      · exact .inr ⟨x.1, ⟨x, hx, rfl⟩, hsame ▸ hhand⟩
      · exact absurd hhand (not_tracksByHand_output hwoven n)
    · exact .inr ⟨x.1, ⟨x, hx, rfl⟩, hhand⟩

/-- Whether a class is seen to track changes by hand is the same as for the unwoven inputs exactly if
the inputs of the session show it, or none of the woven ones was such a class of its lineage. -/
theorem tracksNatively_eq_unwoven_iff (hpairs : ∀ x ∈ pairs, x.2 = x.1 ∨ WovenFrom x.1 x.2) :
    (start.observeInputs (pairs.map Prod.snd)).tracksNatively m c =
        (start.observeInputs (pairs.map Prod.fst)).tracksNatively m c ↔
      (start.observeInputs (pairs.map Prod.snd)).tracksNatively m c = true ∨
        ∀ x ∈ pairs, WovenFrom x.1 x.2 → ∀ d ∈ m.lineage c, ¬TracksByHand x.1 d.name := by
  have hknown : ∀ n, n ∈ (start.observeInputs (pairs.map Prod.fst)).nativeTrackers ↔ _ :=
    mem_observeInputs_unwoven hpairs
  cases hmixed : (start.observeInputs (pairs.map Prod.snd)).tracksNatively m c with
  | true =>
    obtain ⟨d, hd, hmem⟩ := tracksNatively_eq_true.1 hmixed
    have hunwoven : (start.observeInputs (pairs.map Prod.fst)).tracksNatively m c = true :=
      tracksNatively_eq_true.2 ⟨d, hd, (hknown d.name).2 (.inl hmem)⟩
    simp [hunwoven]
  | false =>
    have hnone := tracksNatively_eq_false.1 hmixed
    rw [eq_comm, tracksNatively_eq_false]
    constructor
    · intro hunknown
      refine .inr fun x hx hwoven d hd hhand => ?_
      exact hunknown d hd ((hknown d.name).2 (.inr ⟨x, hx, hwoven, hhand⟩))
    · rintro (htrue | hall) d hd hmem
      · cases htrue
      · rcases (hknown d.name).1 hmem with hold | ⟨x, hx, hwoven, hhand⟩
        · exact hnone d hd hold
        · exact hall x hx hwoven d hd hhand

/-- What a session learns from inputs of which some are woven already.  A woven input adds nothing
to the classes that are known to track their changes by hand, while the class before adds itself if it
does so.  Whether a class is seen to track changes by hand is therefore the same as for the unwoven
inputs exactly if another input shows it, or none of the woven inputs was such a class of its
lineage before. -/
theorem observeInputs_woven (start : Context) (m : Model)
    (hpairs : ∀ x ∈ pairs, x.2 = x.1 ∨ WovenFrom x.1 x.2) :
    (∀ x ∈ pairs, WovenFrom x.1 x.2 → ∀ context : Context,
      context.observe x.2 = .ok context ∧ ∃ context', context.observe x.1 = .ok context' ∧
        ∀ n, n ∈ context'.nativeTrackers ↔ n ∈ context.nativeTrackers ∨ TracksByHand x.1 n) ∧
    (∀ n, n ∈ (start.observeInputs (pairs.map Prod.fst)).nativeTrackers ↔
      n ∈ (start.observeInputs (pairs.map Prod.snd)).nativeTrackers ∨
        ∃ x ∈ pairs, WovenFrom x.1 x.2 ∧ TracksByHand x.1 n) ∧
    ∀ c, (start.observeInputs (pairs.map Prod.snd)).tracksNatively m c =
        (start.observeInputs (pairs.map Prod.fst)).tracksNatively m c ↔
      (start.observeInputs (pairs.map Prod.snd)).tracksNatively m c = true ∨
        ∀ x ∈ pairs, WovenFrom x.1 x.2 → ∀ d ∈ m.lineage c, ¬TracksByHand x.1 d.name := by
  refine ⟨fun x _ hwoven context => ⟨observe_output hwoven, ?_⟩, mem_observeInputs_unwoven hpairs,
    fun c => tracksNatively_eq_unwoven_iff hpairs⟩
  obtain ⟨context', hobserve⟩ : ∃ context', context.observe x.1 = .ok context' :=
    exists_observe_input hwoven
  exact ⟨context', hobserve, fun n => mem_observe hobserve⟩

end Context

/-! ## A sample session

A class that tracks its changes by hand, and a subclass that leaves this to weaving. -/

namespace Sample

def tracker : MappedClass := { name := "R", changeTracking := true }

def trackedChild : MappedClass := { name := "S", superclass := some "R", changeTracking := true }

def trackers : Model := ⟨[tracker, trackedChild]⟩

/-- The class file of the class that tracks its changes by hand. -/
def trackerFile : ClassFile :=
  { bareFile tracker with
    pool := (bareFile tracker).pool.appendAll [text Names.changeTracker, .classRef 5]
    interfaces := [6] }

end Sample

/-- Once the class that tracks its changes by hand is woven, its subclass no longer is seen to have
such an ancestor. -/
theorem Context.observeInputs_woven_sample :
    ∃ bytes, WovenFrom Sample.trackerFile.toBytes bytes ∧
      (default.observeInputs [Sample.trackerFile.toBytes]).tracksNatively Sample.trackers
        Sample.trackedChild = true ∧
      (default.observeInputs [bytes]).tracksNatively Sample.trackers Sample.trackedChild = false := by
  have hextend : ∃ x, default.extend Sample.trackers Sample.trackerFile.toBytes = .ok (some x) ∧
      x.1.WithinLimits ∧ x.1.pool.count ≤ Pool.maxCount := by
    decide +kernel
  have hparse : ∃ c, ClassFile.parse Sample.trackerFile.toBytes = .ok c ∧
      ∃ existing, c.interfaceNames = .ok existing ∧ ∃ name, c.name = .ok name ∧
        name = Sample.tracker.name ∧ Names.woven ∉ existing ∧ Names.changeTracker ∈ existing := by
    decide +kernel
  obtain ⟨⟨d, report⟩, hextended, hd⟩ := hextend
  have hwoven : WovenFrom Sample.trackerFile.toBytes d.toBytes := by
    refine ⟨default, Sample.trackers, report, weave_eq_woven.2 ⟨d, hextended, rfl⟩, fun e he => ?_⟩
    rw [hextended] at he
    cases he
    exact hd
  obtain ⟨c, hc, existing, hexisting, name, hname, rfl, hboth⟩ := hparse
  have hhand : TracksByHand Sample.trackerFile.toBytes Sample.tracker.name :=
    ⟨c, existing, hc, hexisting, hname, hboth⟩
  have hpairs : ∀ x ∈ [(Sample.trackerFile.toBytes, d.toBytes)], x.2 = x.1 ∨ WovenFrom x.1 x.2 :=
    fun x hx => List.mem_singleton.1 hx ▸ .inr hwoven
  obtain ⟨heach, hknown, hiff⟩ := observeInputs_woven default Sample.trackers hpairs
  have hancestor : Sample.tracker ∈ Sample.trackers.lineage Sample.trackedChild := by decide
  refine ⟨d.toBytes, hwoven, ?_, ?_⟩
  · refine tracksNatively_eq_true.2 ⟨Sample.tracker, hancestor, ?_⟩
    exact (hknown _).2 (.inr ⟨_, List.mem_singleton_self _, hwoven, hhand⟩)
  · obtain ⟨hpassed, -⟩ := heach _ (List.mem_singleton_self _) hwoven default
    have hnothing : default.observeInputs [d.toBytes] = default := observeInput_of_ok hpassed
    rw [hnothing]
    decide

end EntityLoom
