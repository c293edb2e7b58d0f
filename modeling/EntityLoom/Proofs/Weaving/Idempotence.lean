import EntityLoom.Proofs.Weaving.Conservative
import EntityLoom.Proofs.Weaving.Observation

/-!
# Weaving twice

The output of weaving is woven already, whatever context the second run has, and is left as it is
(`Context.weave_idempotent`).  What the second run sees is read back from data: the name under which
the model has the class is the one of before (`Plan.Carried.name`), and the marker is among the
interfaces (`Plan.Carried.interfaceNames`).
-/

namespace EntityLoom

/-! ## Woven data read back -/

/-- A woven class has the name of the class before. -/
theorem Plan.Carried.name {p : Plan} {existing : List String} {c d : ClassFile}
    {report : WeaveReport} {parts : Plan.Parts} (h : Carried p existing c d report parts)
    {name : String} (hname : c.name = .ok name) : d.name = .ok name := by
  have hthis : d.thisClass = c.thisClass := by rw [h.file]
  unfold ClassFile.name at hname ⊢
  rw [hthis]
  exact h.pool.classNameAt hname

namespace Context

variable {context : Context} {m : Model} {data : Bytes} {outcome : WeaveOutcome}

/-- Data that the model has a mapping for and that carries the marker. -/
def Marked (m : Model) (data : Bytes) : Prop :=
  ∃ c mapped existing, ClassFile.parse data = .ok c ∧ c.name = .ok mapped.name ∧
    m.get? mapped.name = some mapped ∧ c.interfaceNames = .ok existing ∧ Names.woven ∈ existing

/-- Whether data counts as woven already depends on the model, but not on the context. -/
theorem weave_eq_alreadyWoven : context.weave m data = .ok .alreadyWoven ↔ Marked m data := by
  unfold weave extend
  rw [map_eq_ok]
  constructor
  · rintro ⟨o, ho, hnone⟩
    obtain rfl : o = none := by
      cases o with
      | none => rfl
      | some x => cases hnone
    obtain ⟨c, hc, ho⟩ := bind_eq_ok.1 ho
    obtain ⟨name, hname, ho⟩ := bind_eq_ok.1 ho
    split at ho
    · cases ho
    · next mapped hmapped =>
      obtain ⟨-, rfl⟩ := Model.mem_of_get? hmapped
      unfold extendFile at ho
      obtain ⟨existing, hexisting, ho⟩ := bind_eq_ok.1 ho
      split at ho
      · next hwoven =>
        exact ⟨c, mapped, existing, WeaveError.ofFormat_eq_ok.1 hc, WeaveError.ofFormat_eq_ok.1 hname,
          hmapped, WeaveError.ofFormat_eq_ok.1 hexisting, hwoven⟩
      · obtain ⟨_, -, ho⟩ := bind_eq_ok.1 ho
        obtain ⟨_, -, ho⟩ := bind_eq_ok.1 ho
        obtain ⟨_, -, hsome⟩ := map_eq_ok.1 ho
        cases hsome
  · rintro ⟨c, mapped, existing, hc, hname, hmapped, hexisting, hwoven⟩
    refine ⟨none, ?_, rfl⟩
    refine bind_eq_ok.2 ⟨c, WeaveError.ofFormat_eq_ok.2 hc, ?_⟩
    refine bind_eq_ok.2 ⟨mapped.name, WeaveError.ofFormat_eq_ok.2 hname, ?_⟩
    rw [hmapped]
    refine bind_eq_ok.2 ⟨existing, WeaveError.ofFormat_eq_ok.2 hexisting, ?_⟩
    rw [if_pos hwoven]
    rfl

/-- What weaving makes of a class carries the marker when it is read back. -/
theorem marked_of_extend {c d : ClassFile} {report : WeaveReport}
    (hparse : ClassFile.parse data = .ok c) (hdata : c.toBytes = data)
    (hextend : context.extend m data = .ok (some (d, report))) (hlimits : d.WithinLimits) :
    Marked m d.toBytes := by
  obtain ⟨c', mapped, existing, p, hplanned, hp⟩ := extend_eq_ok hextend
  obtain rfl := Except.ok.inj (hparse.symm.trans hplanned.parsed)
  obtain ⟨parts, hcarried⟩ := hplanned.carried hp
  have hfits := ClassFile.fits_of_parse hparse hdata
  have hread := ClassFile.parse_toBytes (hcarried.fits hfits hlimits)
  have hmarker := Header.woven_mem_addedInterfaces (p := p) hplanned.unwoven
  exact ⟨d, mapped, _, hread, hcarried.name hplanned.named, hplanned.found,
    hcarried.interfaceNames hplanned.interfaces, List.mem_append_right _ hmarker⟩

/-- Weaving the output of weaving, under the same model and in any context, finds it woven already
and leaves it as it is.  A class that was woven before is its own output. -/
theorem weave_idempotent {c : ClassFile} (hparse : ClassFile.parse data = .ok c)
    (hdata : c.toBytes = data) (h : context.weave m data = .ok outcome)
    (hlimits : ∀ d report, context.extend m data = .ok (some (d, report)) → d.WithinLimits)
    (context' : Context) :
    (∃ outcome', context'.weave m (outcome.output data) = .ok outcome' ∧ outcome' = .alreadyWoven ∧
      outcome'.output (outcome.output data) = outcome.output data) ∧
    (outcome = .alreadyWoven → outcome.output data = data) := by
  have hmarked : Marked m (outcome.output data) := by
    cases outcome with
    | alreadyWoven => exact weave_eq_alreadyWoven.1 h
    | woven bytes report =>
      obtain ⟨d, hextend, rfl⟩ := weave_eq_woven.1 h
      exact marked_of_extend hparse hdata hextend (hlimits d report hextend)
  refine ⟨⟨.alreadyWoven, weave_eq_alreadyWoven.2 hmarked, rfl, rfl⟩, ?_⟩
  rintro rfl
  rfl

/-- The sample class is woven once. -/
theorem weave_idempotent_sample :
    ∃ bytes report, default.weave (Sample.model "A") Sample.data = .ok (.woven bytes report) ∧
      (new Release.oldest false).weave (Sample.model "A") bytes = .ok .alreadyWoven := by
  obtain ⟨c, hc, hdata⟩ := Sample.data_written
  obtain ⟨⟨d, report⟩, hextend, hlimits, -⟩ := Sample.data_extended
  have hwoven := weave_eq_woven.2 ⟨d, hextend, rfl⟩
  obtain ⟨⟨outcome, houtcome, rfl, -⟩, -⟩ := weave_idempotent hc hdata hwoven (fun e report' he => by
    rw [hextend] at he
    cases he
    exact hlimits) (new Release.oldest false)
  exact ⟨d.toBytes, report, hwoven, houtcome⟩

end Context

end EntityLoom
