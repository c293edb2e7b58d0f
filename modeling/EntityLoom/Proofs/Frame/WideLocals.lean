import EntityLoom.Proofs.Frame.Flow
import EntityLoom.Proofs.Frame.Termination
import Mathlib.Data.List.TakeWhile

/-!
# Wide values in the locals of an analysis

A long or double takes two slots, of which the second one holds `top`.  A stack map leaves the second
slots out and does not look at them, so it says what a frame says only if they are as they should
be.  In an analysis that begins with the entry frame of a method they always are, and the locals of
every frame can be had back from what is written of them (`Layout.analyze_wideLocals`).

* `Frame.expands_iff_paired`: the entries of a stack map give the locals back exactly if the second
  slot of every wide value is there and holds `top`.
* `Worklist.Visits` are the states in which an analysis records frames, also those in the middle of
  an item and those of an analysis that fails later.  What instructions, trimming and joins keep
  holds of all frames recorded there (`Worklist.Visits.frames`).
-/

namespace EntityLoom

namespace Frame

/-! ## The entries of a stack map -/

/-- The locals that entries stand for: the second slot of a wide value holds `top`. -/
def expand (entries : List VerificationType) : List VerificationType :=
  entries.flatMap valueSlots

theorem expand_cons (v : VerificationType) (entries : List VerificationType) :
    expand (v :: entries) = valueSlots v ++ expand entries := List.flatMap_cons

theorem expand_append (xs ys : List VerificationType) :
    expand (xs ++ ys) = expand xs ++ expand ys := List.flatMap_append

theorem expand_replicate_top (n : Nat) :
    expand (List.replicate n .top) = List.replicate n .top := by
  induction n with
  | zero => rfl
  | succ n ih =>
    rw [List.replicate_succ, expand_cons, ih]
    rfl

theorem Paired.tail {v : VerificationType} {locals : List VerificationType}
    (h : Paired (v :: locals)) : Paired locals := by
  intro i hi
  obtain ⟨hlength, htop⟩ := h (i + 1) hi
  rw [List.length_cons] at hlength
  exact ⟨by omega, htop⟩

/-- A wide value at the beginning is followed by `top`. -/
theorem Paired.exists_cons_top {v : VerificationType} {locals : List VerificationType}
    (h : Paired (v :: locals)) (hv : v.isWide = true) : ∃ rest, locals = .top :: rest := by
  obtain ⟨hlength, htop⟩ := h 0 hv
  cases locals with
  | nil => exact absurd hlength (by simp)
  | cons w rest =>
    obtain rfl : w = .top := htop
    exact ⟨rest, rfl⟩

theorem paired_expand (entries : List VerificationType) : Paired (expand entries) := by
  induction entries with
  | nil =>
    intro i hi
    exact absurd hi (by simp [expand, slotOf, VerificationType.isWide])
  | cons v entries ih =>
    rw [expand_cons]
    exact (paired_valueSlots v).append ih

/-- The values of paired locals expand to them. -/
theorem Paired.exists_values {locals : List VerificationType} (h : Paired locals)
    (acc : List VerificationType) :
    ∃ values, valuesReversed acc locals = values.reverse ++ acc ∧ expand values = locals := by
  fun_induction valuesReversed acc locals with
  | case1 acc => exact ⟨[], rfl, rfl⟩
  | case2 acc v rest ih =>
    have hrest : Paired (rest.drop (v.slots - 1)) ∧
        v :: rest = valueSlots v ++ rest.drop (v.slots - 1) := by
      unfold VerificationType.slots valueSlots
      by_cases hv : v.isWide = true
      · obtain ⟨rest', rfl⟩ := h.exists_cons_top hv
        rw [if_pos hv, if_pos hv]
        exact ⟨h.tail.tail, rfl⟩
      · rw [if_neg hv, if_neg hv]
        exact ⟨h.tail, rfl⟩
    obtain ⟨values, hvalues, hexpand⟩ := ih hrest.1
    refine ⟨v :: values, ?_, ?_⟩
    · rw [hvalues, List.reverse_cons, List.append_assoc]
      rfl
    · rw [expand_cons, hexpand]
      exact hrest.2.symm

/-- What a stack map says of the locals of a frame gives them back, up to `top`s at their end. -/
def Expands (f : Frame) : Prop :=
  ∃ n, f.locals = expand f.encodedLocals ++ List.replicate n .top

/-- The entries of a stack map give the locals back exactly if the second slot of every wide value is
there and holds `top`. -/
theorem expands_iff_paired {f : Frame} : f.Expands ↔ Paired f.locals := by
  constructor
  · rintro ⟨n, hn⟩
    rw [hn, ← expand_replicate_top]
    exact (paired_expand _).append (paired_expand _)
  · intro h
    obtain ⟨values, hvalues, hexpand⟩ := h.exists_values []
    rw [List.append_nil] at hvalues
    have hsplit := List.takeWhile_append_dropWhile (p := fun v => decide (v = VerificationType.top))
      (l := values.reverse)
    obtain ⟨n, htops⟩ : ∃ n, values.reverse.takeWhile (fun v => decide (v = VerificationType.top)) =
        List.replicate n .top :=
      ⟨_, List.eq_replicate_iff.2 ⟨rfl, fun v hv => by simpa using List.mem_takeWhile_imp hv⟩⟩
    have hends : values = f.encodedLocals ++ List.replicate n .top := by
      rw [encodedLocals, hvalues, ← List.reverse_replicate, ← htops, ← List.reverse_append, hsplit,
        List.reverse_reverse]
    refine ⟨n, ?_⟩
    calc f.locals
        = expand (f.encodedLocals ++ List.replicate n .top) := by rw [← hends, hexpand]
      _ = expand f.encodedLocals ++ expand (List.replicate n .top) := expand_append _ _
      _ = expand f.encodedLocals ++ List.replicate n .top := by rw [expand_replicate_top]

/-! ## What keeps wide values whole -/

theorem paired_padTo {locals : List VerificationType} (h : Paired locals) (n : Nat) :
    Paired (padTo n locals) := by
  rw [padTo, ← expand_replicate_top]
  exact h.append (paired_expand _)

theorem paired_join {index : Nat} {mine theirs joined : Frame}
    (h : mine.join index theirs = .ok joined) (hmine : Paired mine.locals) :
    Paired joined.locals := by
  rw [(join_eq_ok h).2.1]
  exact paired_trimLocals (paired_joinLocals hmine _)

theorem paired_executeAt {body : Layout} {i : Nat} {f f' : Frame} (hf : Paired f.locals)
    (h : body.executeAt f i = .ok f') : Paired f'.locals := by
  unfold Layout.executeAt at h
  split at h
  · exact paired_after hf h
  · cases h

end Frame

/-! ## The states of an analysis -/

namespace Worklist

variable {body : Layout} {w w' : Worklist}

/-- The states in which an analysis records frames: those between its items, and in the middle of an
item those between the arrivals of what its instruction made.  Whether the analysis fails later does
not matter. -/
inductive Visits (body : Layout) (w : Worklist) : Worklist → Prop
  | between {n : Nat} {w' : Worklist} (items : Items body w n w') : Visits body w w'
  | within {n index : Nat} {w₁ w' : Worklist} {rest arrived later : List Nat} {f f' : Frame}
    {ins : Instruction} (items : Items body w n w₁) (first : w₁.queue = index :: rest)
    (recorded : w₁.frameAt index = some f) (at_ : body.instructions[index]? = some ins)
    (after : f.after body.thisClass index (body.offsets.getD index 0) ins = .ok f')
    (targets : successors body index ins = .ok (arrived ++ later))
    (arrives : arrived.foldlM (arrive f') ({ w₁ with queue := rest }.raise f f') = .ok w') :
    Visits body w w'

/-- A property of frames that an analysis keeps, whatever arrives where. -/
structure Kept (body : Layout) (P : Frame → Prop) : Prop where
  executeAt : ∀ f i f', P f → body.executeAt f i = .ok f' → P f'
  trim : ∀ f, P f → P f.trim
  join : ∀ index mine theirs joined, P mine → P theirs → mine.join index theirs = .ok joined →
    P joined

/-- All recorded frames have a property. -/
def Records (P : Frame → Prop) (w : Worklist) : Prop :=
  ∀ i f, w.frameAt i = some f → P f

variable {P : Frame → Prop}

theorem Kept.foldlM_arrive (hkept : Kept body P) {f : Frame} (hf : P f) {targets : List Nat}
    (hw : w.Records P) (h : targets.foldlM (arrive f) w = .ok w') : w'.Records P := by
  refine foldlM_invariant (P := Records P) h hw fun i _ w₁ w₂ hw₁ h₁ j k hk => ?_
  rcases arrive_cases h₁ with rfl | ⟨hi, g, fresh, rfl, hg⟩
  · exact hw₁ j k hk
  · rw [frameAt_record] at hk
    split at hk
    · obtain rfl := Option.some.inj hk
      rcases hg with ⟨-, rfl⟩ | ⟨r, hr, hjoin, -⟩
      · exact hkept.trim f hf
      · exact hkept.join i r f g (hw₁ i r hr) hf hjoin
    · exact hw₁ j k hk

/-- Arrivals of what an instruction makes of a recorded frame. -/
theorem Kept.arrivals (hkept : Kept body P) (hw : w.Records P) {index : Nat} {rest targets : List Nat}
    {f f' : Frame} {ins : Instruction} (hf : w.frameAt index = some f)
    (hins : body.instructions[index]? = some ins)
    (hafter : f.after body.thisClass index (body.offsets.getD index 0) ins = .ok f')
    (h : targets.foldlM (arrive f') ({ w with queue := rest }.raise f f') = .ok w') :
    w'.Records P := by
  have hf' : P f' := hkept.executeAt f index f' (hw index f hf) (by
    rw [Layout.executeAt, hins]
    exact hafter)
  have hraised : ({ w with queue := rest }.raise f f').Records P := hw
  exact hkept.foldlM_arrive hf' hraised h

theorem Kept.items (hkept : Kept body P) (hw : w.Records P) {n : Nat} (h : Items body w n w') :
    w'.Records P := by
  induction h with
  | start => exact hw
  | item _ _ steps ih =>
    rcases step_eq_ok steps with ⟨f, ins, f', targets, hf, hins, hafter, -, harrive⟩ | ⟨-, rfl⟩
    · exact hkept.arrivals ih hf hins hafter harrive
    · exact ih
  | round _ ih => exact ih

/-- What an analysis keeps holds of all frames that it ever records. -/
theorem Visits.frames (h : Visits body w w') (hkept : Kept body P) (hw : w.Records P) :
    w'.Records P := by
  cases h with
  | between items => exact hkept.items hw items
  | within items _ recorded at_ after _ arrives =>
    exact hkept.arrivals (hkept.items hw items) recorded at_ after arrives

theorem kept_paired (body : Layout) : Kept body fun f => Frame.Paired f.locals where
  executeAt _ _ _ hf h := Frame.paired_executeAt hf h
  trim _ hf := Frame.paired_trimLocals hf
  join _ _ _ _ hmine _ h := Frame.paired_join h hmine

end Worklist

namespace Layout

open Worklist (Items Visits)

variable {body : Layout} {entry : Frame}

/-- A successful analysis answers the frames that are recorded after its last item. -/
theorem items_of_analyze {a : Analysis} (h : body.analyze entry = .ok a) :
    ∃ n w, Items body (.start body.instructions.size entry) n w ∧ ∀ i, a.frameAt i = w.frameAt i := by
  obtain ⟨w, -, hrun, -, -, -, hframes⟩ := analyze_eq_ok h
  obtain ⟨n, w', hitems, hhalts⟩ := (Items.start : Items body (.start body.instructions.size entry) 0 _).run
  rw [hrun] at hhalts
  cases hhalts with
  | done => exact ⟨n, w, hitems, fun i => by rw [Analysis.frameAt, hframes]; rfl⟩

/-- In an analysis that begins with the entry frame of a method, in every frame that is ever recorded
or made by an instruction, the second slot of each wide value is there and holds `top`, and the
entries of a stack map give the locals back.  This holds throughout, also where the analysis fails
later: stores at any slot, joins, padding and trimming keep it. -/
theorem analyze_wideLocals (body : Layout) (owner method : String) (isStatic : Bool)
    (d : MethodDescriptor) :
    (∀ w, Visits body (.start body.instructions.size (Frame.entry owner method isStatic d)) w →
      ∀ i f, w.frameAt i = some f → (Frame.Paired f.locals ∧ f.Expands) ∧
        ∀ f', body.executeAt f i = .ok f' → Frame.Paired f'.locals ∧ f'.Expands) ∧
    (∀ a, body.analyze (Frame.entry owner method isStatic d) = .ok a →
      ∀ i f, a.frameAt i = some f → Frame.Paired f.locals ∧ f.Expands) ∧
    ∀ locals, Frame.Paired locals →
      (∀ slot v, Frame.Paired (Frame.write slot v locals)) ∧
      (∀ others, Frame.Paired (Frame.joinLocals locals others)) ∧
      (∀ n, Frame.Paired (Frame.padTo n locals)) ∧ Frame.Paired (Frame.trimLocals locals) := by
  have hstart : (Worklist.start body.instructions.size
      (Frame.entry owner method isStatic d)).Records fun f => Frame.Paired f.locals := by
    intro i f hf
    obtain ⟨-, -, rfl⟩ := Worklist.frameAt_start.1 hf
    exact Frame.paired_entry owner method isStatic d
  have hrecords : ∀ w, Visits body
      (.start body.instructions.size (Frame.entry owner method isStatic d)) w →
      w.Records fun f => Frame.Paired f.locals :=
    fun w hw => hw.frames (Worklist.kept_paired body) hstart
  have hwhole : ∀ f : Frame, Frame.Paired f.locals → Frame.Paired f.locals ∧ f.Expands :=
    fun f hf => ⟨hf, Frame.expands_iff_paired.2 hf⟩
  refine ⟨fun w hw i f hf => ?_, fun a ha i f hf => ?_, fun locals h => ?_⟩
  · have hpaired := hrecords w hw i f hf
    exact ⟨hwhole f hpaired, fun f' hf' => hwhole f' (Frame.paired_executeAt hpaired hf')⟩
  · obtain ⟨n, w, hitems, hat⟩ := items_of_analyze ha
    exact hwhole f (hrecords w (.between hitems) i f ((hat i).symm.trans hf))
  · exact ⟨Frame.paired_write h, Frame.paired_joinLocals h, Frame.paired_padTo h,
      Frame.paired_trimLocals h⟩

/-- A body that stores a long over the second slot of one long and the first slot of another. -/
def overlappingBody : Layout :=
  { thisClass := "a/B"
    instructions := #[.var .lload 0, .var .lstore 1, .simple .returnVoid]
    offsets := #[0, 1, 2]
    target? := fun _ => none }

/-- The store leaves one long, which a stack map gives back with its second slot. -/
theorem analyze_wideLocals_overlapping :
    ∃ a f, overlappingBody.analyze (Frame.entry "a/B" "run" true ⟨[.long, .long], .void⟩) = .ok a ∧
      a.frameAt 2 = some f ∧ f.locals = [.top, .long, .top] ∧ f.encodedLocals = [.top, .long] ∧
      f.Expands := by
  have hok : (overlappingBody.analyze
      (Frame.entry "a/B" "run" true ⟨[.long, .long], .void⟩)).toOption.any fun a =>
        a.frameAt 2 = some ⟨[.top, .long, .top], []⟩ := by
    decide +kernel
  cases h : overlappingBody.analyze (Frame.entry "a/B" "run" true ⟨[.long, .long], .void⟩) with
  | error e => simp [h, Except.toOption] at hok
  | ok a =>
    have hat : a.frameAt 2 = some ⟨[.top, .long, .top], []⟩ := by
      simpa [h, Except.toOption] using hok
    obtain ⟨-, hframes, -⟩ := analyze_wideLocals overlappingBody "a/B" "run" true ⟨[.long, .long], .void⟩
    exact ⟨a, _, rfl, hat, rfl, by decide +kernel, (hframes a h 2 _ hat).2⟩

end Layout

end EntityLoom
