import EntityLoom.Proofs.Frame.Least
import EntityLoom.Proofs.Frame.Size

/-!
# The analysis ends

An analysis takes one waiting instruction after the other off its queue.  It comes to an end for
every body, label table and entry frame, after no more items than `Layout.itemLimit` says, and an
instruction waits again only after its recorded frame rose (`Layout.analyze_terminates`).

Two facts carry this.

* A join that changes a frame lets it rise (`Frame.rises_join`).  The order is that of the padded
  locals and the stack, and where they say the same, that of the shape of the locals: an entry frame
  need not be trimmed, and locals can end in a wide value without its second slot.  It is a strict
  order, and no frame rises more often than its height says (`Frame.Rises.height_lt`).
* A waiting instruction and a unit of height count alike in `Worklist.potential`.  An arrival that
  lets an instruction wait takes at least as much off the heights, so an item makes the potential
  smaller (`Worklist.step_potential_le`).  An instruction without a frame counts for the largest
  frame that can be recorded there, and that frames do not grow beyond it is the invariant
  `Worklist.Bounded`.
-/

namespace EntityLoom

/-! ## The order in which recorded frames rise -/

namespace VerificationType

/-- Above a type there is less left to rise. -/
theorem height_lt_of_below {a b : VerificationType} (h : a.Below b) (hne : a ≠ b) :
    b.height < a.height := by
  have hmerge : a.merge b = b := (merge_comm a b).trans h
  have hlt : (a.merge b).height < a.height := height_merge_lt fun e => hne (e.symm.trans hmerge)
  rwa [hmerge] at hlt

theorem height_le (a : VerificationType) : a.height ≤ 3 := by
  cases a <;> simp only [height] <;> (try split) <;> omega

end VerificationType

namespace Frame

variable {f g k : Frame}

/-- One frame rises to another: it is below it, and the other says less of a value.  Where it says
the same of all, its locals are in better shape. -/
structure Rises (f g : Frame) : Prop where
  below : f.Below g
  strict : ¬g.Below f ∨ shapeHeight g.locals < shapeHeight f.locals

theorem Rises.trans (h : f.Rises g) (h' : g.Rises k) : f.Rises k := by
  refine ⟨h.below.trans h'.below, ?_⟩
  rcases h.strict with hstrict | hshape
  · exact .inl fun hkf => hstrict (h'.below.trans hkf)
  · rcases h'.strict with hstrict' | hshape'
    · exact .inl fun hkf => hstrict' (hkf.trans h.below)
    · exact .inr (Nat.lt_trans hshape' hshape)

theorem entriesHeight_of_forall₂ {xs ys : List VerificationType}
    (h : List.Forall₂ VerificationType.Below xs ys) :
    entriesHeight ys < entriesHeight xs ∨ ys = xs := by
  induction h with
  | nil => exact .inr rfl
  | @cons x y xs ys hxy _ ih =>
    have hcons : ∀ v vs, entriesHeight (v :: vs) = v.height + entriesHeight vs := fun _ _ => rfl
    rw [hcons, hcons]
    by_cases hne : x = y
    · subst hne
      rcases ih with hlt | rfl
      · exact .inl (by omega)
      · exact .inr rfl
    · have hlt := VerificationType.height_lt_of_below hxy hne
      rcases ih with hlt' | rfl
      · exact .inl (by omega)
      · exact .inl (by omega)

/-- Locals of one length that agree in every slot are the same. -/
theorem eq_of_slotOf {xs ys : List VerificationType} (hlength : xs.length = ys.length)
    (h : ∀ i, slotOf xs i = slotOf ys i) : xs = ys := by
  refine List.ext_getElem hlength fun i hx hy => ?_
  rw [getElem_eq_slotOf, getElem_eq_slotOf, h]

/-- Locals that are below others have more left to rise, unless they agree in every slot. -/
theorem entriesHeight_of_slotOf {xs ys : List VerificationType}
    (h : ∀ i, (slotOf xs i).Below (slotOf ys i)) :
    entriesHeight ys < entriesHeight xs ∨
      entriesHeight ys = entriesHeight xs ∧ ∀ i, slotOf ys i = slotOf xs i := by
  have hlength : (padTo ys.length xs).length = (padTo xs.length ys).length := by
    rw [length_padTo, length_padTo, Nat.max_comm]
  have hpadded : List.Forall₂ VerificationType.Below (padTo ys.length xs) (padTo xs.length ys) := by
    refine List.forall₂_iff_get.2 ⟨hlength, fun i hx hy => ?_⟩
    rw [List.get_eq_getElem, List.get_eq_getElem, getElem_eq_slotOf, getElem_eq_slotOf,
      slotOf_padTo, slotOf_padTo]
    exact h i
  have hcases := entriesHeight_of_forall₂ hpadded
  rw [entriesHeight_padTo, entriesHeight_padTo] at hcases
  refine hcases.imp_right fun heq => ?_
  have hheight := congrArg entriesHeight heq
  rw [entriesHeight_padTo, entriesHeight_padTo] at hheight
  refine ⟨hheight, fun i => ?_⟩
  rw [← slotOf_padTo xs.length ys, heq, slotOf_padTo]

/-- Rising takes height off a frame, so a frame rises no more often than its height says. -/
theorem Rises.height_lt (h : f.Rises g) : g.height < f.height := by
  have hshape := shapeHeight_le g.locals
  unfold height
  rcases entriesHeight_of_forall₂ h.below.stack with hstack | hstack
  · rcases entriesHeight_of_slotOf h.below.locals with hlocals | ⟨hlocals, -⟩ <;> omega
  · rw [hstack]
    rcases entriesHeight_of_slotOf h.below.locals with hlocals | ⟨hlocals, hslots⟩
    · omega
    · rcases h.strict with hstrict | hlt
      · refine absurd ⟨?_, fun i => ?_⟩ hstrict
        · rw [hstack]
          exact (Below.refl f).stack
        · rw [hslots]
          exact VerificationType.below_refl _
      · omega

/-- A join that changes a frame lets it rise. -/
theorem rises_join {index : Nat} {mine theirs joined : Frame}
    (h : mine.join index theirs = .ok joined) (hne : joined ≠ mine) : mine.Rises joined := by
  have hbelow := below_join_left h
  refine ⟨hbelow, ?_⟩
  by_cases hback : joined.Below mine
  · -- Both say the same, so the join padded the locals and trimmed them again.
    obtain ⟨-, hlocals, -⟩ := join_eq_ok h
    have hstack : joined.stack = mine.stack := forall₂_below_antisymm hback.stack hbelow.stack
    have hpadded : joinLocals mine.locals theirs.locals =
        padTo (max mine.locals.length theirs.locals.length) mine.locals := by
      refine eq_of_slotOf ?_ fun i => ?_
      · rw [length_joinLocals, length_padTo]
        omega
      · rw [slotOf_padTo, ← slotOf_trimLocals, ← hlocals]
        exact (hback.locals i).antisymm (hbelow.locals i)
    rw [hpadded] at hlocals
    have htrimmed : trimLocals (padTo (max mine.locals.length theirs.locals.length) mine.locals) ≠
        mine.locals := by
      intro e
      rw [e] at hlocals
      obtain ⟨locals, stack⟩ := joined
      exact hne (congr (congrArg Frame.mk hlocals) hstack)
    rw [hlocals]
    exact .inr (shapeHeight_trimLocals_padTo_lt htrimmed)
  · exact .inl hback

theorem entriesHeight_le (vs : List VerificationType) : entriesHeight vs ≤ 3 * vs.length := by
  induction vs with
  | nil => exact Nat.le_refl 0
  | cons v vs ih =>
    have hcons : entriesHeight (v :: vs) = v.height + entriesHeight vs := rfl
    have := v.height_le
    rw [hcons, List.length_cons]
    omega

/-- The height of a frame is bounded by its length. -/
theorem height_le (f : Frame) : f.height ≤ 9 * (f.locals.length + f.stack.length) + 2 := by
  have hlocals := entriesHeight_le f.locals
  have hstack := entriesHeight_le f.stack
  have hshape := shapeHeight_le f.locals
  unfold height
  omega

end Frame

namespace Worklist

variable {body : Layout} {entry f g : Frame} {w w' w₁ w₂ : Worklist} {i ceiling : Nat}

/-! ## Arrivals -/

/-- The state in which a frame is recorded for an instruction that then waits. -/
def record (w : Worklist) (i : Nat) (hi : i < w.frames.size) (g : Frame) (fresh : Bool) : Worklist :=
  { w with frames := w.frames.set i (some g), queue := enqueue w.queue i, fresh }

theorem frameAt_eq_getElem (hi : i < w.frames.size) : w.frameAt i = w.frames[i] := by
  rw [frameAt, Array.getElem?_eq_getElem hi]
  rfl

/-- An arrival changes nothing, or it records a first frame or one that the recorded frame rises
to. -/
theorem arrive_cases (h : w.arrive f i = .ok w') :
    w' = w ∨ ∃ (hi : i < w.frames.size) (g : Frame) (fresh : Bool), w' = w.record i hi g fresh ∧
      (w.frameAt i = none ∧ g = f.trim ∨
        ∃ r, w.frameAt i = some r ∧ r.join i f = .ok g ∧ r.Rises g) := by
  unfold arrive at h
  split at h
  case isFalse => simp at h
  case isTrue hi =>
    split at h
    · next hnone =>
      obtain rfl := Except.ok.inj h
      exact .inr ⟨hi, f.trim, true, rfl, .inl ⟨(frameAt_eq_getElem hi).trans hnone, rfl⟩⟩
    · next r hsome =>
      obtain ⟨joined, hjoin, h⟩ := bind_eq_ok.1 h
      split at h
      · exact .inl (Except.ok.inj h).symm
      · next hne =>
        obtain rfl := Except.ok.inj h
        exact .inr ⟨hi, joined, w.fresh, rfl,
          .inr ⟨r, (frameAt_eq_getElem hi).trans hsome, hjoin, Frame.rises_join hjoin hne⟩⟩

theorem frameAt_record {hi : i < w.frames.size} {fresh : Bool} (j : Nat) :
    (w.record i hi g fresh).frameAt j = if j = i then some g else w.frameAt j := by
  unfold record frameAt
  by_cases hj : j = i
  · rw [if_pos hj, hj, Array.getElem?_set_self]
    rfl
  · rw [if_neg hj, Array.getElem?_set_ne hi (Ne.symm hj)]

/-- Recording a first frame leaves one instruction less without a frame. -/
theorem unreached_record {hi : i < w.frames.size} {fresh : Bool} :
    (w.record i hi g fresh).unreached + (w.frameAt i).isNone.toNat = w.unreached := by
  have hi' : i < w.frames.toList.length := by simpa using hi
  have hset := total_set (fun x : Option Frame => x.isNone.toNat) hi' (some g)
  rw [frameAt_eq_getElem hi]
  simpa [unreached, record, Array.toList_set, countP_eq_total] using hset

/-! ## What is left to do -/

/-- How often the frame of an instruction can still change. -/
def pending (ceiling : Nat) (x : Option Frame) : Nat :=
  x.elim (ceiling + 1) Frame.height

/-- How many items can still come: the instructions that wait, and as many as frames can change. -/
def potential (ceiling : Nat) (w : Worklist) : Nat :=
  w.queue.length + total (pending ceiling) w.frames.toList

/-- An arrival lets an instruction wait only where a frame has less left to rise. -/
theorem arrive_potential_le (h : w.arrive f i = .ok w') (hf : f.trim.height ≤ ceiling) :
    w'.potential ceiling ≤ w.potential ceiling := by
  rcases arrive_cases h with rfl | ⟨hi, g, fresh, rfl, hg⟩
  · exact Nat.le_refl _
  · have hqueue := length_enqueue_le w.queue i
    have hi' : i < w.frames.toList.length := by simpa using hi
    have hset := total_set (pending ceiling) hi' (some g)
    have hless : g.height < pending ceiling w.frames[i] := by
      rw [← frameAt_eq_getElem hi]
      rcases hg with ⟨hnone, rfl⟩ | ⟨r, hr, -, hrises⟩
      · rw [hnone]
        exact Nat.lt_succ_of_le hf
      · rw [hr]
        exact hrises.height_lt
    have hsome : pending ceiling (some g) = g.height := rfl
    rw [Array.getElem_toList, hsome] at hset
    show (enqueue w.queue i).length + total (pending ceiling) (w.frames.set i (some g)).toList ≤
      w.queue.length + total (pending ceiling) w.frames.toList
    rw [Array.toList_set]
    omega

theorem foldlM_arrive_potential_le {targets : List Nat}
    (h : targets.foldlM (arrive f) w = .ok w') (hf : f.trim.height ≤ ceiling) :
    w'.potential ceiling ≤ w.potential ceiling :=
  foldlM_invariant (P := fun w₁ => w₁.potential ceiling ≤ w.potential ceiling) h (Nat.le_refl _)
    fun _ _ _ _ hle h₁ => (arrive_potential_le h₁ hf).trans hle

/-! ## How large frames become -/

/-- No frame of an analysis has more locals: beyond those of the entry frame, a store to the last
slot of a wide value needs the most. -/
def localsCeiling (entry : Frame) : Nat :=
  max entry.locals.length (0xFFFF + 2)

/-- No frame of an analysis has a higher stack before its instruction is executed: each instruction
that is reached can add one value. -/
def stackCeiling (body : Layout) (entry : Frame) : Nat :=
  entry.stack.length + body.instructions.size

/-- No frame of an analysis is higher. -/
def heightCeiling (body : Layout) (entry : Frame) : Nat :=
  9 * (localsCeiling entry + stackCeiling body entry + 1) + 2

/-- The recorded frames are within their bounds, with room on the stack for the instructions that
control has not reached yet. -/
structure Bounded (body : Layout) (entry : Frame) (w : Worklist) : Prop where
  locals : ∀ i g, w.frameAt i = some g → g.locals.length ≤ localsCeiling entry
  stack : ∀ i g, w.frameAt i = some g → g.stack.length + w.unreached ≤ stackCeiling body entry

theorem Bounded.congr (hw : Bounded body entry w) (h : w'.frames = w.frames) :
    Bounded body entry w' := by
  have hat : ∀ j, w'.frameAt j = w.frameAt j := fun j => by rw [frameAt, h, frameAt]
  have hunreached : w'.unreached = w.unreached := by rw [unreached, h, unreached]
  refine ⟨fun i g hg => hw.locals i g ((hat i).symm.trans hg), fun i g hg => ?_⟩
  rw [hunreached]
  exact hw.stack i g ((hat i).symm.trans hg)

/-- The arrival of a frame that came out of an instruction keeps the bounds. -/
theorem Bounded.arrive (hw : Bounded body entry w) (h : w.arrive f i = .ok w')
    (hlocals : f.locals.length ≤ localsCeiling entry)
    (hstack : f.stack.length + w.unreached ≤ stackCeiling body entry + 1) :
    Bounded body entry w' ∧ w'.unreached ≤ w.unreached := by
  rcases arrive_cases h with rfl | ⟨hi, g, fresh, rfl, hg⟩
  · exact ⟨hw, Nat.le_refl _⟩
  · have hunreached : (w.record i hi g fresh).unreached + (w.frameAt i).isNone.toNat = w.unreached :=
      unreached_record
    have hbounds : g.locals.length ≤ localsCeiling entry ∧
        g.stack.length + (w.record i hi g fresh).unreached ≤ stackCeiling body entry := by
      rcases hg with ⟨hnone, rfl⟩ | ⟨r, hr, hjoin, -⟩
      · rw [hnone, Option.isNone_none, Bool.toNat_true] at hunreached
        refine ⟨(Frame.length_trimLocals_le f.locals).trans hlocals, ?_⟩
        show f.stack.length + _ ≤ _
        omega
      · obtain ⟨hlength, hjoined, hzip⟩ := Frame.join_eq_ok hjoin
        have hr₁ := hw.locals i r hr
        have hr₂ := hw.stack i r hr
        constructor
        · rw [hjoined]
          refine (Frame.length_trimLocals_le _).trans ?_
          rw [Frame.length_joinLocals]
          exact Nat.max_le.2 ⟨hr₁, hlocals⟩
        · rw [hzip, List.length_zipWith, ← hlength, Nat.min_self]
          omega
    refine ⟨⟨fun j k hk => ?_, fun j k hk => ?_⟩, by omega⟩
    · rw [frameAt_record] at hk
      split at hk
      · obtain rfl := Option.some.inj hk
        exact hbounds.1
      · exact hw.locals j k hk
    · rw [frameAt_record] at hk
      split at hk
      · obtain rfl := Option.some.inj hk
        exact hbounds.2
      · have := hw.stack j k hk
        omega

theorem Bounded.foldlM_arrive {targets : List Nat} (hw : Bounded body entry w)
    (h : targets.foldlM (Worklist.arrive f) w = .ok w')
    (hlocals : f.locals.length ≤ localsCeiling entry)
    (hstack : f.stack.length + w.unreached ≤ stackCeiling body entry + 1) :
    Bounded body entry w' := by
  suffices hboth : Bounded body entry w' ∧
      f.stack.length + w'.unreached ≤ stackCeiling body entry + 1 from hboth.1
  refine foldlM_invariant (P := fun w => Bounded body entry w ∧
    f.stack.length + w.unreached ≤ stackCeiling body entry + 1) h ⟨hw, hstack⟩
    fun i _ w₁ w₂ hw₁ h₁ => ?_
  obtain ⟨hw₂, hle⟩ := hw₁.1.arrive h₁ hlocals hw₁.2
  exact ⟨hw₂, by omega⟩

theorem start_bounded : Bounded body entry (start body.instructions.size entry) := by
  refine ⟨fun i g hg => ?_, fun i g hg => ?_⟩
  · obtain ⟨-, -, rfl⟩ := frameAt_start.1 hg
    exact Nat.le_max_left _ _
  · obtain ⟨-, -, rfl⟩ := frameAt_start.1 hg
    have hle : (start body.instructions.size g).unreached ≤
        (start body.instructions.size g).frames.toList.length := List.countP_le_length
    have hsize : (start body.instructions.size g).frames.toList.length = body.instructions.size := by
      simp [start]
    unfold stackCeiling
    omega

/-! ## Items -/

/-- What an instruction makes of a recorded frame is within the bounds too. -/
theorem Bounded.after {thisClass : String} {index offset : Nat} {ins : Instruction}
    (hw : Bounded body entry w) (hf : w.frameAt i = some f)
    (h : f.after thisClass index offset ins = .ok g) :
    g.locals.length ≤ localsCeiling entry ∧
      g.stack.length + w.unreached ≤ stackCeiling body entry + 1 := by
  constructor
  · refine length_locals_after h (hw.locals i f hf) (Nat.le_trans ?_ (Nat.le_max_right _ _))
    cases ins with
    | var op slot =>
      have := slot.toNat_lt
      simp only [slotsNeeded]
      omega
    | _ => exact Nat.zero_le _
  · have hheight := (Frame.after_effect h).height
    have hgrowth : Frame.growth ins ≤ 1 := by
      cases ins <;> simp [Frame.growth]
    have := hw.stack i f hf
    omega

/-- An item keeps the bounds and leaves fewer items to come. -/
theorem Bounded.step {index : Nat} {rest : List Nat} (hw : Bounded body entry w)
    (hq : w.queue = index :: rest) (h : { w with queue := rest }.step body index = .ok w') :
    Bounded body entry w' ∧
      w'.potential (heightCeiling body entry) + 1 ≤ w.potential (heightCeiling body entry) := by
  have hshorter : ∀ v : Worklist, v.frames = w.frames → v.queue = rest →
      v.potential (heightCeiling body entry) + 1 = w.potential (heightCeiling body entry) := by
    intro v hframes hqueue
    rw [potential, potential, hframes, hqueue, hq, List.length_cons]
    omega
  rcases step_eq_ok h with ⟨f, ins, f', targets, hf, -, hafter, -, harrive⟩ | ⟨-, rfl⟩
  · obtain ⟨hlocals, hstack⟩ := hw.after hf hafter
    have hraised := hshorter ({ w with queue := rest }.raise f f') rfl rfl
    have hceiling : f'.trim.height ≤ heightCeiling body entry := by
      have hheight := f'.trim.height_le
      have htrim := Frame.length_trimLocals_le f'.locals
      have htrimmed : f'.trim.locals = Frame.trimLocals f'.locals := rfl
      have hsame : f'.trim.stack = f'.stack := rfl
      rw [htrimmed, hsame] at hheight
      unfold heightCeiling
      omega
    have hle := foldlM_arrive_potential_le harrive hceiling
    refine ⟨Bounded.foldlM_arrive ?_ harrive hlocals hstack, by omega⟩
    exact hw.congr rfl
  · exact ⟨hw.congr rfl, Nat.le_of_eq (hshorter _ rfl rfl)⟩

/-- The first items of an analysis, and the state that they lead to.  The instruction that has waited
longest is taken off the queue and executed.  The mark of a round can be taken back at any time,
since no step looks at it. -/
inductive Items (body : Layout) (w : Worklist) : Nat → Worklist → Prop
  | start : Items body w 0 w
  | item {n : Nat} {w₁ w₂ : Worklist} {index : Nat} {rest : List Nat} (items : Items body w n w₁)
    (first : w₁.queue = index :: rest)
    (steps : { w₁ with queue := rest }.step body index = .ok w₂) : Items body w (n + 1) w₂
  | round {n : Nat} {w₁ : Worklist} (items : Items body w n w₁) :
    Items body w n { w₁ with fresh := false }

/-- How a state ends an analysis: nothing waits, or the next item fails. -/
inductive Halts (body : Layout) : Worklist → Except EmissionError Worklist → Prop
  | done {w : Worklist} (idle : w.queue = []) : Halts body w (.ok w)
  | fail {w : Worklist} {index : Nat} {rest : List Nat} {e : EmissionError}
    (first : w.queue = index :: rest)
    (fails : { w with queue := rest }.step body index = .error e) : Halts body w (.error e)

/-- Each item leaves fewer to come. -/
theorem Bounded.items {n : Nat} (hw : Bounded body entry w) (h : Items body w n w') :
    Bounded body entry w' ∧
      n + w'.potential (heightCeiling body entry) ≤ w.potential (heightCeiling body entry) := by
  induction h with
  | start => exact ⟨hw, by omega⟩
  | item items first steps ih =>
    obtain ⟨hw₁, hle⟩ := ih
    obtain ⟨hw₂, hless⟩ := hw₁.step first steps
    exact ⟨hw₂, by omega⟩
  | round items ih => exact ⟨ih.1.congr rfl, ih.2⟩

/-! ## What waits again -/

/-- A frame is recorded for the first time, or the recorded one rises. -/
def Climbs : Option Frame → Option Frame → Prop
  | none, some _ => True
  | some f, some g => f.Rises g
  | _, none => False

theorem Climbs.trans {x y z : Option Frame} (h : Climbs x y) (h' : Climbs y z) : Climbs x z := by
  cases y with
  | none => exact absurd h (by cases x <;> exact id)
  | some g =>
    cases z with
    | none => exact absurd h' id
    | some k =>
      cases x with
      | none => trivial
      | some f => exact Frame.Rises.trans h h'

/-- Frames climb or stay, and an instruction whose frame stays waits only if it did before. -/
def Moves (w w' : Worklist) : Prop :=
  ∀ j, Climbs (w.frameAt j) (w'.frameAt j) ∨
    w'.frameAt j = w.frameAt j ∧ (j ∈ w'.queue → j ∈ w.queue)

theorem Moves.refl (w : Worklist) : Moves w w :=
  fun _ => .inr ⟨rfl, id⟩

theorem Moves.trans (h : Moves w w₁) (h' : Moves w₁ w₂) : Moves w w₂ := by
  intro j
  rcases h j with hclimbs | ⟨hsame, hwaits⟩ <;> rcases h' j with hclimbs' | ⟨hsame', hwaits'⟩
  · exact .inl (hclimbs.trans hclimbs')
  · exact .inl (hsame' ▸ hclimbs)
  · exact .inl (hsame ▸ hclimbs')
  · exact .inr ⟨hsame'.trans hsame, fun hj => hwaits (hwaits' hj)⟩

theorem moves_of_arrive (h : w.arrive f i = .ok w') : Moves w w' := by
  rcases arrive_cases h with rfl | ⟨hi, g, fresh, rfl, hg⟩
  · exact .refl _
  · intro j
    rw [frameAt_record]
    by_cases hj : j = i
    · rw [if_pos hj, hj]
      rcases hg with ⟨hnone, -⟩ | ⟨r, hr, -, hrises⟩
      · rw [hnone]
        exact .inl trivial
      · rw [hr]
        exact .inl hrises
    · rw [if_neg hj]
      refine .inr ⟨rfl, fun hmem => ?_⟩
      have hqueue : j ∈ enqueue w.queue i := hmem
      unfold enqueue at hqueue
      split at hqueue
      · exact hqueue
      · simpa [hj] using hqueue

theorem moves_of_foldlM_arrive {targets : List Nat}
    (h : targets.foldlM (arrive f) w = .ok w') : Moves w w' :=
  foldlM_invariant (P := Moves w) h (.refl _) fun _ _ _ _ hmoves h₁ =>
    hmoves.trans (moves_of_arrive h₁)

theorem moves_of_step {index : Nat} (h : w.step body index = .ok w') : Moves w w' := by
  rcases step_eq_ok h with ⟨f, ins, f', targets, -, -, -, -, harrive⟩ | ⟨-, rfl⟩
  · have hmoves := moves_of_foldlM_arrive harrive
    exact fun j => hmoves j
  · exact .refl _

/-! ## A run is its items -/

theorem Items.round_of_ok {n : Nat} (hi : Items body w n w₁) (h : w₁.round body = .ok w') :
    ∃ n', Items body w n' w' := by
  fun_induction Worklist.round body w₁ generalizing n with
  | case1 w₁ hq =>
    obtain rfl : w₁ = w' := by simpa using h
    exact ⟨n, hi⟩
  | case2 => cases h
  | case3 w₁ index rest hq w₂ h₂ hf =>
    obtain rfl : w₂ = w' := by simpa using h
    exact ⟨n + 1, hi.item hq h₂⟩
  | case4 w₁ index rest hq w₂ h₂ hf ih => exact ih (hi.item hq h₂) h

theorem Items.round_of_error {n : Nat} {e : EmissionError} (hi : Items body w n w₁)
    (h : w₁.round body = .error e) :
    ∃ n' w', Items body w n' w' ∧ Halts body w' (.error e) := by
  fun_induction Worklist.round body w₁ generalizing n with
  | case1 => cases h
  | case2 w₁ index rest hq e' he =>
    obtain rfl : e' = e := by simpa using h
    exact ⟨n, w₁, hi, .fail hq he⟩
  | case3 => cases h
  | case4 w₁ index rest hq w₂ h₂ hf ih => exact ih (hi.item hq h₂) h

/-- A run answers what its items come to. -/
theorem Items.run {n : Nat} (hi : Items body w n w₁) :
    ∃ n' w', Items body w n' w' ∧ Halts body w' (w₁.run body) := by
  fun_induction Worklist.run body w₁ generalizing n with
  | case1 w₁ e he => exact hi.round.round_of_error he
  | case2 w₁ w₂ h₂ hf ih =>
    obtain ⟨n₂, hi₂⟩ := hi.round.round_of_ok h₂
    exact ih hi₂
  | case3 w₁ w₂ h₂ hf =>
    obtain ⟨n₂, hi₂⟩ := hi.round.round_of_ok h₂
    have hround : True ∧ (w₂.fresh = false → w₂.queue = []) :=
      round_invariant (fun _ _ _ _ _ _ _ => trivial) h₂ trivial
    exact ⟨n₂, w₂, hi₂, .done (hround.2 (by simpa using hf))⟩

/-- What is left to do at the start. -/
theorem potential_start_le :
    (start body.instructions.size entry).potential (heightCeiling body entry) ≤
      1 + body.instructions.size * (heightCeiling body entry + 1) := by
  have hentry : entry.height ≤ heightCeiling body entry := by
    have := entry.height_le
    have : entry.locals.length ≤ localsCeiling entry := Nat.le_max_left _ _
    unfold heightCeiling stackCeiling
    omega
  have hle : ∀ x ∈ (start body.instructions.size entry).frames.toList,
      pending (heightCeiling body entry) x ≤ heightCeiling body entry + 1 := by
    intro x hx
    cases x with
    | none => exact Nat.le_refl _
    | some g =>
      obtain ⟨i, hi⟩ := List.mem_iff_getElem?.1 hx
      rw [Array.getElem?_toList] at hi
      obtain ⟨-, -, rfl⟩ := frameAt_start.1 (Option.join_eq_some_iff.2 hi)
      exact Nat.le_succ_of_le hentry
  have hsize : (start body.instructions.size entry).frames.toList.length = body.instructions.size := by
    simp [start]
  have htotal := total_le_of_forall hle
  rw [hsize] at htotal
  exact Nat.add_le_add_left htotal 1

end Worklist

namespace Layout

open Worklist (Items Halts Climbs)

/-- The most items that an analysis can take. -/
def itemLimit (body : Layout) (entry : Frame) : Nat :=
  1 + body.instructions.size * (Worklist.heightCeiling body entry + 1)

/-- What an analysis answers when nothing waits. -/
def conclude (body : Layout) (w : Worklist) : Except EmissionError Analysis :=
  match w.firstDead? body with
  | some dead => .error (.unreachable dead)
  | none => do return ⟨← Worklist.limit w.maxStack, ← Worklist.limit w.maxLocals, w.frames⟩

theorem analyze_eq_conclude (body : Layout) (entry : Frame) :
    body.analyze entry =
      if body.instructions.isEmpty then .error .fallOffEnd
      else Worklist.run body (.start body.instructions.size entry) >>= body.conclude := by
  unfold analyze
  split
  · rfl
  · refine congrArg _ (funext fun w => ?_)
    unfold conclude
    dsimp only
    cases w.firstDead? body <;> rfl

/-- The analysis ends for every body, label table and entry frame.  It takes no more items than the
limit, it comes to the end of its items and answers accordingly, and an instruction waits again only
after its frame was recorded for the first time or rose.  Frames rise in a strict order, in which no
frame rises more often than its height says. -/
theorem analyze_terminates (body : Layout) (entry : Frame) :
    (∀ n w, Items body (.start body.instructions.size entry) n w → n ≤ body.itemLimit entry) ∧
    (∃ n w r, Items body (.start body.instructions.size entry) n w ∧ Halts body w r ∧
      body.analyze entry =
        if body.instructions.isEmpty then .error .fallOffEnd else r >>= body.conclude) ∧
    (∀ (w w' : Worklist) (index : Nat) (rest : List Nat), w.queue = index :: rest →
      { w with queue := rest }.step body index = .ok w' →
      ∀ j, Climbs (w.frameAt j) (w'.frameAt j) ∨
        w'.frameAt j = w.frameAt j ∧ (j ∈ w'.queue → j ∈ rest)) ∧
    (∀ f g k : Frame, f.Rises g → g.Rises k → f.Rises k) ∧
    ∀ f g : Frame, f.Rises g → g.height < f.height := by
  refine ⟨fun n w hitems => ?_, ?_, fun w w' index rest _ hstep => Worklist.moves_of_step hstep,
    fun f g k => Frame.Rises.trans, fun f g => Frame.Rises.height_lt⟩
  · have hleft := (Worklist.start_bounded.items hitems).2
    have hstart := @Worklist.potential_start_le body entry
    unfold itemLimit
    omega
  · obtain ⟨n, w, hitems, hhalts⟩ := (Items.start : Items body (.start body.instructions.size entry) 0 _).run
    exact ⟨n, w, _, hitems, hhalts, body.analyze_eq_conclude entry⟩

/-- A body that jumps back to its beginning. -/
def spinningBody : Layout :=
  { thisClass := "a/B"
    instructions := #[.mark 0, .jump .goto 0]
    offsets := #[0, 0]
    target? := fun label => if label = 0 then some 0 else none }

/-- Its second item trims the locals of the entry frame, which says the same of all values as
before, and lets the first instruction wait again. -/
theorem analyze_terminates_spinning :
    ∃ w₁ w₂, Items spinningBody (.start 2 ⟨[.integer, .top], []⟩) 1 w₁ ∧
      Items spinningBody (.start 2 ⟨[.integer, .top], []⟩) 2 w₂ ∧
      2 ≤ spinningBody.itemLimit ⟨[.integer, .top], []⟩ ∧ w₁.queue = [1] ∧ w₂.queue = [0] ∧
      Climbs (w₁.frameAt 0) (w₂.frameAt 0) ∧ w₂.frameAt 0 = some ⟨[.integer], []⟩ := by
  obtain ⟨hlimit, -, hwaits, -⟩ := analyze_terminates spinningBody ⟨[.integer, .top], []⟩
  have h₁ : Items spinningBody (.start 2 ⟨[.integer, .top], []⟩) 1 _ := .item .start rfl (by rfl)
  have h₂ : Items spinningBody (.start 2 ⟨[.integer, .top], []⟩) 2 _ := .item h₁ rfl (by rfl)
  refine ⟨_, _, h₁, h₂, hlimit 2 _ h₂, rfl, rfl, ?_, rfl⟩
  exact (hwaits _ _ 1 [] rfl (by rfl) 0).resolve_right fun hsame => absurd hsame.1 (by decide)

end Layout

end EntityLoom
