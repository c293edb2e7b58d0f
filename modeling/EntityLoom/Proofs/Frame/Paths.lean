import EntityLoom.Frame.Analysis
import EntityLoom.Proofs.Frame.Effects
import EntityLoom.Proofs.Outcomes

/-!
# The analysis covers every path

A path of a body is a way that control can take: it starts at the first instruction and goes on to
the next instruction or to the target of a jump.  Where the analysis succeeds, every path can be
executed from the entry frame, whatever its length, and the frame with which it arrives at an
instruction is below the one recorded there (`Layout.analyze_path_sound`).

The proof has three parts.  `Worklist.Sound` is what a state of the analysis promises: outside the
queue, what an instruction makes of its recorded frame is below the frames recorded where control
goes.  `Worklist.step_sound` is one step, and `Worklist.run_invariant` carries it to the end, where
the queue is empty.  A path then follows the recorded frames, since execution is monotone.
-/

namespace EntityLoom

/-! ## Paths -/

namespace Layout

/-- Control can go from the instruction at one place to the one at another. -/
inductive Edge (body : Layout) : Nat → Nat → Prop
  | next {i : Nat} {ins : Instruction} (at_ : body.instructions[i]? = some ins)
    (falls : ins.fallsThrough = true) : Edge body i (i + 1)
  | jump {i target : Nat} {op : Opcode} {label : Label}
    (at_ : body.instructions[i]? = some (.jump op label))
    (bound : body.target? label = some target) : Edge body i target

/-- Control goes on from instructions only. -/
theorem Edge.instruction {body : Layout} {i j : Nat} (h : body.Edge i j) :
    ∃ ins, body.instructions[i]? = some ins := by
  cases h with
  | next hins _ => exact ⟨_, hins⟩
  | jump hins _ => exact ⟨_, hins⟩

/-- Control can arrive at a place after it went through the given ones, first to last. -/
inductive Path (body : Layout) : List Nat → Nat → Prop
  | start : Path body [] 0
  | step {visited : List Nat} {i j : Nat} (path : Path body visited i) (edge : body.Edge i j) :
    Path body (visited ++ [i]) j

/-- Executes the instruction at a place; there is none outside the body. -/
def executeAt (body : Layout) (f : Frame) (i : Nat) : Except EmissionError Frame :=
  match body.instructions[i]? with
  | some ins => f.after body.thisClass i (body.offsets.getD i 0) ins
  | none => .error .fallOffEnd

/-- Executes the instructions at the given places one after the other. -/
def executeAlong (body : Layout) (f : Frame) (places : List Nat) : Except EmissionError Frame :=
  places.foldlM body.executeAt f

theorem executeAlong_append_singleton {body : Layout} {f g : Frame} {places : List Nat} {i : Nat}
    (h : body.executeAlong f places = .ok g) :
    body.executeAlong f (places ++ [i]) = body.executeAt g i := by
  unfold executeAlong at h ⊢
  rw [List.foldlM_append, h]
  change List.foldlM body.executeAt g [i] = body.executeAt g i
  rw [List.foldlM_cons]
  cases body.executeAt g i <;> rfl

/-- What was executed up to a last instruction was executed without it. -/
theorem exists_executeAlong_of_append_singleton {body : Layout} {f k : Frame} {places : List Nat}
    {i : Nat} (h : body.executeAlong f (places ++ [i]) = .ok k) :
    ∃ g, body.executeAlong f places = .ok g ∧ body.executeAt g i = .ok k := by
  have hsplit : body.executeAlong f (places ++ [i]) =
      body.executeAlong f places >>= fun g => body.executeAlong g [i] := List.foldlM_append
  obtain ⟨g, hg, -⟩ := bind_eq_ok.1 (hsplit.symm.trans h)
  exact ⟨g, hg, (executeAlong_append_singleton hg).symm.trans h⟩

end Layout

/-- The local variable slots that an instruction reads or writes. -/
def Instruction.touchedSlots : Instruction → List Nat
  | .var op slot =>
    if op = .lload ∨ op = .dload ∨ op = .lstore ∨ op = .dstore then
      [slot.toNat, slot.toNat + 1]
    else [slot.toNat]
  | _ => []

namespace Worklist

open EntityLoom.Frame (Paired slotOf)

/-! ## What the states of an analysis promise -/

/-- The frame recorded for an instruction. -/
def frameAt (w : Worklist) (i : Nat) : Option Frame := (w.frames[i]?).join

/-- What an instruction makes of its recorded frame is below the frames recorded where control
goes. -/
def Settled (body : Layout) (w : Worklist) (i : Nat) : Prop :=
  ∀ f ins, w.frameAt i = some f → body.instructions[i]? = some ins →
    ∃ f' targets, f.after body.thisClass i (body.offsets.getD i 0) ins = .ok f' ∧
      successors body i ins = .ok targets ∧ f'.locals.length ≤ w.maxLocals ∧
      ∀ t ∈ targets, ∃ g, w.frameAt t = some g ∧ f'.Below g

/-- The promises of a state: the entry frame is below what is recorded first, recorded locals are in
shape and within the limit, and whatever does not wait is settled. -/
structure Sound (body : Layout) (entry : Frame) (w : Worklist) : Prop where
  size : w.frames.size = body.instructions.size
  entry : ∃ g, w.frameAt 0 = some g ∧ entry.Below g
  shape : ∀ i g, w.frameAt i = some g → Paired g.locals ∧ g.locals.length ≤ w.maxLocals
  settled : ∀ i, i ∉ w.queue → w.Settled body i

/-! ## Arrivals -/

/-- What arrivals keep of a state: recorded frames rise, and where one changes the instruction
waits. -/
structure Advances (w w' : Worklist) : Prop where
  size : w'.frames.size = w.frames.size
  maxStack : w'.maxStack = w.maxStack
  maxLocals : w'.maxLocals = w.maxLocals
  rises : ∀ i g, w.frameAt i = some g → ∃ g', w'.frameAt i = some g' ∧ g.Below g'
  waits : ∀ i, i ∉ w'.queue → i ∉ w.queue ∧ w'.frameAt i = w.frameAt i

theorem Advances.refl (w : Worklist) : Advances w w :=
  ⟨rfl, rfl, rfl, fun _ g h => ⟨g, h, Frame.Below.refl g⟩, fun _ h => ⟨h, rfl⟩⟩

theorem Advances.trans {w₁ w₂ w₃ : Worklist} (h : Advances w₁ w₂) (h' : Advances w₂ w₃) :
    Advances w₁ w₃ := by
  refine ⟨h'.size.trans h.size, h'.maxStack.trans h.maxStack, h'.maxLocals.trans h.maxLocals,
    fun i g hg => ?_, fun i hi => ?_⟩
  · obtain ⟨g₂, hg₂, hb₂⟩ := h.rises i g hg
    obtain ⟨g₃, hg₃, hb₃⟩ := h'.rises i g₂ hg₂
    exact ⟨g₃, hg₃, hb₂.trans hb₃⟩
  · obtain ⟨hq₂, hf₂⟩ := h'.waits i hi
    obtain ⟨hq₁, hf₁⟩ := h.waits i hq₂
    exact ⟨hq₁, hf₂.trans hf₁⟩

theorem mem_enqueue_self (queue : List Nat) (i : Nat) : i ∈ enqueue queue i := by
  unfold enqueue
  split <;> simp_all

theorem mem_enqueue_of_mem {queue : List Nat} {i j : Nat} (h : j ∈ queue) :
    j ∈ enqueue queue i := by
  unfold enqueue
  split <;> simp_all

/-- What the arrival of a frame at an instruction does: the frame `g` that is recorded afterwards is
the trimmed frame where there was none, and a join elsewhere. -/
structure Arrived (f : Frame) (w w' : Worklist) (i : Nat) (g : Frame) : Prop where
  inside : i < w.frames.size
  size : w'.frames.size = w.frames.size
  maxStack : w'.maxStack = w.maxStack
  maxLocals : w'.maxLocals = w.maxLocals
  frames : ∀ j, w'.frameAt j = if j = i then some g else w.frameAt j
  waits : ∀ j, j ∉ w'.queue → j ∉ w.queue ∧ w'.frameAt j = w.frameAt j
  recorded : w.frameAt i = none ∧ g = f.trim ∨ ∃ r, w.frameAt i = some r ∧ r.join i f = .ok g

/-- A frame that is recorded for an instruction which then waits. -/
theorem arrived_of_set {f : Frame} {w : Worklist} {i : Nat} {g : Frame} (hi : i < w.frames.size)
    (hg : w.frameAt i = none ∧ g = f.trim ∨ ∃ r, w.frameAt i = some r ∧ r.join i f = .ok g)
    (fresh : Bool) :
    Arrived f w { w with frames := w.frames.set i (some g), queue := enqueue w.queue i, fresh } i
      g := by
  have hframes : ∀ j, ((w.frames.set i (some g))[j]?).join =
      if j = i then some g else w.frameAt j := by
    intro j
    by_cases hj : j = i
    · rw [if_pos hj, hj, Array.getElem?_set_self]
      rfl
    · rw [if_neg hj, Array.getElem?_set_ne hi (Ne.symm hj)]
      rfl
  refine ⟨hi, Array.size_set hi, rfl, rfl, hframes, fun j hj => ?_, hg⟩
  have hji : j ≠ i := fun heq => hj (heq ▸ mem_enqueue_self w.queue i)
  exact ⟨fun hmem => hj (mem_enqueue_of_mem hmem), (hframes j).trans (if_neg hji)⟩

theorem arrive_eq_ok {f : Frame} {w w' : Worklist} {i : Nat} (h : w.arrive f i = .ok w') :
    ∃ g, Arrived f w w' i g := by
  unfold arrive at h
  split at h
  case isFalse => simp at h
  case isTrue hi =>
    have hat : w.frameAt i = w.frames[i] := by
      unfold frameAt
      rw [Array.getElem?_eq_getElem hi]
      rfl
    split at h
    · next hnone =>
      obtain rfl := Except.ok.inj h
      exact ⟨f.trim, arrived_of_set hi (.inl ⟨hat.trans hnone, rfl⟩) true⟩
    · next recorded hsome =>
      have hrec := hat.trans hsome
      obtain ⟨joined, hj, h⟩ := bind_eq_ok.1 h
      split at h
      · next heq =>
        obtain rfl := Except.ok.inj h
        refine ⟨recorded, hi, rfl, rfl, rfl, fun j => ?_, fun j hj => ⟨hj, rfl⟩,
          .inr ⟨_, hrec, heq ▸ hj⟩⟩
        by_cases hji : j = i
        · rw [if_pos hji, hji, hrec]
        · rw [if_neg hji]
      · obtain rfl := Except.ok.inj h
        exact ⟨joined, arrived_of_set hi (.inr ⟨recorded, hrec, hj⟩) w.fresh⟩

/-- An arrival advances the state, and afterwards the frame that arrived is below the one recorded
there. -/
theorem Arrived.advances {f g : Frame} {w w' : Worklist} {i : Nat} (h : Arrived f w w' i g) :
    Advances w w' ∧ ∃ g, w'.frameAt i = some g ∧ f.Below g := by
  have hself : w'.frameAt i = some g := (h.frames i).trans (if_pos rfl)
  refine ⟨⟨h.size, h.maxStack, h.maxLocals, fun j k hk => ?_, h.waits⟩, g, hself, ?_⟩
  · by_cases hj : j = i
    · subst hj
      refine ⟨g, hself, ?_⟩
      rcases h.recorded with ⟨hnone, -⟩ | ⟨r, hr, hjoin⟩
      · rw [hnone] at hk
        cases hk
      · obtain rfl := Option.some.inj (hr.symm.trans hk)
        exact Frame.below_join_left hjoin
    · exact ⟨k, (h.frames j).trans ((if_neg hj).trans hk), Frame.Below.refl k⟩
  · rcases h.recorded with ⟨-, rfl⟩ | ⟨r, -, hjoin⟩
    · exact Frame.below_trim f
    · exact Frame.below_join_right hjoin

/-- The locals of what is recorded are the trimmed locals of the frame that arrived, or of a join. -/
theorem Arrived.locals {f g : Frame} {w w' : Worklist} {i : Nat} (h : Arrived f w w' i g) :
    g.locals = Frame.trimLocals f.locals ∨ ∃ r, w.frameAt i = some r ∧
      g.locals = Frame.trimLocals (Frame.joinLocals r.locals f.locals) := by
  rcases h.recorded with ⟨-, rfl⟩ | ⟨r, hr, hjoin⟩
  · exact .inl rfl
  · exact .inr ⟨r, hr, (Frame.join_eq_ok hjoin).2.1⟩

/-- The arrival of a frame with few locals records few. -/
theorem Arrived.length_locals_le {f g : Frame} {w w' : Worklist} {i limit : Nat}
    (h : Arrived f w w' i g) (hf : f.locals.length ≤ limit)
    (hw : ∀ r, w.frameAt i = some r → r.locals.length ≤ limit) : g.locals.length ≤ limit := by
  rcases h.locals with heq | ⟨r, hr, heq⟩
  · rw [heq]
    exact Nat.le_trans (Frame.length_trimLocals_le _) hf
  · rw [heq]
    refine Nat.le_trans (Frame.length_trimLocals_le _) ?_
    rw [Frame.length_joinLocals]
    exact Nat.max_le.2 ⟨hw r hr, hf⟩

/-- The shape of recorded locals is kept by the arrival of a frame in shape. -/
theorem Arrived.shape {f g : Frame} {w w' : Worklist} {i limit : Nat} (h : Arrived f w w' i g)
    (hf : Paired f.locals ∧ f.locals.length ≤ limit)
    (hw : ∀ j k, w.frameAt j = some k → Paired k.locals ∧ k.locals.length ≤ limit) :
    ∀ j k, w'.frameAt j = some k → Paired k.locals ∧ k.locals.length ≤ limit := by
  have hpaired : Paired g.locals := by
    rcases h.locals with heq | ⟨r, hr, heq⟩
    · rw [heq]
      exact Frame.paired_trimLocals hf.1
    · rw [heq]
      exact Frame.paired_trimLocals (Frame.paired_joinLocals (hw i r hr).1 _)
  have hlength := h.length_locals_le hf.2 fun r hr => (hw i r hr).2
  intro j k hk
  rw [h.frames j] at hk
  split at hk
  · obtain rfl := Option.some.inj hk
    exact ⟨hpaired, hlength⟩
  · exact hw j k hk

theorem foldlM_arrive {f : Frame} {targets : List Nat} {w w' : Worklist}
    (h : targets.foldlM (arrive f) w = .ok w') :
    Advances w w' ∧ ∀ t ∈ targets, ∃ g, w'.frameAt t = some g ∧ f.Below g := by
  induction targets generalizing w with
  | nil =>
    obtain rfl := Except.ok.inj h
    exact ⟨Advances.refl _, by simp⟩
  | cons i rest ih =>
    obtain ⟨w₁, h₁, h⟩ := foldlM_cons_eq_ok.1 h
    obtain ⟨_, harrived⟩ := arrive_eq_ok h₁
    obtain ⟨hadv₁, g, hg, hfg⟩ := harrived.advances
    obtain ⟨hadv, htargets⟩ := ih h
    refine ⟨hadv₁.trans hadv, fun t ht => ?_⟩
    rcases List.mem_cons.1 ht with rfl | ht
    · obtain ⟨g', hg', hgg'⟩ := hadv.rises _ g hg
      exact ⟨g', hg', hfg.trans hgg'⟩
    · exact htargets t ht

theorem foldlM_arrive_shape {f : Frame} {targets : List Nat} {w w' : Worklist} {limit : Nat}
    (h : targets.foldlM (arrive f) w = .ok w')
    (hf : Paired f.locals ∧ f.locals.length ≤ limit)
    (hw : ∀ j g, w.frameAt j = some g → Paired g.locals ∧ g.locals.length ≤ limit) :
    ∀ j g, w'.frameAt j = some g → Paired g.locals ∧ g.locals.length ≤ limit := by
  refine foldlM_invariant (P := fun w => ∀ j g, w.frameAt j = some g →
    Paired g.locals ∧ g.locals.length ≤ limit) h hw fun i _ w₁ w₂ hw₁ h₁ => ?_
  obtain ⟨_, harrived⟩ := arrive_eq_ok h₁
  exact harrived.shape hf hw₁

/-! ## Steps -/

/-- A settled instruction stays so when recorded frames rise and its own does not change. -/
theorem Settled.advance {body : Layout} {w w' : Worklist} {i : Nat} (h : w.Settled body i)
    (hadv : Advances w w') (hi : w'.frameAt i = w.frameAt i) : w'.Settled body i := by
  intro f ins hf hins
  obtain ⟨f', targets, hafter, htargets, hlocals, hbelow⟩ := h f ins (hi ▸ hf) hins
  refine ⟨f', targets, hafter, htargets, hadv.maxLocals ▸ hlocals, fun t ht => ?_⟩
  obtain ⟨g, hg, hfg⟩ := hbelow t ht
  obtain ⟨g', hg', hgg'⟩ := hadv.rises t g hg
  exact ⟨g', hg', hfg.trans hgg'⟩

/-- The state in which the limits hold of a frame before and after its instruction too. -/
def raise (w : Worklist) (f f' : Frame) : Worklist :=
  { w with
    maxStack := max (max w.maxStack f.stackSlots) f'.stackSlots
    maxLocals := max w.maxLocals f'.locals.length }

@[simp] theorem frameAt_raise (w : Worklist) (f f' : Frame) (i : Nat) :
    (w.raise f f').frameAt i = w.frameAt i := rfl

/-- What a step that succeeds did: it executed an instruction from its recorded frame and let the
result arrive at the successors, or did nothing where there is no frame or no instruction. -/
theorem step_eq_ok {body : Layout} {w w' : Worklist} {index : Nat}
    (h : w.step body index = .ok w') :
    (∃ f ins f' targets, w.frameAt index = some f ∧ body.instructions[index]? = some ins ∧
      f.after body.thisClass index (body.offsets.getD index 0) ins = .ok f' ∧
      successors body index ins = .ok targets ∧
      targets.foldlM (arrive f') (w.raise f f') = .ok w') ∨
    (∀ f ins, w.frameAt index = some f → body.instructions[index]? ≠ some ins) ∧ w' = w := by
  unfold step at h
  split at h
  · next f ins hf hins =>
    obtain ⟨f', hafter, h⟩ := bind_eq_ok.1 h
    obtain ⟨targets, htargets, h⟩ := bind_eq_ok.1 h
    exact .inl ⟨f, ins, f', targets, hf, hins, hafter, htargets, h⟩
  · next hnone =>
    exact .inr ⟨hnone, (Except.ok.inj h).symm⟩

/-- Taking an instruction off the queue, wherever it stands there, and executing it keeps the
promises. -/
theorem step_sound {body : Layout} {entry : Frame} {w w' : Worklist} {index : Nat}
    {rest : List Nat} (hq : ∀ i ∈ w.queue, i = index ∨ i ∈ rest)
    (h : { w with queue := rest }.step body index = .ok w') (hw : Sound body entry w) :
    Sound body entry w' := by
  rcases step_eq_ok h with ⟨f, ins, f', targets, hf, hins, hafter, htargets, harrive⟩ | ⟨hnone, rfl⟩
  · -- The state in which the arrivals start differs from `w` in its queue and limits alone.
    generalize hw₀ : ({ w with queue := rest } : Worklist).raise f f' = w₀ at harrive
    have hframe : ∀ i, w₀.frameAt i = w.frameAt i := fun i => by rw [← hw₀]; rfl
    have hlimit : w₀.maxLocals = max w.maxLocals f'.locals.length := by rw [← hw₀]; rfl
    obtain ⟨hadv, hbelow⟩ := foldlM_arrive harrive
    have hf' : Paired f'.locals ∧ f'.locals.length ≤ w₀.maxLocals := by
      refine ⟨Frame.paired_after (hw.shape index f hf).1 hafter, ?_⟩
      rw [hlimit]
      omega
    refine ⟨?_, ?_, ?_, fun i hi => ?_⟩
    · rw [hadv.size, ← hw₀]
      exact hw.size
    · obtain ⟨g, hg, hentry⟩ := hw.entry
      obtain ⟨g', hg', hgg'⟩ := hadv.rises 0 g ((hframe 0).trans hg)
      exact ⟨g', hg', hentry.trans hgg'⟩
    · rw [hadv.maxLocals]
      refine foldlM_arrive_shape harrive hf' fun j g hg => ?_
      obtain ⟨hp, hl⟩ := hw.shape j g ((hframe j).symm.trans hg)
      exact ⟨hp, by omega⟩
    · obtain ⟨hi₀, hsame⟩ := hadv.waits i hi
      by_cases hindex : i = index
      · subst hindex
        intro k ins' hk hins'
        rw [hsame, hframe] at hk
        obtain rfl := Option.some.inj (hf.symm.trans hk)
        obtain rfl := Option.some.inj (hins.symm.trans hins')
        exact ⟨f', targets, hafter, htargets, hadv.maxLocals ▸ hf'.2, hbelow⟩
      · have hset : w₀.Settled body i := by
          intro k ins' hk hins'
          have hi' : i ∉ w.queue := by
            rw [← hw₀] at hi₀
            exact fun hmem => (hq i hmem).elim hindex hi₀
          obtain ⟨k', ts, hk', hts, hl, hb⟩ := hw.settled i hi' k ins' ((hframe i).symm.trans hk) hins'
          refine ⟨k', ts, hk', hts, by omega, fun t ht => ?_⟩
          obtain ⟨g, hg, hkg⟩ := hb t ht
          exact ⟨g, (hframe t).trans hg, hkg⟩
        exact hset.advance hadv hsame
  · refine ⟨hw.size, hw.entry, hw.shape, fun i hi => ?_⟩
    by_cases hindex : i = index
    · subst hindex
      intro k ins hk hins
      exact absurd hins (hnone k ins hk)
    · exact hw.settled i fun hmem => (hq i hmem).elim hindex hi

/-- At the start there is a frame for the first instruction alone. -/
theorem frameAt_start {size i : Nat} {entry g : Frame} :
    (start size entry).frameAt i = some g ↔ i = 0 ∧ 0 < size ∧ g = entry := by
  simp only [start, frameAt, Array.getElem?_setIfInBounds, Array.size_replicate,
    Array.getElem?_replicate]
  by_cases hi : 0 = i
  · subst hi
    by_cases hsize : 0 < size <;> simp [hsize, eq_comm]
  · rw [if_neg hi]
    by_cases hsize : i < size <;> simp [hsize, Ne.symm hi]

theorem start_sound {body : Layout} {entry : Frame} (hsize : body.instructions.isEmpty = false)
    (hentry : Paired entry.locals) : Sound body entry (start body.instructions.size entry) := by
  have hpos : 0 < body.instructions.size := by
    simpa [Array.isEmpty, Nat.pos_iff_ne_zero] using hsize
  refine ⟨by simp [start], ⟨entry, frameAt_start.2 ⟨rfl, hpos, rfl⟩, Frame.Below.refl _⟩, ?_, ?_⟩
  · intro i g hg
    obtain ⟨-, -, rfl⟩ := frameAt_start.1 hg
    exact ⟨hentry, Nat.le_refl _⟩
  · intro i hi f ins hf
    obtain ⟨rfl, -⟩ := frameAt_start.1 hf
    exact absurd (List.mem_singleton.2 rfl) hi

end Worklist

/-! ## The end of an analysis -/

namespace Layout

open Worklist (Sound)

theorem toNat_of_limit {n : Nat} {m : UInt16} (h : Worklist.limit n = .ok m) : m.toNat = n := by
  unfold Worklist.limit at h
  split at h
  · next hlt =>
    obtain rfl := Except.ok.inj h
    rw [UInt16.toNat_ofNat']
    exact Nat.mod_eq_of_lt hlt
  · exact absurd h (by simp)

/-- What a successful analysis answers: the end of a run that left no instruction without a frame
but marks. -/
theorem analyze_eq_ok {body : Layout} {entry : Frame} {a : Analysis}
    (h : body.analyze entry = .ok a) :
    ∃ w, body.instructions.isEmpty = false ∧
      Worklist.run body (.start body.instructions.size entry) = .ok w ∧
      w.firstDead? body = none ∧ a.maxStack.toNat = w.maxStack ∧ a.maxLocals.toNat = w.maxLocals ∧
      a.frames = w.frames := by
  unfold analyze at h
  split at h
  · exact absurd h (by simp [throw, throwThe, MonadExceptOf.throw, bind, Except.bind])
  · next hempty =>
    obtain ⟨-, -, h⟩ := bind_eq_ok.1 h
    obtain ⟨w, hrun, h⟩ := bind_eq_ok.1 h
    dsimp only at h
    split at h
    · exact absurd h (by simp [throw, throwThe, MonadExceptOf.throw, bind, Except.bind])
    · next hdead =>
      obtain ⟨maxStack, hstack, h⟩ := bind_eq_ok.1 h
      obtain ⟨maxLocals, hlocals, h⟩ := bind_eq_ok.1 h
      obtain rfl := Except.ok.inj h
      exact ⟨w, by simpa using hempty, hrun, hdead, toNat_of_limit hstack, toNat_of_limit hlocals,
        rfl⟩

/-- No instruction is dead when all but marks have a frame. -/
theorem firstDead?_eq_none {body : Layout} {w : Worklist} :
    w.firstDead? body = none ↔ ∀ i ins, body.instructions[i]? = some ins → ins.isMark = false →
      ∃ f, w.frameAt i = some f := by
  unfold Worklist.firstDead? Worklist.frameAt
  rw [List.find?_eq_none]
  constructor
  · intro h i ins hins hmark
    have hi := h i (List.mem_range.2 (Array.getElem?_eq_some_iff.1 hins).1)
    refine Option.isSome_iff_exists.1 ?_
    simpa [hins, hmark, Option.isNone_iff_eq_none, Option.isSome_iff_ne_none] using hi
  · intro h i hi hdead
    have hins := Array.getElem?_eq_getElem (List.mem_range.1 hi)
    simp only [hins, Option.any_some, Bool.and_eq_true, Bool.not_eq_eq_eq_not, Bool.not_true] at hdead
    obtain ⟨f, hf⟩ := h i _ hins hdead.2
    rw [hf] at hdead
    exact absurd hdead.1 (by simp)

/-- The end of a run keeps the promises, and nothing waits there. -/
theorem run_sound {body : Layout} {entry : Frame} {w : Worklist}
    (hempty : body.instructions.isEmpty = false) (hentry : Frame.Paired entry.locals)
    (h : Worklist.run body (.start body.instructions.size entry) = .ok w) :
    Sound body entry w ∧ w.queue = [] :=
  Worklist.run_invariant (fun _ _ _ _ hq hstep hw => Worklist.step_sound (by simp [hq]) hstep hw)
    (fun _ hw => ⟨hw.size, hw.entry, hw.shape, hw.settled⟩) h
    (Worklist.start_sound hempty hentry)

/-! ## Along a path -/

/-- A value that a wide load or store accepts is wide. -/
theorem isWide_of_accepts {op : Opcode} {v : VerificationType}
    (hop : op = .lload ∨ op = .dload ∨ op = .lstore ∨ op = .dstore)
    (h : (Expectation.ofLocalOp op).accepts v = true) : v.isWide = true := by
  rcases hop with rfl | rfl | rfl | rfl <;>
    simp only [Expectation.ofLocalOp, Expectation.accepts, decide_eq_true_eq] at h <;>
    rw [h] <;> rfl

/-- The slots that an instruction touches lie below a limit that holds of the locals before and
after it. -/
theorem touchedSlots_lt {thisClass : String} {index offset : Nat} {f f' : Frame} {limit slot : Nat}
    {ins : Instruction} (hafter : f.after thisClass index offset ins = .ok f')
    (hf : Frame.Paired f.locals ∧ f.locals.length ≤ limit) (hf' : f'.locals.length ≤ limit)
    (hslot : slot ∈ ins.touchedSlots) : slot < limit := by
  cases ins with
  | var op at_ =>
    obtain ⟨u, hu⟩ := Frame.after_eq_ok.1 hafter
    unfold Frame.execute at hu
    dsimp only at hu
    split at hu
    · obtain ⟨hacc, -⟩ := Frame.load_eq_ok.1 hu
      have hlt := Frame.lt_length_of_slotOf_ne_top (Expectation.ne_top_of_accepts hacc)
      simp only [Instruction.touchedSlots] at hslot
      split at hslot
      · next hop =>
        have hnext := (hf.1 at_.toNat (isWide_of_accepts hop hacc)).1
        simp only [List.mem_cons, List.not_mem_nil, or_false] at hslot
        omega
      · rw [List.mem_singleton] at hslot
        omega
    · obtain ⟨v, hacc, -, hlocals⟩ := Frame.store_eq_ok.1 hu
      rw [hlocals, Frame.length_write, VerificationType.slots] at hf'
      simp only [Instruction.touchedSlots] at hslot
      split at hslot
      · next hop =>
        rw [if_pos (isWide_of_accepts hop hacc)] at hf'
        simp only [List.mem_cons, List.not_mem_nil, or_false] at hslot
        omega
      · rw [List.mem_singleton] at hslot
        split at hf' <;> omega
  | _ => exact absurd hslot (by simp [Instruction.touchedSlots])

/-- Where control goes from an instruction is among its successors. -/
theorem mem_successors {body : Layout} {i j : Nat} {ins : Instruction} {targets : List Nat}
    (hins : body.instructions[i]? = some ins) (hedge : body.Edge i j)
    (h : Worklist.successors body i ins = .ok targets) : j ∈ targets := by
  unfold Worklist.successors at h
  cases hedge with
  | next hat hfalls =>
    obtain rfl := Option.some.inj (hins.symm.trans hat)
    dsimp only at h
    rw [if_pos hfalls] at h
    split at h
    · split at h
      · obtain rfl := Except.ok.inj h
        simp
      · exact absurd h (by simp)
    · obtain rfl := Except.ok.inj h
      simp
  | jump hat hbound =>
    obtain rfl := Option.some.inj (hins.symm.trans hat)
    simp only [hbound] at h
    obtain rfl := Except.ok.inj h
    simp

/-- A jump whose successors are known has a target. -/
theorem target_of_successors {body : Layout} {i : Nat} {op : Opcode} {label : Label}
    {targets : List Nat} (h : Worklist.successors body i (.jump op label) = .ok targets) :
    ∃ target, body.target? label = some target ∧ target ∈ targets := by
  unfold Worklist.successors at h
  dsimp only at h
  split at h
  · next target hbound =>
    obtain rfl := Except.ok.inj h
    exact ⟨target, hbound, by simp⟩
  · exact absurd h (by simp)

/-- What an analysis knows of the arrival at an instruction: a path can be executed so far, and its
frame is below the recorded one. -/
theorem path_below {body : Layout} {entry : Frame} {w : Worklist} (hw : Sound body entry w)
    (hqueue : w.queue = []) {visited : List Nat} {i : Nat} (hpath : body.Path visited i) :
    ∃ f g, body.executeAlong entry visited = .ok f ∧ w.frameAt i = some g ∧ f.Below g := by
  induction hpath with
  | start =>
    obtain ⟨g, hg, hentry⟩ := hw.entry
    exact ⟨entry, g, rfl, hg, hentry⟩
  | @step visited i j hpath hedge ih =>
    obtain ⟨f, g, hf, hg, hfg⟩ := ih
    obtain ⟨ins, hins⟩ := hedge.instruction
    have hsettled := hw.settled i (by rw [hqueue]; simp)
    obtain ⟨g', targets, hafter, htargets, -, hbelow⟩ := hsettled g ins hg hins
    obtain ⟨f', hf', hfg'⟩ := Frame.after_mono hfg hafter
    obtain ⟨k, hk, hgk⟩ := hbelow j (mem_successors hins hedge htargets)
    refine ⟨f', k, ?_, hk, hfg'.trans hgk⟩
    rw [executeAlong_append_singleton hf, executeAt, hins]
    exact hf'

/-- The analysis covers every path from the entry frame of a method: executing its instructions one
by one never fails, control never leaves the body, no slot beyond the limit of the locals is
touched, and the frame of the path is below the one recorded where it arrives. -/
theorem analyze_path_sound {body : Layout} {owner method : String} {isStatic : Bool}
    {d : MethodDescriptor} {a : Analysis}
    (h : body.analyze (Frame.entry owner method isStatic d) = .ok a) {visited : List Nat} {i : Nat}
    (hpath : body.Path visited i) :
    ∃ f g ins, body.executeAlong (Frame.entry owner method isStatic d) visited = .ok f ∧
      body.instructions[i]? = some ins ∧
      a.frames[i]? = some (some g) ∧ f.Below g ∧
      (∃ f', body.executeAt f i = .ok f') ∧
      (∀ slot ∈ ins.touchedSlots, slot < a.maxLocals.toNat) ∧
      (ins.fallsThrough = true → i + 1 < body.instructions.size) ∧
      (∀ op label, ins = .jump op label →
        ∃ target, body.target? label = some target ∧ target < body.instructions.size) := by
  obtain ⟨w, hempty, hrun, -, -, hlocals, hframes⟩ := analyze_eq_ok h
  obtain ⟨hw, hqueue⟩ := run_sound hempty (Frame.paired_entry owner method isStatic d) hrun
  obtain ⟨f, g, hf, hg, hfg⟩ := path_below hw hqueue hpath
  have hrecorded : ∀ j k, w.frameAt j = some k → w.frames[j]? = some (some k) := by
    intro j k hk
    unfold Worklist.frameAt at hk
    exact Option.join_eq_some_iff.1 hk
  have hinside : ∀ j k, w.frameAt j = some k → j < body.instructions.size := by
    intro j k hk
    rw [← hw.size]
    exact (Array.getElem?_eq_some_iff.1 (hrecorded j k hk)).1
  have hi := hinside i g hg
  have hins := Array.getElem?_eq_getElem hi
  generalize body.instructions[i] = ins at hins
  have hsettled := hw.settled i (by rw [hqueue]; simp)
  obtain ⟨g', targets, hafter, htargets, hlimit, hbelow⟩ := hsettled g ins hg hins
  obtain ⟨f', hf', -⟩ := Frame.after_mono hfg hafter
  refine ⟨f, g, ins, hf, hins, ?_, hfg, ⟨f', ?_⟩, fun slot hslot => ?_, fun hfalls => ?_,
    fun op label hjump => ?_⟩
  · rw [hframes]
    exact hrecorded i g hg
  · rw [executeAt, hins]
    exact hf'
  · rw [hlocals]
    exact touchedSlots_lt hafter (hw.shape i g hg) hlimit hslot
  · obtain ⟨k, hk, -⟩ := hbelow (i + 1) (mem_successors hins (.next hins hfalls) htargets)
    exact hinside _ k hk
  · subst hjump
    obtain ⟨target, hbound, hmem⟩ := target_of_successors htargets
    obtain ⟨k, hk, -⟩ := hbelow target hmem
    exact ⟨target, hbound, hinside _ k hk⟩

/-- A body with a loop, in which a local that holds `null` at first holds the receiver later. -/
def loopBody : Layout :=
  { thisClass := "a/B"
    instructions := #[.simple .aconstNull, .var .astore 1, .mark 0, .simple .iconst0,
      .jump .ifeq 1, .var .aload 0, .var .astore 1, .jump .goto 0, .mark 1, .simple .returnVoid]
    offsets := #[0, 1, 2, 2, 3, 6, 7, 8, 11, 11]
    target? := fun label => if label = 0 then some 2 else if label = 1 then some 8 else none }

theorem path_loopBody : loopBody.Path [0, 1, 2, 3, 4, 5, 6, 7] 2 :=
  .step (.step (.step (.step (.step (.step (.step (.step .start
    (.next rfl rfl)) (.next rfl rfl)) (.next rfl rfl)) (.next rfl rfl)) (.next rfl rfl))
    (.next rfl rfl)) (.next rfl rfl)) (.jump rfl rfl)

/-- The path that goes through the loop once is covered. -/
theorem analyze_path_sound_loop :
    ∃ a f g, loopBody.analyze (Frame.entry "a/B" "run" false ⟨[], .void⟩) = .ok a ∧
      loopBody.Path [0, 1, 2, 3, 4, 5, 6, 7] 2 ∧
      loopBody.executeAlong (Frame.entry "a/B" "run" false ⟨[], .void⟩) [0, 1, 2, 3, 4, 5, 6, 7] =
        .ok f ∧
      a.frames[2]? = some (some g) ∧ f.Below g := by
  have hok : (loopBody.analyze (Frame.entry "a/B" "run" false ⟨[], .void⟩)).toOption.isSome := by
    decide +kernel
  cases h : loopBody.analyze (Frame.entry "a/B" "run" false ⟨[], .void⟩) with
  | error e =>
    rw [h] at hok
    cases hok
  | ok a =>
    obtain ⟨f, g, -, hf, -, hg, hfg, -⟩ := analyze_path_sound h path_loopBody
    exact ⟨a, f, g, rfl, path_loopBody, hf, hg, hfg⟩

end Layout

end EntityLoom
