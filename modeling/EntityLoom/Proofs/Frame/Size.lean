import Mathlib.Algebra.BigOperators.Group.Finset.Basic
import Mathlib.Algebra.Order.BigOperators.Group.Finset
import EntityLoom.Proofs.Frame.Paths

/-!
# The size of recorded frames

A stack map repeats the frames that an analysis records, so its length depends on theirs.  Each
instruction makes the stack at most `growth` values higher, and control reaches an instruction for
the first time from one that was reached before.  So the stack at an instruction is no higher than
all other instructions reached can make it, however often a loop is run through: that is the
invariant `Worklist.Small`, and `Layout.analyze_size` reads it off at the end.
-/

namespace EntityLoom

namespace Worklist

open EntityLoom.Frame (growth)

/-! ## The invariant -/

/-- How many values higher the instruction at a place can make the stack. -/
def growthAt (body : Layout) (i : Nat) : Nat :=
  (body.instructions[i]?).elim 0 growth

/-- How many values the instructions that were reached can push together. -/
def reachedGrowth (body : Layout) (w : Worklist) : Nat :=
  ∑ i ∈ Finset.range w.frames.size, if (w.frameAt i).isSome then growthAt body i else 0

/-- A recorded stack is no higher than the other instructions reached can make it, and recorded
locals are no more than `limit`. -/
structure Small (body : Layout) (limit : Nat) (w : Worklist) : Prop where
  height : ∀ i g, w.frameAt i = some g → g.stack.length + growthAt body i ≤ w.reachedGrowth body
  locals : ∀ i g, w.frameAt i = some g → g.locals.length ≤ limit

/-- What an arrival adds to the reached instructions. -/
theorem Arrived.reachedGrowth (body : Layout) {f g : Frame} {w w' : Worklist} {i : Nat}
    (h : Arrived f w w' i g) :
    w'.reachedGrowth body =
      w.reachedGrowth body + if (w.frameAt i).isNone then growthAt body i else 0 := by
  have hi : i ∈ Finset.range w.frames.size := Finset.mem_range.2 h.inside
  unfold Worklist.reachedGrowth
  rw [h.size, ← Finset.add_sum_erase _ _ hi, ← Finset.add_sum_erase (Finset.range _) _ hi]
  have hrest : ∀ j ∈ (Finset.range w.frames.size).erase i,
      (if (w'.frameAt j).isSome then growthAt body j else 0) =
        if (w.frameAt j).isSome then growthAt body j else 0 := by
    intro j hj
    rw [h.frames j, if_neg (Finset.ne_of_mem_erase hj)]
  rw [Finset.sum_congr rfl hrest, h.frames i, if_pos rfl]
  cases w.frameAt i <;> simp [Nat.add_comm]

/-- An arrival of a frame that the reached instructions can make keeps frames small. -/
theorem Arrived.small {body : Layout} {f g : Frame} {w w' : Worklist} {i limit : Nat}
    (h : Arrived f w w' i g) (hw : Small body limit w)
    (hheight : f.stack.length ≤ w.reachedGrowth body) (hlocals : f.locals.length ≤ limit) :
    Small body limit w' ∧ w.reachedGrowth body ≤ w'.reachedGrowth body := by
  have hgrowth := h.reachedGrowth body
  refine ⟨⟨fun j k hk => ?_, fun j k hk => ?_⟩, by omega⟩
  · rw [h.frames j] at hk
    split at hk
    · next hj =>
      obtain rfl := Option.some.inj hk
      subst hj
      rcases h.recorded with ⟨hnone, rfl⟩ | ⟨r, hr, hjoin⟩
      · rw [hnone, Option.isNone_none, if_pos rfl] at hgrowth
        rw [hgrowth]
        exact Nat.add_le_add_right hheight _
      · obtain ⟨hlen, -, hstack⟩ := Frame.join_eq_ok hjoin
        have hold := hw.height j r hr
        rw [hstack, List.length_zipWith, ← hlen, Nat.min_self]
        omega
    · have := hw.height j k hk
      omega
  · rw [h.frames j] at hk
    split at hk
    · obtain rfl := Option.some.inj hk
      exact h.length_locals_le hlocals (hw.locals i)
    · exact hw.locals j k hk

theorem foldlM_arrive_small {body : Layout} {f : Frame} {targets : List Nat} {w w' : Worklist}
    {limit : Nat} (h : targets.foldlM (arrive f) w = .ok w') (hw : Small body limit w)
    (hheight : f.stack.length ≤ w.reachedGrowth body) (hlocals : f.locals.length ≤ limit) :
    Small body limit w' := by
  suffices hboth : Small body limit w' ∧ f.stack.length ≤ w'.reachedGrowth body from hboth.1
  refine foldlM_invariant (P := fun w => Small body limit w ∧ f.stack.length ≤ w.reachedGrowth body)
    h ⟨hw, hheight⟩ fun i _ w₁ w₂ hw₁ h₁ => ?_
  obtain ⟨_, harrived⟩ := arrive_eq_ok h₁
  obtain ⟨hw₂, hle⟩ := harrived.small hw₁.1 hw₁.2 hlocals
  exact ⟨hw₂, hw₁.2.trans hle⟩

/-- A state in which nothing but the queue and the limits differs. -/
theorem Small.congr {body : Layout} {w w' : Worklist} {limit : Nat} (hw : Small body limit w)
    (h : w'.frames = w.frames) : Small body limit w' := by
  have hat : ∀ i, w'.frameAt i = w.frameAt i := fun i => by rw [frameAt, h]; rfl
  have hgrowth : w'.reachedGrowth body = w.reachedGrowth body := by
    unfold reachedGrowth
    simp only [hat, h]
  refine ⟨fun i g hg => ?_, fun i g hg => hw.locals i g ((hat i).symm.trans hg)⟩
  rw [hgrowth]
  exact hw.height i g ((hat i).symm.trans hg)

/-- How many slots an instruction needs among the locals. -/
def slotsNeeded : Instruction → Nat
  | .var _ slot => slot.toNat + 2
  | _ => 0

/-- An instruction leaves no more locals than there were or than it needs. -/
theorem length_locals_after {thisClass : String} {index offset limit : Nat} {ins : Instruction}
    {f f' : Frame} (h : f.after thisClass index offset ins = .ok f')
    (hf : f.locals.length ≤ limit) (hins : slotsNeeded ins ≤ limit) :
    f'.locals.length ≤ limit := by
  have heffect := (Frame.after_effect h).locals
  generalize f'.locals = locals' at heffect
  cases heffect with
  | same => exact hf
  | @write op slot v _ _ =>
    have hneeded : slotsNeeded (.var op slot) = slot.toNat + 2 := rfl
    have hslots : v.slots ≤ 2 := by
      unfold VerificationType.slots
      split <;> omega
    rw [Frame.length_write]
    omega
  | construct => rwa [List.length_map]

/-- Executing an instruction keeps frames small. -/
theorem step_small {body : Layout} {w w' : Worklist} {index limit : Nat} {rest : List Nat}
    (hbody : ∀ ins ∈ body.instructions, slotsNeeded ins ≤ limit)
    (h : { w with queue := rest }.step body index = .ok w') (hw : Small body limit w) :
    Small body limit w' := by
  rcases step_eq_ok h with ⟨f, ins, f', targets, hf, hins, hafter, -, harrive⟩ | ⟨-, rfl⟩
  · have hmem : ins ∈ body.instructions := Array.mem_of_getElem? hins
    have hrecorded : w.frameAt index = some f := hf
    refine foldlM_arrive_small harrive (hw.congr rfl) ?_ ?_
    · have hbefore := hw.height index f hrecorded
      have hgrowth := (Frame.after_effect hafter).height
      rw [growthAt, hins] at hbefore
      exact hgrowth.trans hbefore
    · exact length_locals_after hafter (hw.locals index f hrecorded) (hbody ins hmem)
  · exact hw.congr rfl

theorem start_small {body : Layout} {entry : Frame} {limit : Nat}
    (hstack : entry.stack = []) (hlocals : entry.locals.length ≤ limit) :
    Small body limit (start body.instructions.size entry) := by
  refine ⟨fun i g hg => ?_, fun i g hg => ?_⟩
  · obtain ⟨rfl, -, rfl⟩ := frameAt_start.1 hg
    rw [hstack, List.length_nil, Nat.zero_add]
    have hsize : (0 : Nat) < (start body.instructions.size g).frames.size := by
      unfold frameAt at hg
      exact (Array.getElem?_eq_some_iff.1 (Option.join_eq_some_iff.1 hg)).1
    have hle := Finset.single_le_sum (f := fun i =>
      if ((start body.instructions.size g).frameAt i).isSome then growthAt body i else 0)
      (fun _ _ => Nat.zero_le _) (Finset.mem_range.2 hsize)
    simp only [hg, Option.isSome_some, if_true] at hle
    exact hle
  · obtain ⟨-, -, rfl⟩ := frameAt_start.1 hg
    exact hlocals

/-- The instructions reached push no more than all instructions of the body. -/
theorem reachedGrowth_le {body : Layout} {w : Worklist}
    (hsize : w.frames.size = body.instructions.size) :
    w.reachedGrowth body ≤ total growth body.instructions.toList := by
  have hall : ∀ n, (∑ i ∈ Finset.range n, growthAt body i) =
      total growth (body.instructions.toList.take n) := by
    intro n
    induction n with
    | zero => rfl
    | succ n ih =>
      rw [Finset.sum_range_succ, ih, List.take_add_one, total_append]
      congr 1
      rw [growthAt, ← Array.getElem?_toList]
      cases body.instructions.toList[n]? <;> rfl
  have hterm : ∀ i ∈ Finset.range w.frames.size,
      (if (w.frameAt i).isSome then growthAt body i else 0) ≤ growthAt body i := by
    intro i _
    split
    · exact Nat.le_refl _
    · exact Nat.zero_le _
  refine (Finset.sum_le_sum hterm).trans ?_
  rw [hall, hsize, List.take_of_length_le (by simp)]

end Worklist

/-! ## The end of an analysis -/

/-- The frames that an analysis records: their stacks are no higher than all instructions can make
them, and their locals no more than the entry frame and the instructions need. -/
theorem Layout.analyze_size {body : Layout} {owner method : String} {isStatic : Bool}
    {d : MethodDescriptor} {a : Analysis} {limit : Nat}
    (h : body.analyze (Frame.entry owner method isStatic d) = .ok a)
    (hentry : (Frame.entry owner method isStatic d).locals.length ≤ limit)
    (hbody : ∀ ins ∈ body.instructions, Worklist.slotsNeeded ins ≤ limit) {i : Nat} {g : Frame}
    (hg : (a.frames[i]?).join = some g) :
    g.stack.length ≤ total Frame.growth body.instructions.toList ∧ g.locals.length ≤ limit := by
  obtain ⟨w, hempty, hrun, -, -, -, hframes⟩ := analyze_eq_ok h
  obtain ⟨hsound, -⟩ := run_sound hempty (Frame.paired_entry owner method isStatic d) hrun
  have hsmall : Worklist.Small body limit w :=
    (Worklist.run_invariant (fun _ _ _ _ _ hstep hw => Worklist.step_small hbody hstep hw)
      (fun _ hw => hw.congr rfl) hrun (Worklist.start_small rfl hentry)).1
  have hat : w.frameAt i = some g := by rw [Worklist.frameAt, ← hframes]; exact hg
  have hheight := hsmall.height i g hat
  have hreached := Worklist.reachedGrowth_le hsound.size
  exact ⟨by omega, hsmall.locals i g hat⟩

end EntityLoom
