import EntityLoom.Proofs.Frame.Paths

/-!
# The analysis in any order

An analysis executes the instruction that has waited longest.  Here that choice is left open.
`Takes` is one step, which executes any of the waiting instructions, and `Ends` relates a state to
each end that some order of steps comes to.

No order goes on for ever (`wellFounded_takes`), and the order of `run` is one of them (`ends_run`).
`Ends.invariant` is the rule for reasoning about all orders at once: what every step keeps holds at
each end that is no failure, and no instruction waits there.
-/

namespace EntityLoom.Worklist

variable {body : Layout} {w w' : Worklist} {r : Except EmissionError Worklist}

/-! ## Steps in any order -/

/-- The state in which an instruction waits no longer. -/
def dequeue (w : Worklist) (index : Nat) : Worklist :=
  { w with queue := w.queue.erase index }

/-- Executes one of the waiting instructions. -/
structure Takes (body : Layout) (w w' : Worklist) (index : Nat) : Prop where
  waits : index ∈ w.queue
  steps : (w.dequeue index).step body index = .ok w'

/-- The ends that a state comes to when the waiting instructions are executed in some order.  The
mark of a round can be taken back at any time, since no step looks at it. -/
inductive Ends (body : Layout) : Worklist → Except EmissionError Worklist → Prop
  | done {w : Worklist} (idle : w.queue = []) : Ends body w (.ok w)
  | fail {w : Worklist} {index : Nat} {e : EmissionError} (waits : index ∈ w.queue)
    (fails : (w.dequeue index).step body index = .error e) : Ends body w (.error e)
  | take {w w' : Worklist} {index : Nat} {r : Except EmissionError Worklist}
    (takes : Takes body w w' index) (ends : Ends body w' r) : Ends body w r
  | round {w : Worklist} {r : Except EmissionError Worklist}
    (ends : Ends body { w with fresh := false } r) : Ends body w r

/-- The other waiting instructions still wait. -/
theorem mem_dequeue_of_mem {index i : Nat} (h : i ∈ w.queue) :
    i = index ∨ i ∈ (w.dequeue index).queue := by
  by_cases hi : i = index
  · exact .inl hi
  · exact .inr ((List.mem_erase_of_ne hi).2 h)

theorem dequeue_of_queue_eq_cons {index : Nat} {rest : List Nat} (h : w.queue = index :: rest) :
    w.dequeue index = { w with queue := rest } := by
  unfold dequeue
  rw [h, List.erase_cons_head]

/-! ## Every order ends -/

theorem Takes.further {index : Nat} (h : Takes body w w' index) : Further w w' := by
  have hlt : (w.queue.erase index).length < w.queue.length := by
    have := List.length_pos_of_mem h.waits
    rw [List.length_erase_of_mem h.waits]
    omega
  exact next_further hlt h.steps

/-- No order of steps goes on for ever. -/
theorem wellFounded_takes (body : Layout) :
    WellFounded fun w' w => ∃ index, Takes body w w' index := by
  have hwf := InvImage.wf (fun w : Worklist => (w.unreached, w.load))
    (Prod.lex Nat.lt_wfRel Nat.lt_wfRel).wf
  refine Subrelation.wf (fun {w' w} h => ?_) hwf
  obtain ⟨index, htakes⟩ := h
  rcases htakes.further with ⟨-, hu⟩ | ⟨-, hu, hl⟩
  · exact Prod.Lex.left _ _ hu
  · show Prod.Lex _ _ (w'.unreached, w'.load) (w.unreached, w.load)
    rw [hu]
    exact Prod.Lex.right _ hl

/-! ## First come, first served -/

theorem takes_of_queue_eq_cons {index : Nat} {rest : List Nat} (hq : w.queue = index :: rest)
    (h : { w with queue := rest }.step body index = .ok w') : Takes body w w' index :=
  ⟨by simp [hq], (dequeue_of_queue_eq_cons hq).symm ▸ h⟩

theorem ends_round_of_error {e : EmissionError} (h : w.round body = .error e) :
    Ends body w (.error e) := by
  fun_induction Worklist.round body w with
  | case1 => cases h
  | case2 w index rest hq e' he =>
    obtain rfl : e' = e := by simpa using h
    have hwaits : index ∈ w.queue := by simp [hq]
    exact .fail hwaits ((dequeue_of_queue_eq_cons hq).symm ▸ he)
  | case3 => cases h
  | case4 w index rest hq w₁ h₁ hf₁ ih => exact .take (takes_of_queue_eq_cons hq h₁) (ih h)

theorem ends_round_of_ok (h : w.round body = .ok w') (hr : Ends body w' r) : Ends body w r := by
  fun_induction Worklist.round body w with
  | case1 w hq =>
    obtain rfl : w = w' := by simpa using h
    exact hr
  | case2 => cases h
  | case3 w index rest hq w₁ h₁ hf₁ =>
    obtain rfl : w₁ = w' := by simpa using h
    exact .take (takes_of_queue_eq_cons hq h₁) hr
  | case4 w index rest hq w₁ h₁ hf₁ ih => exact .take (takes_of_queue_eq_cons hq h₁) (ih h)

/-- A run comes to one of the ends. -/
theorem ends_run (body : Layout) (w : Worklist) : Ends body w (w.run body) := by
  fun_induction Worklist.run body w with
  | case1 w e he => exact .round (ends_round_of_error he)
  | case2 w w₁ h₁ hf ih => exact .round (ends_round_of_ok h₁ ih)
  | case3 w w₁ h₁ hf =>
    have hround : True ∧ (w₁.fresh = false → w₁.queue = []) :=
      round_invariant (fun _ _ _ _ _ _ _ => trivial) h₁ trivial
    exact .round (ends_round_of_ok h₁ (.done (hround.2 (by simpa using hf))))

/-! ## What every order keeps -/

/-- What every step keeps holds at the end, and then no instruction waits. -/
theorem Ends.invariant {Inv : Worklist → Prop}
    (hstep : ∀ w index w', Takes body w w' index → Inv w → Inv w')
    (hround : ∀ w, Inv w → Inv { w with fresh := false })
    (h : Ends body w (.ok w')) (hw : Inv w) : Inv w' ∧ w'.queue = [] := by
  generalize hr : Except.ok w' = r at h
  induction h with
  | done idle =>
    obtain rfl := Except.ok.inj hr
    exact ⟨hw, idle⟩
  | fail => cases hr
  | take takes _ ih => exact ih (hstep _ _ _ takes hw) hr
  | round _ ih => exact ih (hround _ hw) hr

/-- There is room for as many frames as at the start. -/
theorem Ends.size (h : Ends body w (.ok w')) : w'.frames.size = w.frames.size := by
  have hsame : w'.frames.size = w.frames.size ∧ w'.queue = [] := by
    refine @Ends.invariant body w w' (fun v => v.frames.size = w.frames.size) ?_ (fun _ hv => hv) h rfl
    intro v index v' htakes hv
    rcases step_eq_ok htakes.steps with ⟨f, ins, f', targets, -, -, -, -, harrive⟩ | ⟨-, rfl⟩
    · exact (foldlM_arrive harrive).1.size.trans hv
    · exact hv
  exact hsame.1

/-- Each end keeps the promises of the analysis. -/
theorem Ends.sound {entry : Frame} (h : Ends body w (.ok w')) (hw : Sound body entry w) :
    Sound body entry w' ∧ w'.queue = [] :=
  h.invariant
    (fun _ _ _ htakes hw => step_sound (fun _ hi => mem_dequeue_of_mem hi) htakes.steps hw)
    (fun _ hw => ⟨hw.size, hw.entry, hw.shape, hw.settled⟩) hw

end EntityLoom.Worklist
