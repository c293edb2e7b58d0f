import EntityLoom.Proofs.Frame.Schedule

/-!
# Typed bodies

An assignment of frames types a body when executing each assigned instruction from its frame goes on
to assigned places, below their frames (`Layout.TypedBy`).  `Layout.Typing` is the case in which
every instruction is assigned.  A body that has a typing and no instruction that control never
reaches passes the analysis, or is too large for it (`Layout.Typing.analyze`).

The analysis never rises above a typing.  That is the invariant of its steps (`Worklist.Within`): a
frame that arrives is below the named one, and so is the join with what is recorded there, since a
join is the least frame above both.  Execution is monotone, so no step fails, in whatever order the
steps are taken (`Worklist.Ends.within`).
-/

namespace EntityLoom

/-! ## Joins are least -/

namespace VerificationType

theorem merge_below {a b c : VerificationType} (ha : a.Below c) (hb : b.Below c) :
    (a.merge b).Below c := by
  by_cases htop : c = top
  · rw [htop]
    exact below_top _
  · by_cases hobject : ∃ name, c = object name
    · obtain ⟨name, rfl⟩ := hobject
      rcases below_object_iff.1 ha with rfl | rfl | ⟨rfl, n, rfl⟩ <;>
        rcases below_object_iff.1 hb with rfl | rfl | ⟨hname, n', rfl⟩ <;>
        simp only [merge] <;> (try split) <;> simp_all [below_object_iff]
    · rw [eq_of_below ha htop fun name e => hobject ⟨name, e⟩,
        eq_of_below hb htop fun name e => hobject ⟨name, e⟩, merge_self]
      exact below_refl c

end VerificationType

namespace Frame

theorem zipWith_merge_below {xs ys zs : List VerificationType}
    (hx : List.Forall₂ VerificationType.Below xs zs)
    (hy : List.Forall₂ VerificationType.Below ys zs) :
    List.Forall₂ VerificationType.Below (List.zipWith VerificationType.merge xs ys) zs := by
  induction hx generalizing ys with
  | nil =>
    rw [List.zipWith_nil_left]
    exact .nil
  | cons hx _ ih =>
    cases hy with
    | cons hy hrest =>
      rw [List.zipWith_cons_cons]
      exact .cons (VerificationType.merge_below hx hy) (ih hrest)

/-- Two frames below a third have a join, and it is below the third. -/
theorem join_below {f g k : Frame} (index : Nat) (hf : f.Below k) (hg : g.Below k) :
    ∃ joined, f.join index g = .ok joined ∧ joined.Below k := by
  have hlen : f.stack.length = g.stack.length :=
    hf.stack.length_eq.trans hg.stack.length_eq.symm
  unfold join
  rw [if_neg (not_not_intro hlen)]
  refine ⟨_, rfl, zipWith_merge_below hf.stack hg.stack, fun i => ?_⟩
  rw [slotOf_trimLocals, slotOf_joinLocals]
  exact VerificationType.merge_below (hf.locals i) (hg.locals i)

theorem trim_below {f g : Frame} (h : f.Below g) : f.trim.Below g :=
  ⟨h.stack, fun i => by
    rw [trim, slotOf_trimLocals]
    exact h.locals i⟩

end Frame

/-! ## Typings -/

namespace Layout

/-- An assignment of frames to places of a body: the entry frame is below the first one, and each
assigned instruction executes from its frame and goes on to assigned places, below their frames. -/
structure TypedBy (body : Layout) (entry : Frame) (frames : Nat → Option Frame) : Prop where
  entry : ∃ g, frames 0 = some g ∧ entry.Below g
  executes : ∀ i f, frames i = some f →
    ∃ ins f' targets, body.instructions[i]? = some ins ∧
      f.after body.thisClass i (body.offsets.getD i 0) ins = .ok f' ∧
      Worklist.successors body i ins = .ok targets ∧
      ∀ t ∈ targets, ∃ g, frames t = some g ∧ f'.Below g

/-- A frame for each instruction of a body, such that control goes on below the named frames and
never leaves the body. -/
structure Typing (body : Layout) (entry : Frame) (frames : Nat → Frame) : Prop where
  nonempty : 0 < body.instructions.size
  entry : entry.Below (frames 0)
  executes : ∀ i ins, body.instructions[i]? = some ins →
    ∃ f' targets,
      (frames i).after body.thisClass i (body.offsets.getD i 0) ins = .ok f' ∧
      Worklist.successors body i ins = .ok targets ∧
      ∀ t ∈ targets, t < body.instructions.size ∧ f'.Below (frames t)

variable {body : Layout} {entry : Frame}

/-- Assigned places are in the body. -/
theorem TypedBy.inside {frames : Nat → Option Frame} (h : body.TypedBy entry frames) {i : Nat}
    {f : Frame} (hf : frames i = some f) : i < body.instructions.size := by
  obtain ⟨ins, -, -, hins, -⟩ := h.executes i f hf
  exact (Array.getElem?_eq_some_iff.1 hins).1

/-- A frame for each instruction is an assignment to all of them. -/
theorem Typing.typedBy {frames : Nat → Frame} (h : body.Typing entry frames) :
    body.TypedBy entry fun i => if i < body.instructions.size then some (frames i) else none := by
  refine ⟨⟨frames 0, if_pos h.nonempty, h.entry⟩, fun i f hf => ?_⟩
  split at hf
  · next hi =>
    obtain rfl := Option.some.inj hf
    have hins := Array.getElem?_eq_getElem hi
    obtain ⟨f', targets, hafter, htargets, hbelow⟩ := h.executes i _ hins
    refine ⟨_, f', targets, hins, hafter, htargets, fun t ht => ?_⟩
    obtain ⟨hinside, hft⟩ := hbelow t ht
    exact ⟨frames t, if_pos hinside, hft⟩
  · cases hf

end Layout

namespace Worklist

variable {body : Layout} {entry : Frame} {frames : Nat → Option Frame} {w : Worklist}

/-- The recorded frames are below assigned ones. -/
structure Within (body : Layout) (frames : Nat → Option Frame) (w : Worklist) : Prop where
  size : w.frames.size = body.instructions.size
  below : ∀ i f, w.frameAt i = some f → ∃ g, frames i = some g ∧ f.Below g

/-- Only the recorded frames matter. -/
theorem Within.congr {w' : Worklist} (hw : w.Within body frames) (h : w'.frames = w.frames) :
    w'.Within body frames := by
  refine ⟨h ▸ hw.size, fun i f hf => hw.below i f ?_⟩
  unfold frameAt at hf ⊢
  rw [← h]
  exact hf

theorem Arrived.within {f g k : Frame} {w' : Worklist} {i : Nat} (h : Arrived f w w' i g)
    (hk : frames i = some k) (hg : g.Below k) (hw : w.Within body frames) :
    w'.Within body frames := by
  refine ⟨h.size.trans hw.size, fun j l hl => ?_⟩
  rw [h.frames j] at hl
  split at hl
  · next hj =>
    obtain rfl := Option.some.inj hl
    exact ⟨k, hj ▸ hk, hg⟩
  · exact hw.below j l hl

/-- An arrival below an assigned frame succeeds. -/
theorem Within.arrive {f k : Frame} {i : Nat} (hw : w.Within body frames)
    (hi : i < body.instructions.size) (hk : frames i = some k) (hf : f.Below k) :
    ∃ w', w.arrive f i = .ok w' ∧ w'.Within body frames := by
  have hbelow : ∀ r, w.frameAt i = some r → r.Below k := by
    intro r hr
    obtain ⟨k', hk', hrk⟩ := hw.below i r hr
    obtain rfl := Option.some.inj (hk.symm.trans hk')
    exact hrk
  have hsucceeds : ∃ w', w.arrive f i = .ok w' := by
    unfold Worklist.arrive
    rw [dif_pos (hw.size ▸ hi)]
    split
    · exact ⟨_, rfl⟩
    · next recorded hsome =>
      have hrecorded : w.frameAt i = some recorded := by
        unfold frameAt
        rw [Array.getElem?_eq_getElem (hw.size ▸ hi), hsome]
        rfl
      obtain ⟨joined, hjoin, -⟩ := Frame.join_below i (hbelow recorded hrecorded) hf
      rw [hjoin]
      simp only [bind, Except.bind]
      split <;> exact ⟨_, rfl⟩
  obtain ⟨w', hw'⟩ := hsucceeds
  obtain ⟨g, harrived⟩ := arrive_eq_ok hw'
  refine ⟨w', hw', harrived.within hk ?_ hw⟩
  rcases harrived.recorded with ⟨-, rfl⟩ | ⟨r, hr, hjoin⟩
  · exact Frame.trim_below hf
  · obtain ⟨joined, hjoin', hjk⟩ := Frame.join_below i (hbelow r hr) hf
    obtain rfl := Except.ok.inj (hjoin.symm.trans hjoin')
    exact hjk

theorem Within.foldlM_arrive {f : Frame} {targets : List Nat} (hw : w.Within body frames)
    (h : ∀ t ∈ targets, t < body.instructions.size ∧ ∃ k, frames t = some k ∧ f.Below k) :
    ∃ w', targets.foldlM (Worklist.arrive f) w = .ok w' ∧ w'.Within body frames := by
  induction targets generalizing w with
  | nil => exact ⟨w, rfl, hw⟩
  | cons t targets ih =>
    obtain ⟨⟨ht, k, hk, hbelow⟩, hrest⟩ := List.forall_mem_cons.1 h
    obtain ⟨w₁, h₁, hw₁⟩ := hw.arrive ht hk hbelow
    obtain ⟨w', h', hw'⟩ := ih hw₁ hrest
    exact ⟨w', foldlM_cons_eq_ok.2 ⟨w₁, h₁, h'⟩, hw'⟩

/-- No step fails on a typed body, and none rises above the typing. -/
theorem Within.step (htyped : body.TypedBy entry frames) (hw : w.Within body frames)
    (index : Nat) : ∃ w', w.step body index = .ok w' ∧ w'.Within body frames := by
  unfold Worklist.step
  split
  · next f ins hf hins =>
    obtain ⟨k, hk, hfk⟩ := hw.below index f hf
    obtain ⟨ins', g', targets, hins', hafter, htargets, hbelow⟩ := htyped.executes index k hk
    obtain rfl := Option.some.inj (hins.symm.trans hins')
    obtain ⟨f', hf', hfg'⟩ := Frame.after_mono hfk hafter
    rw [hf', htargets]
    simp only [bind, Except.bind]
    refine Within.foldlM_arrive (hw.congr rfl) fun t ht => ?_
    obtain ⟨g, hg, hgg⟩ := hbelow t ht
    exact ⟨htyped.inside hg, g, hg, hfg'.trans hgg⟩
  · exact ⟨w, rfl, hw⟩

/-- On a typed body no order of steps fails, and none rises above the typing. -/
theorem Ends.within {r : Except EmissionError Worklist} (h : Ends body w r)
    (htyped : body.TypedBy entry frames) (hw : w.Within body frames) :
    ∃ w', r = .ok w' ∧ w'.Within body frames := by
  induction h with
  | @done w idle => exact ⟨w, rfl, hw⟩
  | @fail w index e waits fails =>
    obtain ⟨w', hstep, -⟩ := Within.step htyped (w := w.dequeue index) (hw.congr rfl) index
    rw [hstep] at fails
    cases fails
  | @take w w₁ index r takes ends ih =>
    obtain ⟨w', hstep, hwithin⟩ := Within.step htyped (w := w.dequeue index) (hw.congr rfl) index
    obtain rfl := Except.ok.inj (takes.steps.symm.trans hstep)
    exact ih hwithin
  | round ends ih => exact ih (hw.congr rfl)

theorem start_within {k : Frame} (hk : frames 0 = some k) (hentry : entry.Below k) :
    (start body.instructions.size entry).Within body frames := by
  refine ⟨by simp [start], fun i f hf => ?_⟩
  obtain ⟨rfl, -, rfl⟩ := frameAt_start.1 hf
  exact ⟨k, hk, hentry⟩

theorem limit_cases (n : Nat) : (∃ m, limit n = .ok m) ∨ limit n = .error (.codeTooLarge n) := by
  unfold limit
  split
  · exact .inl ⟨_, rfl⟩
  · exact .inr rfl

end Worklist

namespace Layout

variable {body : Layout} {entry : Frame} {frames : Nat → Frame}

/-- What the analysis answers where its run succeeds and leaves no dead instruction. -/
theorem analyze_of_run {w : Worklist} (hempty : body.instructions.isEmpty = false)
    (hrun : Worklist.run body (.start body.instructions.size entry) = .ok w)
    (hdead : w.firstDead? body = none) :
    body.analyze entry =
      (do return ⟨← Worklist.limit w.maxStack, ← Worklist.limit w.maxLocals, w.frames⟩) := by
  unfold Layout.analyze
  rw [if_neg (by simp [hempty]), hrun]
  simp only [bind, Except.bind, hdead]

/-- A typed body of which control reaches every instruction passes the analysis, which records a
frame for each instruction, or is too large for it. -/
theorem Typing.analyze (htyping : body.Typing entry frames) (hentry : Frame.Paired entry.locals)
    (hreached : ∀ i < body.instructions.size, ∃ visited, body.Path visited i) :
    (∃ a, body.analyze entry = .ok a ∧
      ∀ i < body.instructions.size, ∃ g, (a.frames[i]?).join = some g) ∨
    ∃ n, body.analyze entry = .error (.codeTooLarge n) := by
  have hempty : body.instructions.isEmpty = false := by
    simpa [Array.isEmpty] using Nat.ne_of_gt htyping.nonempty
  obtain ⟨k, hk, hbelow⟩ := htyping.typedBy.entry
  obtain ⟨w, hrun, -⟩ := (Worklist.ends_run body (.start body.instructions.size entry)).within
    htyping.typedBy (Worklist.start_within hk hbelow)
  obtain ⟨hw, hqueue⟩ := run_sound hempty hentry hrun
  have hframes : ∀ i < body.instructions.size, ∃ g, w.frameAt i = some g := by
    intro i hi
    obtain ⟨visited, hpath⟩ := hreached i hi
    obtain ⟨-, g, -, hg, -⟩ := path_below hw hqueue hpath
    exact ⟨g, hg⟩
  have hdead : w.firstDead? body = none :=
    firstDead?_eq_none.2 fun i ins hins _ => hframes i (Array.getElem?_eq_some_iff.1 hins).1
  rw [analyze_of_run hempty hrun hdead]
  rcases Worklist.limit_cases w.maxStack with ⟨maxStack, hstack⟩ | hstack
  · rcases Worklist.limit_cases w.maxLocals with ⟨maxLocals, hlocals⟩ | hlocals
    · rw [hstack, hlocals]
      exact .inl ⟨_, rfl, hframes⟩
    · rw [hstack, hlocals]
      exact .inr ⟨_, rfl⟩
  · rw [hstack]
    exact .inr ⟨_, rfl⟩

end Layout

end EntityLoom
