import EntityLoom.Proofs.Frame.Paths

/-!
# Recorded frames and the flow of control

The frames that a successful analysis records are closed under the flow of control: from a recorded
frame an instruction goes on to frames below the recorded ones, every instruction but marks has a
frame, and a place has one only if control comes there (`Layout.analyze_flows`).

That a place with a frame is reached is an invariant of its own, `Worklist.Reached`: frames are
recorded by arrivals only, and an arrival comes from an instruction that has a frame.
-/

namespace EntityLoom

/-- The frame that an analysis recorded for a place. -/
def Analysis.frameAt (a : Analysis) (i : Nat) : Option Frame := (a.frames[i]?).join

namespace Worklist

/-! ## Places with a frame are reached -/

/-- Control can go to each of the successors of an instruction. -/
theorem edge_of_mem_successors {body : Layout} {i t : Nat} {ins : Instruction} {targets : List Nat}
    (hins : body.instructions[i]? = some ins) (h : successors body i ins = .ok targets)
    (ht : t ∈ targets) : body.Edge i t := by
  have hnext : t ∈ (if ins.fallsThrough then [i + 1] else []) → body.Edge i t := by
    intro ht
    split at ht
    · next hfalls =>
      obtain rfl := List.mem_singleton.1 ht
      exact .next hins hfalls
    · cases ht
  unfold successors at h
  dsimp only at h
  split at h
  · split at h
    · next op label target hbound =>
      obtain rfl := Except.ok.inj h
      rcases List.mem_append.1 ht with ht | ht
      · exact hnext ht
      · obtain rfl := List.mem_singleton.1 ht
        exact .jump hins hbound
    · cases h
  · obtain rfl := Except.ok.inj h
    exact hnext ht

/-- A place with a frame is the first one, or control comes there from one with a frame. -/
def Reached (body : Layout) (w : Worklist) : Prop :=
  ∀ j g, w.frameAt j = some g → j = 0 ∨ ∃ i f, w.frameAt i = some f ∧ body.Edge i j

theorem Reached.congr {body : Layout} {w w' : Worklist} (hw : w.Reached body)
    (h : w'.frames = w.frames) : w'.Reached body := by
  have hat : ∀ i, w'.frameAt i = w.frameAt i := fun i => by rw [frameAt, h]; rfl
  intro j g hg
  simp only [hat] at hg ⊢
  exact hw j g hg

/-- An arrival from an instruction that has a frame. -/
theorem Reached.arrived {body : Layout} {f f₀ g : Frame} {w w' : Worklist} {i t : Nat}
    (hw : w.Reached body) (h : Arrived f w w' t g) (hi : w.frameAt i = some f₀)
    (hedge : body.Edge i t) : w'.Reached body := by
  have hadv := h.advances.1
  intro j k hk
  by_cases hj : j = t
  · subst hj
    obtain ⟨f₁, hf₁, -⟩ := hadv.rises i f₀ hi
    exact .inr ⟨i, f₁, hf₁, hedge⟩
  · rw [h.frames j, if_neg hj] at hk
    refine (hw j k hk).imp_right ?_
    rintro ⟨i', f', hf', hedge'⟩
    obtain ⟨f₁, hf₁, -⟩ := hadv.rises i' f' hf'
    exact ⟨i', f₁, hf₁, hedge'⟩

theorem Reached.foldlM_arrive {body : Layout} {f f₀ : Frame} {targets : List Nat}
    {w w' : Worklist} {i : Nat} (hw : w.Reached body)
    (h : targets.foldlM (arrive f) w = .ok w') (hi : w.frameAt i = some f₀)
    (htargets : ∀ t ∈ targets, body.Edge i t) : w'.Reached body := by
  suffices hboth : w'.Reached body ∧ ∃ f₁, w'.frameAt i = some f₁ from hboth.1
  refine foldlM_invariant (P := fun w => w.Reached body ∧ ∃ f₁, w.frameAt i = some f₁) h
    ⟨hw, f₀, hi⟩ fun t ht w₁ w₂ hw₁ h₁ => ?_
  obtain ⟨hreached, f₁, hf₁⟩ := hw₁
  obtain ⟨g, harrived⟩ := arrive_eq_ok h₁
  obtain ⟨f₂, hf₂, -⟩ := harrived.advances.1.rises i f₁ hf₁
  exact ⟨hreached.arrived harrived hf₁ (htargets t ht), f₂, hf₂⟩

theorem Reached.step {body : Layout} {w w' : Worklist} {index : Nat} (hw : w.Reached body)
    (h : w.step body index = .ok w') : w'.Reached body := by
  rcases step_eq_ok h with ⟨f, ins, f', targets, hf, hins, -, htargets, harrive⟩ | ⟨-, rfl⟩
  · refine Reached.foldlM_arrive ?_ harrive hf fun t ht => edge_of_mem_successors hins htargets ht
    exact hw.congr rfl
  · exact hw

theorem start_reached (body : Layout) (size : Nat) (entry : Frame) :
    (start size entry).Reached body :=
  fun _ _ hg => .inl (frameAt_start.1 hg).1

end Worklist

namespace Layout

variable {body : Layout} {entry : Frame} {a : Analysis}

/-! ## The end of an analysis -/

/-- What the recorded frames of an analysis are: the entry frame is below the first one, control
leads from recorded frames to frames below recorded ones, all places with a frame are in the body
and are reached from others, and all instructions but marks have one. -/
structure Flows (body : Layout) (entry : Frame) (a : Analysis) : Prop where
  entry : ∃ g, a.frameAt 0 = some g ∧ entry.Below g
  edge : ∀ i f j, a.frameAt i = some f → body.Edge i j →
    ∃ f' g, body.executeAt f i = .ok f' ∧ a.frameAt j = some g ∧ f'.Below g
  inside : ∀ i f, a.frameAt i = some f → i < body.instructions.size
  origin : ∀ j g, a.frameAt j = some g → j = 0 ∨ ∃ i f, a.frameAt i = some f ∧ body.Edge i j
  executed : ∀ i ins, body.instructions[i]? = some ins → ins.isMark = false →
    ∃ f f', a.frameAt i = some f ∧ body.executeAt f i = .ok f'
  locals : ∀ i f, a.frameAt i = some f → f.locals.length ≤ a.maxLocals.toNat

theorem analyze_flows (hentry : Frame.Paired entry.locals) (h : body.analyze entry = .ok a) :
    body.Flows entry a := by
  obtain ⟨w, hempty, hrun, hdead, -, hlocals, hframes⟩ := analyze_eq_ok h
  obtain ⟨hw, hqueue⟩ := run_sound hempty hentry hrun
  have hreached : w.Reached body :=
    (Worklist.run_invariant (fun w index rest w' _ hstep hw =>
        Worklist.Reached.step (w := { w with queue := rest }) (hw.congr rfl) hstep)
      (fun _ hw => hw.congr rfl) hrun (Worklist.start_reached body _ entry)).1
  have hat : ∀ i, a.frameAt i = w.frameAt i := fun i => by rw [Analysis.frameAt, hframes]; rfl
  have hexecutes : ∀ i f ins, w.frameAt i = some f → body.instructions[i]? = some ins →
      ∃ f', body.executeAt f i = .ok f' ∧
        ∀ j, body.Edge i j → ∃ g, w.frameAt j = some g ∧ f'.Below g := by
    intro i f ins hf hins
    have hsettled := hw.settled i (by rw [hqueue]; simp)
    obtain ⟨f', targets, hafter, htargets, -, hbelow⟩ := hsettled f ins hf hins
    refine ⟨f', ?_, fun j hedge => hbelow j (mem_successors hins hedge htargets)⟩
    rw [executeAt, hins]
    exact hafter
  refine ⟨?_, fun i f j hf hedge => ?_, fun i f hf => ?_, fun j g hg => ?_, fun i ins hins hmark => ?_,
    fun i f hf => ?_⟩
  · rw [hat]
    exact hw.entry
  · obtain ⟨ins, hins⟩ := hedge.instruction
    obtain ⟨f', hf', hflow⟩ := hexecutes i f ins (hat i ▸ hf) hins
    obtain ⟨g, hg, hbelow⟩ := hflow j hedge
    exact ⟨f', g, hf', (hat j).trans hg, hbelow⟩
  · rw [hat] at hf
    rw [← hw.size]
    exact (Array.getElem?_eq_some_iff.1 (Option.join_eq_some_iff.1 hf)).1
  · rw [hat] at hg
    refine (hreached j g hg).imp_right ?_
    rintro ⟨i, f, hf, hedge⟩
    exact ⟨i, f, (hat i).trans hf, hedge⟩
  · obtain ⟨f, hf⟩ := firstDead?_eq_none.1 hdead i ins hins hmark
    obtain ⟨f', hf', -⟩ := hexecutes i f ins hf hins
    exact ⟨f, f', (hat i).trans hf, hf'⟩
  · rw [hlocals]
    exact (hw.shape i f (hat i ▸ hf)).2

end Layout

end EntityLoom
