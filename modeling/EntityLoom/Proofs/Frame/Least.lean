import EntityLoom.Proofs.Frame.Flow
import EntityLoom.Proofs.Frame.Typing

/-!
# The analysis finds the least typing

The analysis accepts exactly the bodies that some assignment of frames types and that hold no dead
instruction, and the frames it records are the least that type the body (`Layout.analyze_least`).
Neither the acceptance nor the frames depend on the order in which waiting instructions are executed
(`Layout.OrderFree`).  The limits may: a frame that a join replaces later on counts for them if it
was executed before.

Two facts carry the proof.  Where an order of steps comes to an end without a failure, the recorded
frames type the body, since whatever does not wait is settled; and they are below every assignment
that does, which `Worklist.Ends.within` says.  So two orders record frames below each other.  That
such frames are equal takes a third fact: recorded locals are trimmed, but for those of the entry
frame, which keep their shape until control comes back to the first instruction
(`Worklist.Trimmed`).
-/

namespace EntityLoom

/-! ## Frames below each other -/

theorem VerificationType.Below.antisymm {a b : VerificationType} (h : a.Below b)
    (h' : b.Below a) : a = b :=
  calc a = a.merge b := h'.symm
    _ = b.merge a := merge_comm a b
    _ = b := h

namespace Frame

theorem forall₂_below_antisymm {xs ys : List VerificationType}
    (h : List.Forall₂ VerificationType.Below xs ys)
    (h' : List.Forall₂ VerificationType.Below ys xs) : xs = ys := by
  induction h with
  | nil => rfl
  | cons hxy _ ih =>
    cases h' with
    | cons hyx hrest => rw [hxy.antisymm hyx, ih hrest]

/-- Paired locals do not end in a wide value. -/
theorem Paired.not_isWide_getLast? {locals : List VerificationType} (h : Paired locals) :
    ¬locals.getLast?.any VerificationType.isWide := by
  intro hwide
  cases hlast : locals.getLast? with
  | none =>
    rw [hlast] at hwide
    cases hwide
  | some v =>
    rw [hlast, Option.any_some] at hwide
    rw [List.getLast?_eq_getElem?] at hlast
    have hslot : slotOf locals (locals.length - 1) = v := by
      rw [slotOf, List.getD_eq_getElem?_getD, hlast, Option.getD_some]
    have hlt := (List.getElem?_eq_some_iff.1 hlast).1
    have hnext := (h (locals.length - 1) (hslot ▸ hwide)).1
    omega

/-- Paired locals that are the same slot by slot are the same once they are trimmed. -/
theorem trimLocals_eq_of_slotOf {xs ys : List VerificationType} (hx : Paired xs) (hy : Paired ys)
    (h : ∀ i, slotOf xs i = slotOf ys i) : trimLocals xs = trimLocals ys := by
  have hfill : padTo (max xs.length ys.length) xs = padTo (max xs.length ys.length) ys := by
    apply List.ext_getElem
    · rw [length_padTo, length_padTo]
      omega
    · intro i hi hi'
      have hslot := h i
      rw [← slotOf_padTo (max xs.length ys.length) xs, ← slotOf_padTo (max xs.length ys.length) ys,
        slotOf, slotOf, List.getD_eq_getElem?_getD, List.getD_eq_getElem?_getD,
        List.getElem?_eq_getElem hi, List.getElem?_eq_getElem hi'] at hslot
      exact hslot
  calc trimLocals xs
      = trimLocals (padTo (max xs.length ys.length) xs) := by
        rw [trimLocals_padTo, if_neg fun hwide => hx.not_isWide_getLast? hwide.2]
    _ = trimLocals (padTo (max xs.length ys.length) ys) := by rw [hfill]
    _ = trimLocals ys := by
        rw [trimLocals_padTo, if_neg fun hwide => hy.not_isWide_getLast? hwide.2]

/-- Frames below each other are the same once they are trimmed. -/
theorem Below.trim_eq {f g : Frame} (h : f.Below g) (h' : g.Below f) (hf : Paired f.locals)
    (hg : Paired g.locals) : f.trim = g.trim := by
  have hstack := forall₂_below_antisymm h.stack h'.stack
  have hlocals := trimLocals_eq_of_slotOf hf hg fun i => (h.locals i).antisymm (h'.locals i)
  rw [trim, trim, hstack, hlocals]

end Frame

/-! ## Which frames are trimmed -/

namespace Worklist

variable {body : Layout} {entry : Frame} {w w' : Worklist}

/-- The recorded frames are those at each place. -/
theorem frames_ext (hsize : w.frames.size = w'.frames.size)
    (h : ∀ i, w.frameAt i = w'.frameAt i) : w.frames = w'.frames := by
  have hat : ∀ (v : Worklist) (i : Nat) (hi : i < v.frames.size), v.frameAt i = v.frames[i] := by
    intro v i hi
    rw [frameAt, Array.getElem?_eq_getElem hi]
    rfl
  apply Array.ext hsize
  intro i hi hi'
  rw [← hat w i hi, h i, hat w' i hi']

/-- The recorded frames are trimmed, but for the entry frame: it stays as it is while no place with
a frame leads back to the first instruction. -/
structure Trimmed (body : Layout) (entry : Frame) (w : Worklist) : Prop where
  frames : ∀ i g, w.frameAt i = some g → g.trim = g ∨ i = 0 ∧ g = entry
  entry : (∀ i f, w.frameAt i = some f → ¬body.Edge i 0) → w.frameAt 0 = some entry
  back : ∀ i f g, i ∉ w.queue → w.frameAt i = some f → body.Edge i 0 →
    w.frameAt 0 = some g → g.trim = g

theorem Arrived.trim_eq {f g : Frame} {i : Nat} (h : Arrived f w w' i g) : g.trim = g := by
  have htrim : Frame.trimLocals g.locals = g.locals := by
    rcases h.locals with hlocals | ⟨r, -, hlocals⟩ <;> rw [hlocals, Frame.trimLocals_trimLocals]
  rw [Frame.trim, htrim]

/-- Arrivals change frames at their targets alone, and leave trimmed ones there. -/
theorem foldlM_arrive_trimmed {f : Frame} {targets : List Nat}
    (h : targets.foldlM (arrive f) w = .ok w') (t : Nat) :
    t ∉ targets ∧ w'.frameAt t = w.frameAt t ∨
      t ∈ targets ∧ ∃ g, w'.frameAt t = some g ∧ g.trim = g := by
  induction targets generalizing w with
  | nil =>
    obtain rfl := Except.ok.inj h
    exact .inl ⟨List.not_mem_nil, rfl⟩
  | cons i rest ih =>
    obtain ⟨w₁, h₁, h⟩ := foldlM_cons_eq_ok.1 h
    obtain ⟨g, harrived⟩ := arrive_eq_ok h₁
    rcases ih h with ⟨hnot, hsame⟩ | ⟨hmem, hg⟩
    · rw [harrived.frames t] at hsame
      by_cases ht : t = i
      · rw [if_pos ht] at hsame
        exact .inr ⟨ht ▸ List.mem_cons_self, g, hsame, harrived.trim_eq⟩
      · rw [if_neg ht] at hsame
        exact .inl ⟨fun hmem => (List.mem_cons.1 hmem).elim ht hnot, hsame⟩
    · exact .inr ⟨List.mem_cons_of_mem i hmem, hg⟩

theorem Trimmed.takes {index : Nat} (hw : w.Trimmed body entry) (h : Takes body w w' index) :
    w'.Trimmed body entry := by
  rcases step_eq_ok h.steps with ⟨f, ins, f', targets, hf, hins, -, htargets, harrive⟩ | ⟨hnone, rfl⟩
  · have hadv := (foldlM_arrive harrive).1
    have hat : ∀ t, t ∉ targets ∧ w'.frameAt t = w.frameAt t ∨
        t ∈ targets ∧ ∃ g, w'.frameAt t = some g ∧ g.trim = g :=
      foldlM_arrive_trimmed (w := (w.dequeue index).raise f f') harrive
    have hgoes : 0 ∈ targets ↔ body.Edge index 0 :=
      ⟨edge_of_mem_successors hins htargets, fun hedge => Layout.mem_successors hins hedge htargets⟩
    refine ⟨fun i g hg => ?_, fun hno => ?_, fun i k g hi hk hedge hg => ?_⟩
    · rcases hat i with ⟨-, hsame⟩ | ⟨-, g', hg', htrim⟩
      · exact hw.frames i g (hsame.symm.trans hg)
      · obtain rfl := Option.some.inj (hg'.symm.trans hg)
        exact .inl htrim
    · rcases hat 0 with ⟨-, hsame⟩ | ⟨hmem, -⟩
      · refine hsame.trans (hw.entry fun i k hk hedge => ?_)
        obtain ⟨k', hk', -⟩ := hadv.rises i k hk
        exact hno i k' hk' hedge
      · obtain ⟨k', hk', -⟩ := hadv.rises index f hf
        exact absurd (hgoes.1 hmem) (hno index k' hk')
    · rcases hat 0 with ⟨hnot, hsame⟩ | ⟨-, g', hg', htrim⟩
      · -- What leads back here is not the instruction that was executed, so it was idle before.
        obtain ⟨hi₀, hsame'⟩ := hadv.waits i hi
        have hne : i ≠ index := fun heq => hnot (hgoes.2 (heq ▸ hedge))
        have hidle : i ∉ w.queue := fun hmem => (mem_dequeue_of_mem hmem).elim hne hi₀
        exact hw.back i k g hidle (hsame'.symm.trans hk) hedge (hsame.symm.trans hg)
      · obtain rfl := Option.some.inj (hg'.symm.trans hg)
        exact htrim
  · refine ⟨hw.frames, hw.entry, fun i k g hi hk hedge hg => ?_⟩
    by_cases hindex : i = index
    · obtain ⟨ins, hins⟩ := hedge.instruction
      subst hindex
      exact absurd hins (hnone k ins hk)
    · have hidle : i ∉ w.queue := fun hmem => (mem_dequeue_of_mem hmem).elim hindex hi
      exact hw.back i k g hidle hk hedge hg

theorem Trimmed.ends (hw : w.Trimmed body entry) (h : Ends body w (.ok w')) :
    w'.Trimmed body entry :=
  (h.invariant (fun _ _ _ htakes hw => hw.takes htakes)
    (fun _ hw => ⟨hw.frames, hw.entry, hw.back⟩) hw).1

theorem start_trimmed {size : Nat} (hsize : 0 < size) : (start size entry).Trimmed body entry := by
  refine ⟨fun i g hg => ?_, fun _ => frameAt_start.2 ⟨rfl, hsize, rfl⟩, fun i f g hi hf _ _ => ?_⟩
  · obtain ⟨hi, -, hg⟩ := frameAt_start.1 hg
    exact .inr ⟨hi, hg⟩
  · obtain ⟨rfl, -, -⟩ := frameAt_start.1 hf
    exact absurd (List.mem_singleton.2 rfl) hi

/-- Once nothing waits, a place that leads back to the first instruction has had all frames
trimmed. -/
theorem Trimmed.trim_eq_of_back (hw : w.Trimmed body entry) (hidle : w.queue = [])
    (hback : ∃ j k, w.frameAt j = some k ∧ body.Edge j 0) {i : Nat} {g : Frame}
    (hg : w.frameAt i = some g) : g.trim = g := by
  rcases hw.frames i g hg with htrim | ⟨rfl, -⟩
  · exact htrim
  · obtain ⟨j, k, hk, hedge⟩ := hback
    exact hw.back j k g (by simp [hidle]) hk hedge hg

/-- Two ends with frames for the same places differ in their frames only where trimming tells them
apart. -/
theorem Trimmed.eq_of_trim_eq (hw : w.Trimmed body entry) (hw' : w'.Trimmed body entry)
    (hidle : w.queue = []) (hidle' : w'.queue = [])
    (hassigned : ∀ i, (∃ f, w.frameAt i = some f) ↔ ∃ f, w'.frameAt i = some f) {i : Nat}
    {f g : Frame} (hf : w.frameAt i = some f) (hg : w'.frameAt i = some g)
    (htrim : f.trim = g.trim) : f = g := by
  by_cases hback : ∃ j k, w.frameAt j = some k ∧ body.Edge j 0
  · have hback' : ∃ j k, w'.frameAt j = some k ∧ body.Edge j 0 := by
      obtain ⟨j, k, hk, hedge⟩ := hback
      obtain ⟨k', hk'⟩ := (hassigned j).1 ⟨k, hk⟩
      exact ⟨j, k', hk', hedge⟩
    rw [← hw.trim_eq_of_back hidle hback hf, htrim, hw'.trim_eq_of_back hidle' hback' hg]
  · have hno : ∀ j k, w.frameAt j = some k → ¬body.Edge j 0 :=
      fun j k hk hedge => hback ⟨j, k, hk, hedge⟩
    have hno' : ∀ j k, w'.frameAt j = some k → ¬body.Edge j 0 := by
      intro j k hk
      obtain ⟨k', hk'⟩ := (hassigned j).2 ⟨k, hk⟩
      exact hno j k' hk'
    by_cases hi : i = 0
    · subst hi
      have hfirst := Option.some.inj (hf.symm.trans (hw.entry hno))
      have hfirst' := Option.some.inj (hg.symm.trans (hw'.entry hno'))
      rw [hfirst, hfirst']
    · have hftrim := (hw.frames i f hf).resolve_right fun h => hi h.1
      have hgtrim := (hw'.frames i g hg).resolve_right fun h => hi h.1
      rw [← hftrim, htrim, hgtrim]

end Worklist

/-! ## The least assignment that types a body -/

namespace Layout

open Worklist (Ends Sound Takes)

variable {body : Layout} {entry : Frame} {frames : Nat → Option Frame}

/-- Control reaches every instruction but marks. -/
def Live (body : Layout) : Prop :=
  ∀ i ins, body.instructions[i]? = some ins → ins.isMark = false → ∃ visited, body.Path visited i

/-- The assignment types the body, assigns a frame to the places that control reaches and to no
others, and is below every assignment that types the body. -/
structure LeastTyping (body : Layout) (entry : Frame) (frames : Nat → Option Frame) : Prop where
  typed : body.TypedBy entry frames
  reached : ∀ i, (∃ f, frames i = some f) ↔ ∃ visited, body.Path visited i
  least : ∀ others, body.TypedBy entry others → ∀ i f, frames i = some f →
    ∃ g, others i = some g ∧ f.Below g

/-- Where a frame below an assigned one arrives, the instruction executes, and control goes on to
assigned places. -/
theorem TypedBy.executeAt_below (h : body.TypedBy entry frames) {i : Nat} {f g : Frame}
    (hg : frames i = some g) (hfg : f.Below g) :
    ∃ f' g', body.executeAt f i = .ok f' ∧ body.executeAt g i = .ok g' ∧ f'.Below g' ∧
      ∀ j, body.Edge i j → ∃ k, frames j = some k ∧ g'.Below k := by
  obtain ⟨ins, g', targets, hins, hafter, htargets, hbelow⟩ := h.executes i g hg
  obtain ⟨f', hf', hfg'⟩ := Frame.after_mono hfg hafter
  have hexecute : ∀ k, body.executeAt k i = k.after body.thisClass i (body.offsets.getD i 0) ins :=
    fun k => by rw [executeAt, hins]
  exact ⟨f', g', (hexecute f).trans hf', (hexecute g).trans hafter, hfg',
    fun j hedge => hbelow j (mem_successors hins hedge htargets)⟩

/-- Every path of a typed body can be executed from the entry frame, and arrives below the frame
that is assigned there. -/
theorem TypedBy.executeAlong_below (h : body.TypedBy entry frames) {visited : List Nat} {i : Nat}
    (hpath : body.Path visited i) :
    ∃ f g, body.executeAlong entry visited = .ok f ∧ frames i = some g ∧ f.Below g := by
  induction hpath with
  | start =>
    obtain ⟨g, hg, hentry⟩ := h.entry
    exact ⟨entry, g, rfl, hg, hentry⟩
  | step _ hedge ih =>
    obtain ⟨f, g, hf, hg, hfg⟩ := ih
    obtain ⟨f', g', hf', -, hfg', hgoes⟩ := h.executeAt_below hg hfg
    obtain ⟨k, hk, hgk⟩ := hgoes _ hedge
    exact ⟨f', k, (executeAlong_append_singleton hf).trans hf', hk, hfg'.trans hgk⟩

open Classical in
/-- What is assigned to places that control does not reach may be left out. -/
theorem TypedBy.restrict (h : body.TypedBy entry frames) :
    body.TypedBy entry fun i => if ∃ visited, body.Path visited i then frames i else none := by
  refine ⟨?_, fun i f hf => ?_⟩
  · obtain ⟨g, hg, hentry⟩ := h.entry
    exact ⟨g, (if_pos ⟨[], .start⟩).trans hg, hentry⟩
  · split at hf
    · next hpath =>
      obtain ⟨visited, hpath⟩ := hpath
      obtain ⟨ins, f', targets, hins, hafter, htargets, hbelow⟩ := h.executes i f hf
      refine ⟨ins, f', targets, hins, hafter, htargets, fun t ht => ?_⟩
      obtain ⟨g, hg, hfg⟩ := hbelow t ht
      have hedge := Worklist.edge_of_mem_successors hins htargets ht
      exact ⟨g, (if_pos ⟨_, .step hpath hedge⟩).trans hg, hfg⟩
    · cases hf

/-- An assignment below all others is one to the places that control reaches. -/
theorem TypedBy.leastTyping (h : body.TypedBy entry frames)
    (hleast : ∀ others, body.TypedBy entry others → ∀ i f, frames i = some f →
      ∃ g, others i = some g ∧ f.Below g) : body.LeastTyping entry frames := by
  refine ⟨h, fun i => ⟨fun hassigned => ?_, fun hpath => ?_⟩, hleast⟩
  · obtain ⟨f, hf⟩ := hassigned
    obtain ⟨g, hg, -⟩ := hleast _ h.restrict i f hf
    split at hg
    · next hpath => exact hpath
    · cases hg
  · obtain ⟨visited, hpath⟩ := hpath
    obtain ⟨-, g, -, hg, -⟩ := h.executeAlong_below hpath
    exact ⟨g, hg⟩

/-- Where nothing waits, the recorded frames type the body. -/
theorem typedBy_of_sound {w : Worklist} (hw : Sound body entry w) (hidle : w.queue = []) :
    body.TypedBy entry w.frameAt := by
  refine ⟨hw.entry, fun i f hf => ?_⟩
  have hi : i < body.instructions.size := by
    rw [← hw.size]
    exact (Array.getElem?_eq_some_iff.1 (Option.join_eq_some_iff.1 hf)).1
  have hins := Array.getElem?_eq_getElem hi
  obtain ⟨f', targets, hafter, htargets, -, hbelow⟩ :=
    hw.settled i (by simp [hidle]) f _ hf hins
  exact ⟨_, f', targets, hins, hafter, htargets, hbelow⟩

/-! ## Every order finds it -/

section Orders

variable (hempty : body.instructions.isEmpty = false) (hentry : Frame.Paired entry.locals)
include hempty hentry

/-- Whatever the order, the recorded frames are the least that type the body. -/
theorem leastTyping_of_ends {w : Worklist}
    (h : Ends body (.start body.instructions.size entry) (.ok w)) :
    body.LeastTyping entry w.frameAt := by
  obtain ⟨hw, hidle⟩ := h.sound (Worklist.start_sound hempty hentry)
  refine (typedBy_of_sound hw hidle).leastTyping fun others hothers i f hf => ?_
  obtain ⟨k, hk, hbelow⟩ := hothers.entry
  obtain ⟨w', hw', hwithin⟩ := h.within hothers (Worklist.start_within hk hbelow)
  obtain rfl := Except.ok.inj hw'
  exact hwithin.below i f hf

/-- Two orders record the same frames. -/
theorem frames_eq_of_ends {w w' : Worklist}
    (h : Ends body (.start body.instructions.size entry) (.ok w))
    (h' : Ends body (.start body.instructions.size entry) (.ok w')) : w.frames = w'.frames := by
  have hpos : 0 < body.instructions.size := by
    simpa [Array.isEmpty, Nat.pos_iff_ne_zero] using hempty
  obtain ⟨hw, hidle⟩ := h.sound (Worklist.start_sound hempty hentry)
  obtain ⟨hw', hidle'⟩ := h'.sound (Worklist.start_sound hempty hentry)
  have htrimmed := (Worklist.start_trimmed hpos).ends h
  have htrimmed' := (Worklist.start_trimmed hpos).ends h'
  have hleast := leastTyping_of_ends hempty hentry h
  have hleast' := leastTyping_of_ends hempty hentry h'
  have hassigned : ∀ i, (∃ f, w.frameAt i = some f) ↔ ∃ f, w'.frameAt i = some f :=
    fun i => (hleast.reached i).trans (hleast'.reached i).symm
  have hequal : ∀ i f g, w.frameAt i = some f → w'.frameAt i = some g → f = g := by
    intro i f g hf hg
    obtain ⟨g', hg', hfg⟩ := hleast.least _ hleast'.typed i f hf
    obtain ⟨f', hf', hgf⟩ := hleast'.least _ hleast.typed i g hg
    obtain rfl := Option.some.inj (hg.symm.trans hg')
    obtain rfl := Option.some.inj (hf.symm.trans hf')
    have htrim := hfg.trim_eq hgf (hw.shape i f hf).1 (hw'.shape i g hg).1
    exact htrimmed.eq_of_trim_eq htrimmed' hidle hidle' hassigned hf hg htrim
  refine Worklist.frames_ext (hw.size.trans hw'.size.symm) fun i => ?_
  cases hf : w.frameAt i with
  | none =>
    cases hg : w'.frameAt i with
    | none => rfl
    | some g =>
      obtain ⟨f, hf'⟩ := (hassigned i).2 ⟨g, hg⟩
      rw [hf] at hf'
      cases hf'
  | some f =>
    obtain ⟨g, hg⟩ := (hassigned i).1 ⟨f, hf⟩
    rw [hg, hequal i f g hf hg]

/-- An order comes to an end without a failure where some assignment types the body. -/
theorem exists_ok_iff_of_ends {r : Except EmissionError Worklist}
    (h : Ends body (.start body.instructions.size entry) r) :
    (∃ w, r = .ok w) ↔ ∃ frames, body.TypedBy entry frames := by
  constructor
  · intro hok
    obtain ⟨w, rfl⟩ := hok
    exact ⟨_, (leastTyping_of_ends hempty hentry h).typed⟩
  · intro htyped
    obtain ⟨frames, htyped⟩ := htyped
    obtain ⟨k, hk, hbelow⟩ := htyped.entry
    obtain ⟨w, hw, -⟩ := h.within htyped (Worklist.start_within hk hbelow)
    exact ⟨w, hw⟩

end Orders

/-- Control reaches the instructions that are not dead. -/
theorem LeastTyping.firstDead?_eq_none {w : Worklist} (h : body.LeastTyping entry w.frameAt) :
    w.firstDead? body = none ↔ body.Live := by
  rw [Layout.firstDead?_eq_none]
  unfold Live
  simp only [h.reached]

/-- Whether an analysis that came to the given end takes the body, its limits aside. -/
def Accepts (body : Layout) (r : Except EmissionError Worklist) : Prop :=
  body.instructions.isEmpty = false ∧ ∃ w, r = .ok w ∧ w.firstDead? body = none

theorem TypedBy.isEmpty_eq_false (h : body.TypedBy entry frames) :
    body.instructions.isEmpty = false := by
  obtain ⟨g, hg, -⟩ := h.entry
  have hpos := h.inside hg
  simpa [Array.isEmpty] using Nat.ne_of_gt hpos

/-- Whatever the order, the body is taken where some assignment types it and control reaches all
instructions but marks. -/
theorem accepts_iff_of_ends (hentry : Frame.Paired entry.locals)
    {r : Except EmissionError Worklist} (h : Ends body (.start body.instructions.size entry) r) :
    body.Accepts r ↔ (∃ frames, body.TypedBy entry frames) ∧ body.Live := by
  constructor
  · intro haccepts
    obtain ⟨hempty, w, rfl, hdead⟩ := haccepts
    have hleast := leastTyping_of_ends hempty hentry h
    exact ⟨⟨_, hleast.typed⟩, hleast.firstDead?_eq_none.1 hdead⟩
  · intro htyped
    obtain ⟨⟨frames, htyped⟩, hlive⟩ := htyped
    have hempty := htyped.isEmpty_eq_false
    obtain ⟨w, rfl⟩ := (exists_ok_iff_of_ends hempty hentry h).2 ⟨frames, htyped⟩
    exact ⟨hempty, w, rfl, (leastTyping_of_ends hempty hentry h).firstDead?_eq_none.2 hlive⟩

/-- The frames that a successful analysis records are the least that type the body, and control
reaches all instructions but marks. -/
theorem leastTyping_of_analyze (hentry : Frame.Paired entry.locals) {a : Analysis}
    (h : body.analyze entry = .ok a) : body.LeastTyping entry a.frameAt ∧ body.Live := by
  obtain ⟨w, hempty, hrun, hdead, -, -, hframes⟩ := analyze_eq_ok h
  have hleast := leastTyping_of_ends hempty hentry (hrun ▸ Worklist.ends_run body _)
  have hat : a.frameAt = w.frameAt := funext fun i => by
    rw [Analysis.frameAt, hframes, Worklist.frameAt]
  rw [hat]
  exact ⟨hleast, hleast.firstDead?_eq_none.1 hdead⟩

/-- What does not depend on the order in which waiting instructions are executed: every order ends,
all accept the body or none does, and all that end without a failure record the same frames.  The
order of the analysis is one of them. -/
structure OrderFree (body : Layout) (entry : Frame) : Prop where
  ends : WellFounded fun w' w => ∃ index, Takes body w w' index
  own : Ends body (.start body.instructions.size entry)
    (Worklist.run body (.start body.instructions.size entry))
  accepts : ∀ r, Ends body (.start body.instructions.size entry) r →
    (body.Accepts r ↔ (∃ frames, body.TypedBy entry frames) ∧ body.Live)
  frames : ∀ w w', Ends body (.start body.instructions.size entry) (.ok w) →
    Ends body (.start body.instructions.size entry) (.ok w') → w.frames = w'.frames

/-- The analysis accepts exactly the bodies that some assignment types and of which control reaches
every instruction but marks, the 16 bit limits aside.  The frames it records are the least
assignment that types the body.  Acceptance and frames are the same for every order in which waiting
instructions are executed. -/
theorem analyze_least (body : Layout) (owner method : String) (isStatic : Bool)
    (d : MethodDescriptor) :
    (∀ frames, body.TypedBy (Frame.entry owner method isStatic d) frames → body.Live →
      ∃ w, Worklist.run body (.start body.instructions.size (Frame.entry owner method isStatic d)) =
          .ok w ∧
        body.LeastTyping (Frame.entry owner method isStatic d) w.frameAt ∧
        body.analyze (Frame.entry owner method isStatic d) =
          (do return ⟨← Worklist.limit w.maxStack, ← Worklist.limit w.maxLocals, w.frames⟩)) ∧
    (∀ a, body.analyze (Frame.entry owner method isStatic d) = .ok a →
      body.LeastTyping (Frame.entry owner method isStatic d) a.frameAt ∧ body.Live) ∧
    body.OrderFree (Frame.entry owner method isStatic d) := by
  have hentry := Frame.paired_entry owner method isStatic d
  generalize Frame.entry owner method isStatic d = entry at hentry ⊢
  have hrun := Worklist.ends_run body (.start body.instructions.size entry)
  refine ⟨fun frames htyped hlive => ?_, fun a ha => leastTyping_of_analyze hentry ha, ?_⟩
  · obtain ⟨hempty, w, hw, hdead⟩ := (accepts_iff_of_ends hentry hrun).2 ⟨⟨frames, htyped⟩, hlive⟩
    exact ⟨w, hw, leastTyping_of_ends hempty hentry (hw ▸ hrun), analyze_of_run hempty hw hdead⟩
  · refine ⟨Worklist.wellFounded_takes body, hrun, fun r hr => accepts_iff_of_ends hentry hr,
      fun w w' hw hw' => ?_⟩
    by_cases hempty : body.instructions.isEmpty = false
    · exact frames_eq_of_ends hempty hentry hw hw'
    · have hsize : body.instructions.size = 0 := by simpa [Array.isEmpty] using hempty
      rw [Array.size_eq_zero_iff.1 (hw.size.trans (by simp [Worklist.start, hsize])),
        Array.size_eq_zero_iff.1 (hw'.size.trans (by simp [Worklist.start, hsize]))]

/-- The body with a loop is typed: it was analysed, and its frames are the least that type it. -/
theorem analyze_least_loop :
    ∃ a, loopBody.analyze (Frame.entry "a/B" "run" false ⟨[], .void⟩) = .ok a ∧
      loopBody.LeastTyping (Frame.entry "a/B" "run" false ⟨[], .void⟩) a.frameAt ∧
      loopBody.Live := by
  have hok : (loopBody.analyze (Frame.entry "a/B" "run" false ⟨[], .void⟩)).toOption.isSome := by
    decide +kernel
  obtain ⟨-, hrecorded, -⟩ := analyze_least loopBody "a/B" "run" false ⟨[], .void⟩
  cases h : loopBody.analyze (Frame.entry "a/B" "run" false ⟨[], .void⟩) with
  | error e =>
    rw [h] at hok
    cases hok
  | ok a => exact ⟨a, rfl, hrecorded a h⟩

end Layout

end EntityLoom
