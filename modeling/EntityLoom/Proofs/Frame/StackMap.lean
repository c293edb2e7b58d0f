import EntityLoom.Frame.StackMap
import EntityLoom.Proofs.Pool.Growth

/-!
# The length of a stack map

A verification type is written in at most three bytes and an entry of a stack map in seven bytes and
those of its values, so a stack map is no longer than its number of entries and the size of their
frames allow (`StackMap.write_interns`).
-/

namespace EntityLoom

open Interning (Interns)

theorem VerificationType.write_interns (v : VerificationType) :
    Interns v.write fun _ bs => bs.length ≤ 3 := by
  unfold write
  split
  case h_8 name =>
    exact (Interning.classRef_interns name).bind fun i => .pure fun _ _ => Nat.le_refl _
  all_goals exact .pure fun _ => by simp

/-- Locals are written with no more entries than they have slots. -/
theorem Frame.length_valuesReversed_le (acc locals : List VerificationType) :
    (valuesReversed acc locals).length ≤ acc.length + locals.length := by
  fun_induction valuesReversed acc locals with
  | case1 acc => exact Nat.le_add_right _ _
  | case2 acc v rest ih =>
    simp only [List.length_cons, List.length_drop] at ih ⊢
    omega

theorem Frame.length_encodedLocals_le (f : Frame) :
    f.encodedLocals.length ≤ f.locals.length := by
  unfold encodedLocals
  rw [List.length_reverse]
  have hdrop := (List.dropWhile_suffix (fun v => decide (v = VerificationType.top))
    (l := valuesReversed [] f.locals)).length_le
  have hvalues := length_valuesReversed_le [] f.locals
  rw [List.length_nil, Nat.zero_add] at hvalues
  exact Nat.le_trans hdrop hvalues

namespace StackMap

theorem length_flatten_le {n : Nat} {parts : List Bytes} (h : ∀ bs ∈ parts, bs.length ≤ n) :
    parts.flatten.length ≤ parts.length * n := by
  induction parts with
  | nil => simp
  | cons bs parts ih =>
    have hhead := h bs List.mem_cons_self
    have hrest := ih fun cs hcs => h cs (List.mem_cons_of_mem _ hcs)
    rw [List.flatten_cons, List.length_append, List.length_cons, Nat.succ_mul]
    omega

theorem writeTypes_interns (vs : List VerificationType) :
    Interns (writeTypes vs) fun _ bs => bs.length ≤ 2 + 3 * vs.length := by
  refine (Interns.mapM VerificationType.write_interns vs).bind fun parts => .pure fun _ hparts => ?_
  have hflat : parts.flatten.length ≤ parts.length * 3 := by
    refine length_flatten_le fun bs hbs => ?_
    obtain ⟨i, hi, rfl⟩ := List.mem_iff_getElem.1 hbs
    exact hparts.get (by rw [hparts.length_eq]; exact hi) hi
  rw [List.length_append, Bytes.ofLength16, Bytes.length_ofWord16, hparts.length_eq]
  omega

/-- The most bytes of an entry for a frame with so many locals and values on the stack. -/
def entrySize (locals stack : Nat) : Nat := 7 + 3 * locals + 3 * stack

theorem writeEntry_interns (distance : Nat) (sameLocals : Bool)
    (locals stack : List VerificationType) :
    Interns (writeEntry distance sameLocals locals stack) fun _ bs =>
      bs.length ≤ entrySize locals.length stack.length := by
  unfold writeEntry
  dsimp only
  split
  · refine .pure fun _ => ?_
    unfold entrySize
    split
    · rw [List.length_singleton]
      omega
    · rw [List.length_cons, Bytes.ofLength16, Bytes.length_ofWord16]
      omega
  · next v =>
    refine (VerificationType.write_interns v).bind fun bs => .pure fun _ hbs => ?_
    rw [List.length_append]
    simp only [entrySize, List.length_singleton]
    split <;> simp [Bytes.ofLength16] <;> omega
  · refine (writeTypes_interns locals).bind fun ls => ?_
    refine (writeTypes_interns stack.reverse).bind fun ss => .pure fun _ hss hls => ?_
    rw [List.length_reverse] at hss
    simp only [entrySize, List.length_cons, List.length_append, Bytes.ofLength16,
      Bytes.length_ofWord16]
    omega

theorem entrySize_mono {l l' s s' : Nat} (hl : l ≤ l') (hs : s ≤ s') :
    entrySize l s ≤ entrySize l' s' := by
  unfold entrySize
  omega

/-- The entries for frames that are no larger than the limits. -/
theorem writeEntries_interns {l s : Nat} (acc : List Bytes) (previous : List VerificationType)
    (next : Nat) {targets : List (Nat × Frame)}
    (h : ∀ t ∈ targets, t.2.locals.length ≤ l ∧ t.2.stack.length ≤ s) :
    Interns (writeEntries acc previous next targets) fun _ entries =>
      entries.flatten.length ≤ acc.flatten.length + targets.length * entrySize l s := by
  induction targets generalizing acc previous next with
  | nil =>
    unfold writeEntries
    refine .pure fun _ => ?_
    simp [List.length_flatten, List.sum_reverse]
  | cons t rest ih =>
    obtain ⟨offset, f⟩ := t
    obtain ⟨hl, hs⟩ := h _ List.mem_cons_self
    unfold writeEntries
    dsimp only
    split
    · refine (writeEntry_interns _ _ _ _).bind fun bs => ?_
      refine (ih (bs :: acc) _ _ fun t ht => h t (List.mem_cons_of_mem _ ht)).mono ?_
      intro _ entries hentries hbs
      have hentry := Nat.le_trans hbs
        (entrySize_mono (Nat.le_trans (Frame.length_encodedLocals_le f) hl) hs)
      rw [List.flatten_cons, List.length_append] at hentries
      rw [List.length_cons, Nat.succ_mul]
      omega
    · exact .throw_bind _ _ _

/-- The content of a stack map for frames that are no larger than the limits. -/
theorem write_interns {l s : Nat} (entry : Frame) {targets : List (Nat × Frame)}
    (h : ∀ t ∈ targets, t.2.locals.length ≤ l ∧ t.2.stack.length ≤ s) :
    Interns (write entry targets) fun _ bs => bs.length ≤ 2 + targets.length * entrySize l s := by
  refine (writeEntries_interns [] _ 0 h).bind fun entries => .pure fun _ hentries => ?_
  rw [List.length_append, Bytes.ofLength16, Bytes.length_ofWord16]
  simpa using hentries

end StackMap

end EntityLoom
