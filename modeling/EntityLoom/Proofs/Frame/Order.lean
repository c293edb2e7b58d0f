import EntityLoom.Frame.Join
import Mathlib.Data.List.Forall2

/-!
# The order of frames

A verification type is below another when the join with it leaves the other as it is.  Frames are
ordered entry by entry: equally high stacks, and locals slot by slot, where a missing slot holds
`top`.

There are three groups.

* The order of types.  It is a partial order with the join as an upper bound, and what an
  instruction accepts is closed downwards (`accepts_of_below`).
* The locals slot by slot.  `localAt_write`, `localAt_joinLocals` and `localAt_trimLocals` say what
  the operations on locals do to one slot, so that later proofs need not look at lists.
* The order of frames, with the two facts on which an analysis rests: a join is above both of its
  sides (`below_join_left`, `below_join_right`), and so is a trimmed frame (`below_trim`).
-/

namespace EntityLoom

namespace VerificationType

/-! ## The order of types -/

/-- One type is below another: the join with it leaves the other as it is. -/
def Below (a b : VerificationType) : Prop := b.merge a = b

instance (a b : VerificationType) : Decidable (a.Below b) :=
  inferInstanceAs (Decidable (b.merge a = b))

@[simp] theorem below_refl (a : VerificationType) : a.Below a := merge_self a

@[simp] theorem below_top (a : VerificationType) : a.Below top := top_merge a

/-- Below a class is `null`, the class itself and, for the root class, every class. -/
theorem below_object_iff {a : VerificationType} {name : String} :
    a.Below (object name) ↔
      a = null ∨ a = object name ∨ name = rootClass ∧ ∃ other, a = object other := by
  unfold Below merge
  cases a with
  | object other => by_cases h : name = other <;> simp [h, eq_comm]
  | _ => simp

/-- Below any other type than `top` and the classes is the type alone. -/
theorem eq_of_below {a b : VerificationType} (h : a.Below b) (htop : b ≠ top)
    (hobject : ∀ name, b ≠ object name) : a = b := by
  by_contra hne
  unfold Below merge at h
  rw [if_neg (fun e => hne e.symm)] at h
  cases a <;> cases b <;> simp_all

theorem below_merge_left (a b : VerificationType) : a.Below (a.merge b) := by
  unfold Below merge
  by_cases h : a = b
  · simp [h]
  · cases a <;> cases b <;> simp_all

theorem below_merge_right (a b : VerificationType) : b.Below (a.merge b) := by
  rw [merge_comm]
  exact below_merge_left b a

theorem Below.trans {a b c : VerificationType} (hab : a.Below b) (hbc : b.Below c) : a.Below c := by
  by_cases htop : c = top
  · rw [htop]
    exact below_top a
  · by_cases hobject : ∃ name, c = object name
    · obtain ⟨name, rfl⟩ := hobject
      rcases below_object_iff.1 hbc with rfl | rfl | ⟨rfl, other, rfl⟩
      · rw [eq_of_below hab (by simp) (by simp)]
        exact hbc
      · exact hab
      · rcases below_object_iff.1 hab with rfl | rfl | ⟨-, third, rfl⟩ <;>
          exact below_object_iff.2 (by simp)
    · rw [← eq_of_below hbc htop (fun name e => hobject ⟨name, e⟩)]
      exact hab

/-- A type below one that is known is as wide as that. -/
theorem isWide_of_below {a b : VerificationType} (h : a.Below b) (htop : b ≠ top) :
    a.isWide = b.isWide := by
  by_cases hobject : ∃ name, b = object name
  · obtain ⟨name, rfl⟩ := hobject
    rcases below_object_iff.1 h with rfl | rfl | ⟨-, other, rfl⟩ <;> rfl
  · rw [eq_of_below h htop (fun name e => hobject ⟨name, e⟩)]

end VerificationType

/-! ## What instructions ask for -/

namespace Expectation

theorem not_accepts_top (e : Expectation) : e.accepts .top = false := by
  cases e <;> rfl

theorem ne_top_of_accepts {e : Expectation} {v : VerificationType} (h : e.accepts v = true) :
    v ≠ .top := by
  rintro rfl
  rw [not_accepts_top] at h
  exact Bool.false_ne_true h

/-- What is accepted stays accepted when more is known of it. -/
theorem accepts_of_below {e : Expectation} {a b : VerificationType} (h : a.Below b)
    (hb : e.accepts b = true) : e.accepts a = true := by
  by_cases hobject : ∃ name, b = .object name
  · obtain ⟨name, rfl⟩ := hobject
    rcases VerificationType.below_object_iff.1 h with rfl | rfl | ⟨-, other, rfl⟩ <;>
      cases e <;> simp_all [accepts, VerificationType.isReference, VerificationType.isWide]
  · rw [VerificationType.eq_of_below h (ne_top_of_accepts hb) (fun name e => hobject ⟨name, e⟩)]
    exact hb

end Expectation

namespace Frame

open VerificationType (Below)

/-! ## Locals slot by slot -/

/-- What is known of a slot; a missing slot holds `top`. -/
def slotOf (locals : List VerificationType) (i : Nat) : VerificationType :=
  locals.getD i .top

theorem slotOf_eq_top_of_length_le {locals : List VerificationType} {i : Nat}
    (h : locals.length ≤ i) : slotOf locals i = .top := by
  simp [slotOf, h]

theorem lt_length_of_slotOf_ne_top {locals : List VerificationType} {i : Nat}
    (h : slotOf locals i ≠ .top) : i < locals.length := by
  by_contra hle
  exact h (slotOf_eq_top_of_length_le (Nat.le_of_not_lt hle))

theorem getElem_eq_slotOf {locals : List VerificationType} {i : Nat} (h : i < locals.length) :
    locals[i] = slotOf locals i := by
  simp [slotOf, h]

/-- A type other than `top` is known of a slot exactly if it is in the list. -/
theorem mem_iff_exists_slotOf {locals : List VerificationType} {v : VerificationType}
    (hv : v ≠ .top) : v ∈ locals ↔ ∃ i, slotOf locals i = v := by
  rw [List.mem_iff_getElem]
  constructor
  · rintro ⟨i, hi, heq⟩
    exact ⟨i, (getElem_eq_slotOf hi).symm.trans heq⟩
  · rintro ⟨i, heq⟩
    have hi := lt_length_of_slotOf_ne_top (heq ▸ hv)
    exact ⟨i, hi, (getElem_eq_slotOf hi).trans heq⟩

theorem slotOf_padTo (n : Nat) (locals : List VerificationType) (i : Nat) :
    slotOf (padTo n locals) i = slotOf locals i := by
  unfold slotOf padTo
  by_cases h : i < locals.length
  · simp [h, List.getD_eq_getElem?_getD, List.getElem?_append_left]
  · have hle : locals.length ≤ i := Nat.le_of_not_lt h
    rw [List.getD_eq_getElem?_getD, List.getElem?_append_right hle, List.getElem?_replicate]
    split <;> simp [hle]

theorem slotOf_set {locals : List VerificationType} {k : Nat} (v : VerificationType) (i : Nat)
    (h : k < locals.length) :
    slotOf (locals.set k v) i = if i = k then v else slotOf locals i := by
  unfold slotOf
  by_cases hik : i = k
  · subst hik
    simp [List.getD_eq_getElem?_getD, h]
  · rw [if_neg hik, List.getD_eq_getElem?_getD, List.getD_eq_getElem?_getD,
      List.getElem?_set_ne (Ne.symm hik)]

theorem length_breakPair (slot : Nat) (locals : List VerificationType) :
    (breakPair slot locals).length = locals.length := by
  unfold breakPair
  split <;> simp

theorem slotOf_breakPair (slot : Nat) (locals : List VerificationType) (i : Nat) :
    slotOf (breakPair slot locals) i =
      if i + 1 = slot ∧ (slotOf locals i).isWide then .top else slotOf locals i := by
  unfold breakPair
  by_cases h : 0 < slot ∧ (locals.getD (slot - 1) .top).isWide
  · have hlt : slot - 1 < locals.length := by
      apply lt_length_of_slotOf_ne_top
      intro e
      rw [slotOf] at e
      rw [e] at h
      exact absurd h.2 (by decide)
    rw [if_pos h, slotOf_set _ _ hlt]
    by_cases hi : i = slot - 1
    · rw [if_pos hi, if_pos]
      exact ⟨by omega, by rw [slotOf, hi]; exact h.2⟩
    · rw [if_neg hi, if_neg]
      exact fun c => hi (by omega)
  · rw [if_neg h, if_neg]
    rintro ⟨hi, hw⟩
    apply h
    refine ⟨by omega, ?_⟩
    have : slot - 1 = i := by omega
    rw [this]
    exact hw

theorem length_write (slot : Nat) (v : VerificationType) (locals : List VerificationType) :
    (write slot v locals).length = max (slot + v.slots) locals.length := by
  unfold write
  dsimp only
  split <;> simp [length_breakPair, length_padTo]

/-- What a store leaves in a slot: the value in its own, nothing known in the second slot of a wide
value and in a wide value whose second slot was written to, and what was there in all others. -/
theorem slotOf_write (slot : Nat) (v : VerificationType) (locals : List VerificationType) (i : Nat) :
    slotOf (write slot v locals) i =
      if i = slot then v
      else if v.isWide ∧ i = slot + 1 ∨ i + 1 = slot ∧ (slotOf locals i).isWide then .top
      else slotOf locals i := by
  have hslots : 1 ≤ v.slots := by
    unfold VerificationType.slots
    split <;> omega
  have hlen : slot < (breakPair slot (padTo (slot + v.slots) locals)).length := by
    rw [length_breakPair, length_padTo]
    omega
  unfold write
  dsimp only
  by_cases hw : v.isWide
  · have hlen' : slot + 1 < ((breakPair slot (padTo (slot + v.slots) locals)).set slot v).length := by
      rw [List.length_set, length_breakPair, length_padTo, VerificationType.slots, if_pos hw]
      omega
    rw [if_pos hw, slotOf_set _ _ hlen', slotOf_set _ _ hlen, slotOf_breakPair, slotOf_padTo]
    by_cases hi : i = slot
    · rw [if_neg (by omega), if_pos hi, if_pos hi]
    · by_cases hi' : i = slot + 1
      · rw [if_pos hi', if_neg hi, if_pos (.inl ⟨hw, hi'⟩)]
      · rw [if_neg hi', if_neg hi, if_neg hi]
        simp [hi']
  · rw [if_neg hw, slotOf_set _ _ hlen, slotOf_breakPair, slotOf_padTo]
    simp [hw]

theorem slotOf_map {locals : List VerificationType} {g : VerificationType → VerificationType}
    (hg : g .top = .top) (i : Nat) : slotOf (locals.map g) i = g (slotOf locals i) := by
  unfold slotOf
  rw [List.getD_eq_getElem?_getD, List.getD_eq_getElem?_getD, List.getElem?_map]
  cases locals[i]? <;> simp [hg]

theorem slotOf_joinLocals (mine theirs : List VerificationType) (i : Nat) :
    slotOf (joinLocals mine theirs) i = (slotOf mine i).merge (slotOf theirs i) := by
  have hmine := slotOf_padTo (max mine.length theirs.length) mine i
  have htheirs := slotOf_padTo (max mine.length theirs.length) theirs i
  rw [← hmine, ← htheirs]
  unfold slotOf joinLocals
  simp only [List.getD_eq_getElem?_getD, List.getElem?_zipWith]
  have hlen : (padTo (max mine.length theirs.length) mine).length =
      (padTo (max mine.length theirs.length) theirs).length := by
    rw [length_padTo, length_padTo]
    omega
  by_cases h : i < (padTo (max mine.length theirs.length) mine).length
  · rw [List.getElem?_eq_getElem h, List.getElem?_eq_getElem (hlen ▸ h)]
    rfl
  · rw [List.getElem?_eq_none (Nat.le_of_not_lt h),
      List.getElem?_eq_none (hlen ▸ Nat.le_of_not_lt h)]
    rfl

/-- Trimming drops nothing but `top`s at the end. -/
theorem exists_eq_trimReversed (xs : List VerificationType) :
    ∃ n, xs = List.replicate n .top ++ trimReversed xs := by
  fun_induction trimReversed xs with
  | case1 v rest hw => exact ⟨0, rfl⟩
  | case2 v rest hw ih =>
    obtain ⟨n, hn⟩ := ih
    refine ⟨n + 1, ?_⟩
    rw [List.replicate_succ, List.cons_append, ← hn]
  | case3 => exact ⟨1, rfl⟩
  | case4 => exact ⟨0, rfl⟩

theorem exists_eq_trimLocals (locals : List VerificationType) :
    ∃ n, locals = trimLocals locals ++ List.replicate n .top := by
  obtain ⟨n, hn⟩ := exists_eq_trimReversed locals.reverse
  refine ⟨n, ?_⟩
  have := congrArg List.reverse hn
  rwa [List.reverse_reverse, List.reverse_append, List.reverse_replicate] at this

theorem length_trimLocals_le (locals : List VerificationType) :
    (trimLocals locals).length ≤ locals.length := by
  obtain ⟨n, hn⟩ := exists_eq_trimLocals locals
  have := congrArg List.length hn
  rw [List.length_append] at this
  omega

theorem slotOf_trimLocals (locals : List VerificationType) (i : Nat) :
    slotOf (trimLocals locals) i = slotOf locals i := by
  obtain ⟨n, hn⟩ := exists_eq_trimLocals locals
  have h : padTo ((trimLocals locals).length + n) (trimLocals locals) = locals := by
    rw [padTo, Nat.add_sub_cancel_left]
    exact hn.symm
  rw [← slotOf_padTo ((trimLocals locals).length + n), h]

/-! ## The order of frames -/

/-- One frame is below another: equally high stacks, and below it in every entry and slot. -/
structure Below (f g : Frame) : Prop where
  stack : List.Forall₂ VerificationType.Below f.stack g.stack
  locals : ∀ i, (slotOf f.locals i).Below (slotOf g.locals i)

theorem Below.refl (f : Frame) : f.Below f :=
  ⟨List.forall₂_same.2 fun _ _ => VerificationType.below_refl _, fun _ =>
    VerificationType.below_refl _⟩

theorem forall₂_below_trans {xs ys zs : List VerificationType}
    (h : List.Forall₂ VerificationType.Below xs ys)
    (h' : List.Forall₂ VerificationType.Below ys zs) :
    List.Forall₂ VerificationType.Below xs zs := by
  induction h generalizing zs with
  | nil => exact h'
  | cons hxy _ ih =>
    cases h' with
    | cons hyz hrest => exact .cons (hxy.trans hyz) (ih hrest)

theorem Below.trans {f g k : Frame} (h : f.Below g) (h' : g.Below k) : f.Below k :=
  ⟨forall₂_below_trans h.stack h'.stack, fun i => (h.locals i).trans (h'.locals i)⟩

theorem below_trim (f : Frame) : f.Below f.trim :=
  ⟨(Below.refl f).stack, fun i => by
    rw [trim, slotOf_trimLocals]
    exact VerificationType.below_refl _⟩

theorem forall₂_below_zipWith_merge_left {xs ys : List VerificationType}
    (h : xs.length = ys.length) :
    List.Forall₂ VerificationType.Below xs (List.zipWith VerificationType.merge xs ys) := by
  induction xs generalizing ys with
  | nil => simp
  | cons x xs ih =>
    cases ys with
    | nil => simp at h
    | cons y ys =>
      rw [List.zipWith_cons_cons]
      exact .cons (VerificationType.below_merge_left x y) (ih (by simpa using h))

theorem zipWith_merge_comm (xs ys : List VerificationType) :
    List.zipWith VerificationType.merge xs ys = List.zipWith VerificationType.merge ys xs :=
  List.zipWith_comm_of_comm VerificationType.merge_comm

/-- What a join that succeeds answers. -/
theorem join_eq_ok {index : Nat} {mine theirs joined : Frame}
    (h : mine.join index theirs = .ok joined) :
    mine.stack.length = theirs.stack.length ∧
      joined.locals = trimLocals (joinLocals mine.locals theirs.locals) ∧
      joined.stack = List.zipWith VerificationType.merge mine.stack theirs.stack := by
  unfold join at h
  split at h
  · simp at h
  · next hlen =>
    obtain rfl := Except.ok.inj h
    exact ⟨Decidable.not_not.1 hlen, rfl, rfl⟩

theorem below_join_left {index : Nat} {mine theirs joined : Frame}
    (h : mine.join index theirs = .ok joined) : mine.Below joined := by
  obtain ⟨hlen, hlocals, hstack⟩ := join_eq_ok h
  refine ⟨?_, fun i => ?_⟩
  · rw [hstack]
    exact forall₂_below_zipWith_merge_left hlen
  · rw [hlocals, slotOf_trimLocals, slotOf_joinLocals]
    exact VerificationType.below_merge_left _ _

theorem below_join_right {index : Nat} {mine theirs joined : Frame}
    (h : mine.join index theirs = .ok joined) : theirs.Below joined := by
  obtain ⟨hlen, hlocals, hstack⟩ := join_eq_ok h
  refine ⟨?_, fun i => ?_⟩
  · rw [hstack, zipWith_merge_comm]
    exact forall₂_below_zipWith_merge_left hlen.symm
  · rw [hlocals, slotOf_trimLocals, slotOf_joinLocals]
    exact VerificationType.below_merge_right _ _

end Frame

end EntityLoom
