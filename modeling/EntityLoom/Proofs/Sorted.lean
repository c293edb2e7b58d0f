import EntityLoom.Sorting
import Mathlib.Order.Lattice

/-!
# Sorted lists without repetitions

Of a sorted list the items that equal the one before them can be dropped.  What is left has the same
items and increases (`mem_eraseReps`, `pairwise_eraseReps`), so of a list that is sorted first it is
the set of its items alone (`eraseReps_sortBy_eq_iff`).
-/

namespace EntityLoom

variable {α : Type}

theorem length_eraseReps_loop_le (r : α → α → Bool) (x : α) (xs acc : List α) :
    (List.eraseRepsBy.loop r x xs acc).length ≤ acc.length + xs.length + 1 := by
  induction xs generalizing x acc with
  | nil => simp [List.eraseRepsBy.loop]
  | cons y ys ih =>
    rw [List.eraseRepsBy.loop, List.length_cons]
    split
    · have := ih x acc
      omega
    · have := ih y (x :: acc)
      rw [List.length_cons] at this
      omega

theorem length_eraseReps_le [BEq α] (xs : List α) :
    xs.eraseReps.length ≤ xs.length := by
  cases xs with
  | nil => exact Nat.le_refl _
  | cons x xs =>
    have hloop := length_eraseReps_loop_le (· == ·) x xs []
    rw [List.length_nil, Nat.zero_add] at hloop
    exact hloop

variable [BEq α] [LawfulBEq α]

theorem mem_eraseReps_loop {x a : α} {xs acc : List α} :
    x ∈ List.eraseRepsBy.loop (· == ·) a xs acc ↔ x ∈ acc ∨ x = a ∨ x ∈ xs := by
  induction xs generalizing a acc with
  | nil => simp [List.eraseRepsBy.loop, or_comm]
  | cons y ys ih =>
    rw [List.eraseRepsBy.loop]
    split
    · next h =>
      rw [ih, ← eq_of_beq h, List.mem_cons]
      simp
    · rw [ih, List.mem_cons, List.mem_cons, or_assoc, or_left_comm]

theorem mem_eraseReps {x : α} {xs : List α} : x ∈ xs.eraseReps ↔ x ∈ xs := by
  cases xs with
  | nil => exact Iff.rfl
  | cons a xs =>
    refine mem_eraseReps_loop.trans ?_
    simp

variable [LinearOrder α]

theorem pairwise_eraseReps_loop {a : α} {xs acc : List α} (hsorted : (a :: xs).Pairwise (· ≤ ·))
    (hacc : (a :: acc).Pairwise (· > ·)) :
    (List.eraseRepsBy.loop (· == ·) a xs acc).Pairwise (· < ·) := by
  induction xs generalizing a acc with
  | nil => exact List.pairwise_reverse.2 hacc
  | cons y ys ih =>
    obtain ⟨ha, hys⟩ := List.pairwise_cons.1 hsorted
    obtain ⟨hay, hays⟩ := List.forall_mem_cons.1 ha
    rw [List.eraseRepsBy.loop]
    split
    · exact ih (List.pairwise_cons.2 ⟨hays, (List.pairwise_cons.1 hys).2⟩) hacc
    · next h =>
      have hlt : a < y := lt_of_le_of_ne hay (beq_eq_false_iff_ne.1 h)
      refine ih hys (List.pairwise_cons.2 ⟨fun x hx => ?_, hacc⟩)
      rcases List.mem_cons.1 hx with rfl | hx
      · exact hlt
      · exact lt_trans ((List.pairwise_cons.1 hacc).1 x hx) hlt

/-- Without repetitions sorted items increase. -/
theorem pairwise_eraseReps {xs : List α} (h : xs.Pairwise (· ≤ ·)) :
    xs.eraseReps.Pairwise (· < ·) := by
  cases xs with
  | nil => exact .nil
  | cons a xs => exact pairwise_eraseReps_loop h (List.pairwise_singleton _ _)

/-- Two lists come to the same, sorted and without repetitions, exactly if they have the same
items. -/
theorem eraseReps_sortBy_eq_iff {le : α → α → Bool} (hle : ∀ a b, le a b ↔ a ≤ b) {xs ys : List α} :
    (sortBy le xs).eraseReps = (sortBy le ys).eraseReps ↔ ∀ x, x ∈ xs ↔ x ∈ ys := by
  have hincreasing : ∀ zs : List α, (sortBy le zs).eraseReps.Pairwise (· < ·) := by
    intro zs
    refine pairwise_eraseReps ((sortBy_pairwise ?_ ?_ zs).imp fun h => (hle _ _).1 h)
    · intro a b c hab hbc
      exact (hle a c).2 (le_trans ((hle a b).1 hab) ((hle b c).1 hbc))
    · intro a b
      rw [Bool.or_eq_true, hle, hle]
      exact le_total a b
  have hmem : ∀ (zs : List α) x, x ∈ (sortBy le zs).eraseReps ↔ x ∈ zs :=
    fun zs x => mem_eraseReps.trans mem_sortBy
  constructor
  · intro h x
    rw [← hmem xs, h, hmem]
  · intro h
    have hperm := (List.perm_ext_iff_of_nodup ((hincreasing xs).imp ne_of_lt)
      ((hincreasing ys).imp ne_of_lt)).2 fun x => by rw [hmem, hmem, h]
    exact hperm.eq_of_pairwise (fun a b _ _ hab hba => absurd hab (lt_asymm hba)) (hincreasing xs)
      (hincreasing ys)

end EntityLoom
