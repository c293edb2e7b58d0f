/-!
# Totals

The sum of what is counted in each item of a list.
-/

namespace EntityLoom

variable {α : Type} {count : α → Nat}

/-- The sum of what `count` says of the items of a list. -/
def total (count : α → Nat) (xs : List α) : Nat :=
  xs.foldr (fun x n => count x + n) 0

@[simp] theorem total_nil : total count [] = 0 := rfl

@[simp] theorem total_cons (x : α) (xs : List α) :
    total count (x :: xs) = count x + total count xs := rfl

@[simp] theorem total_append (xs ys : List α) :
    total count (xs ++ ys) = total count xs + total count ys := by
  induction xs with
  | nil => simp
  | cons x xs ih =>
    rw [List.cons_append, total_cons, total_cons, ih]
    omega

@[simp] theorem total_reverse (xs : List α) : total count xs.reverse = total count xs := by
  induction xs with
  | nil => rfl
  | cons x xs ih =>
    rw [List.reverse_cons, total_append, ih, total_cons, total_cons, total_nil]
    omega

@[simp] theorem total_replicate (n : Nat) (x : α) :
    total count (List.replicate n x) = n * count x := by
  induction n with
  | zero => simp
  | succ n ih =>
    rw [List.replicate_succ, total_cons, ih, Nat.succ_mul]
    omega

/-- Replacing an item changes the sum by what is counted in the two. -/
theorem total_set (count : α → Nat) {xs : List α} {i : Nat} (h : i < xs.length) (x : α) :
    total count (xs.set i x) + count xs[i] = total count xs + count x := by
  induction xs generalizing i with
  | nil => simp at h
  | cons y ys ih =>
    cases i with
    | zero =>
      simp only [List.set_cons_zero, total_cons, List.getElem_cons_zero]
      omega
    | succ i =>
      have := ih (i := i) (by simpa using h)
      simp only [List.set_cons_succ, total_cons, List.getElem_cons_succ]
      omega

theorem total_le_of_forall {n : Nat} {xs : List α} (h : ∀ x ∈ xs, count x ≤ n) :
    total count xs ≤ xs.length * n := by
  induction xs with
  | nil => simp
  | cons x xs ih =>
    have hx := h x List.mem_cons_self
    have hxs := ih fun y hy => h y (List.mem_cons_of_mem x hy)
    rw [total_cons, List.length_cons, Nat.succ_mul]
    omega

theorem countP_eq_total (p : α → Bool) (xs : List α) :
    xs.countP p = total (fun x => (p x).toNat) xs := by
  induction xs with
  | nil => rfl
  | cons x xs ih =>
    rw [List.countP_cons, ih, total_cons]
    cases p x <;> simp
    omega

end EntityLoom
