/-!
# Sorting

A list in the order of a comparison.  Items are inserted one by one into a sorted list, so that the
order of a given list is found by plain evaluation, in proofs as well.  `sortBy_perm` and
`sortBy_pairwise` say that the items stay the same and come in order.
-/

namespace EntityLoom

variable {α : Type} {le : α → α → Bool}

/-- Inserts an item into a sorted list, before the items that it is even with. -/
def insertBy (le : α → α → Bool) (x : α) : List α → List α
  | [] => [x]
  | y :: rest => if le x y then x :: y :: rest else y :: insertBy le x rest

/-- The items of a list in order; those that are even stay in the order in which they were. -/
def sortBy (le : α → α → Bool) (xs : List α) : List α :=
  xs.foldr (insertBy le) []

theorem insertBy_perm (x : α) (xs : List α) : (insertBy le x xs).Perm (x :: xs) := by
  induction xs with
  | nil => exact .refl _
  | cons y rest ih =>
    unfold insertBy
    split
    · exact .refl _
    · exact (ih.cons y).trans (.swap x y rest)

theorem sortBy_perm (xs : List α) : (sortBy le xs).Perm xs := by
  induction xs with
  | nil => exact .refl _
  | cons x rest ih => exact (insertBy_perm x _).trans (ih.cons x)

theorem mem_sortBy {x : α} {xs : List α} : x ∈ sortBy le xs ↔ x ∈ xs :=
  (sortBy_perm xs).mem_iff

theorem insertBy_pairwise (trans : ∀ a b c, le a b → le b c → le a c)
    (total : ∀ a b, le a b || le b a) (x : α) {xs : List α}
    (h : xs.Pairwise fun a b => le a b) : (insertBy le x xs).Pairwise fun a b => le a b := by
  induction xs with
  | nil => exact List.pairwise_singleton _ _
  | cons y rest ih =>
    obtain ⟨hy, hrest⟩ := List.pairwise_cons.1 h
    unfold insertBy
    split
    case isTrue hxy =>
      refine List.pairwise_cons.2 ⟨fun z hz => ?_, h⟩
      rcases List.mem_cons.1 hz with rfl | hz
      · exact hxy
      · exact trans _ _ _ hxy (hy z hz)
    case isFalse hxy =>
      refine List.pairwise_cons.2 ⟨fun z hz => ?_, ih hrest⟩
      rcases List.mem_cons.1 ((insertBy_perm x rest).mem_iff.1 hz) with rfl | hz
      · exact (Bool.or_eq_true _ _ ▸ total z y).resolve_left hxy
      · exact hy z hz

/-- The items of a sorted list come in order, if the comparison is one. -/
theorem sortBy_pairwise (trans : ∀ a b c, le a b → le b c → le a c)
    (total : ∀ a b, le a b || le b a) (xs : List α) :
    (sortBy le xs).Pairwise fun a b => le a b := by
  induction xs with
  | nil => exact .nil
  | cons x rest ih => exact insertBy_pairwise trans total x ih

end EntityLoom
