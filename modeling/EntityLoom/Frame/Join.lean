import EntityLoom.Frame.Basic

/-!
# The join of frames

Where several ways lead to one instruction, its frame is the join of the frames that arrive.  The
stacks are joined entry by entry and must be equally high.  The locals are joined slot by slot, a
missing slot counting as `top`, and are then trimmed of the `top`s at their end.

The main statement is `height_join_lt`: a join that changes a frame makes its height smaller.  The
height counts how far the entries can still rise, and beyond that two changes of shape that leave
all entries as they are: trimming a frame that was not trimmed, and completing a wide value at the
end that lacks its second slot.
-/

namespace EntityLoom.Frame

/-! ## Trimming -/

/-- Drops `top`s at the front of locals that are listed last first, but for the second slot of a
wide value. -/
def trimReversed : List VerificationType → List VerificationType
  | .top :: v :: rest => if v.isWide then .top :: v :: rest else trimReversed (v :: rest)
  | [.top] => []
  | locals => locals

/-- Drops `top`s at the end of locals, but for the second slot of a wide value. -/
def trimLocals (locals : List VerificationType) : List VerificationType :=
  (trimReversed locals.reverse).reverse

/-- The frame with its locals trimmed. -/
def trim (f : Frame) : Frame :=
  { f with locals := trimLocals f.locals }

/-! ## Joining -/

/-- The join of two lists of locals, before trimming. -/
def joinLocals (mine theirs : List VerificationType) : List VerificationType :=
  let n := max mine.length theirs.length
  List.zipWith VerificationType.merge (padTo n mine) (padTo n theirs)

/-- The join of the frame recorded for the instruction at `index` with a frame that arrives. -/
def join (index : Nat) (mine theirs : Frame) : Except EmissionError Frame :=
  if mine.stack.length ≠ theirs.stack.length then
    .error (.stackMismatch index mine.stack.length theirs.stack.length)
  else
    .ok
      { locals := trimLocals (joinLocals mine.locals theirs.locals)
        stack := List.zipWith VerificationType.merge mine.stack theirs.stack }

/-! ## Heights -/

/-- How far the entries of a list can still rise together. -/
def entriesHeight (vs : List VerificationType) : Nat :=
  total VerificationType.height vs

/-- How many changes of shape locals can still go through. -/
def shapeHeight (locals : List VerificationType) : Nat :=
  if trimLocals locals ≠ locals then 2
  else if locals.getLast?.any VerificationType.isWide then 1
  else 0

/-- How far a frame can still rise. -/
def height (f : Frame) : Nat :=
  3 * (entriesHeight f.locals + entriesHeight f.stack) + shapeHeight f.locals

theorem shapeHeight_le (locals : List VerificationType) : shapeHeight locals ≤ 2 := by
  unfold shapeHeight
  split
  · exact Nat.le_refl 2
  · split <;> omega

theorem entriesHeight_append (xs ys : List VerificationType) :
    entriesHeight (xs ++ ys) = entriesHeight xs + entriesHeight ys := by
  simp [entriesHeight]

theorem entriesHeight_reverse (xs : List VerificationType) :
    entriesHeight xs.reverse = entriesHeight xs := by
  simp [entriesHeight]

theorem entriesHeight_padTo (n : Nat) (xs : List VerificationType) :
    entriesHeight (padTo n xs) = entriesHeight xs := by
  rw [padTo, entriesHeight_append]
  simp [entriesHeight, VerificationType.height]

theorem length_padTo (n : Nat) (xs : List VerificationType) :
    (padTo n xs).length = max n xs.length := by
  simp only [padTo, List.length_append, List.length_replicate]
  omega

/-! ## Trimming and heights -/

theorem entriesHeight_trimReversed (xs : List VerificationType) :
    entriesHeight (trimReversed xs) = entriesHeight xs := by
  fun_induction trimReversed xs with
  | case1 v rest hw => rfl
  | case2 v rest hw ih => rw [ih]; simp [entriesHeight, VerificationType.height]
  | case3 => rfl
  | case4 => rfl

theorem entriesHeight_trimLocals (xs : List VerificationType) :
    entriesHeight (trimLocals xs) = entriesHeight xs := by
  rw [trimLocals, entriesHeight_reverse, entriesHeight_trimReversed, entriesHeight_reverse]

theorem trimReversed_trimReversed (xs : List VerificationType) :
    trimReversed (trimReversed xs) = trimReversed xs := by
  fun_induction trimReversed xs with
  | case1 v rest hw => simp [trimReversed, hw]
  | case2 v rest hw ih => exact ih
  | case3 => rfl
  | case4 xs h₁ h₂ =>
    unfold trimReversed
    split <;> simp_all

theorem trimLocals_trimLocals (xs : List VerificationType) :
    trimLocals (trimLocals xs) = trimLocals xs := by
  simp [trimLocals, trimReversed_trimReversed]

/-- `top`s in front of reversed locals are dropped, but for one in front of a wide value. -/
theorem trimReversed_replicate (k : Nat) (xs : List VerificationType) :
    trimReversed (List.replicate k .top ++ xs) =
      if 0 < k ∧ xs.head?.any VerificationType.isWide then .top :: xs else trimReversed xs := by
  induction k with
  | zero => simp
  | succ k ih =>
    cases k with
    | zero =>
      cases xs with
      | nil => simp [trimReversed]
      | cons v rest => simp [List.replicate, trimReversed]
    | succ k =>
      rw [List.replicate_succ, List.cons_append, List.replicate_succ, List.cons_append,
        trimReversed, if_neg (by simp [VerificationType.isWide]), ← List.cons_append,
        ← List.replicate_succ, ih]
      simp

theorem trimLocals_padTo (n : Nat) (xs : List VerificationType) :
    trimLocals (padTo n xs) =
      if xs.length < n ∧ xs.getLast?.any VerificationType.isWide then xs ++ [.top]
      else trimLocals xs := by
  rw [trimLocals, padTo, List.reverse_append, List.reverse_replicate, trimReversed_replicate,
    List.head?_reverse]
  by_cases h : xs.length < n
  · by_cases hw : xs.getLast?.any VerificationType.isWide
    · rw [if_pos ⟨by omega, hw⟩, if_pos ⟨h, hw⟩]
      simp
    · rw [if_neg (fun c => hw c.2), if_neg (fun c => hw c.2), trimLocals]
  · rw [if_neg (fun c => by omega), if_neg (fun c => h c.1), trimLocals]

/-! ## Joins and heights -/

/-- An entry by entry join is not higher than its left side, and equal to it when as high. -/
theorem entriesHeight_zipWith_merge {xs ys : List VerificationType}
    (h : xs.length = ys.length) :
    entriesHeight (List.zipWith VerificationType.merge xs ys) < entriesHeight xs ∨
      List.zipWith VerificationType.merge xs ys = xs := by
  induction xs generalizing ys with
  | nil => cases ys <;> simp
  | cons x xs ih =>
    cases ys with
    | nil => simp at h
    | cons y ys =>
      simp only [List.length_cons, Nat.add_right_cancel_iff] at h
      simp only [List.zipWith_cons_cons, entriesHeight, total_cons,
        List.cons.injEq]
      by_cases hx : x.merge y = x
      · rw [hx]
        rcases ih h with hlt | heq
        · simp only [entriesHeight] at hlt
          exact .inl (by omega)
        · exact .inr ⟨rfl, heq⟩
      · have hx' := VerificationType.height_merge_lt hx
        rcases ih h with hlt | heq
        · simp only [entriesHeight] at hlt
          exact .inl (by omega)
        · rw [heq]
          exact .inl (by omega)

theorem entriesHeight_joinLocals (mine theirs : List VerificationType) :
    entriesHeight (joinLocals mine theirs) < entriesHeight mine ∨
      joinLocals mine theirs = padTo (max mine.length theirs.length) mine := by
  have hlen : (padTo (max mine.length theirs.length) mine).length =
      (padTo (max mine.length theirs.length) theirs).length := by
    rw [length_padTo, length_padTo]; omega
  have h := entriesHeight_zipWith_merge hlen
  rwa [entriesHeight_padTo] at h

/-- Trimming padded locals changes them only where their shape can still change. -/
theorem shapeHeight_trimLocals_padTo_lt {n : Nat} {xs : List VerificationType}
    (h : trimLocals (padTo n xs) ≠ xs) :
    shapeHeight (trimLocals (padTo n xs)) < shapeHeight xs := by
  by_cases ht : trimLocals xs = xs
  · rw [trimLocals_padTo] at h ⊢
    by_cases hc : xs.length < n ∧ xs.getLast?.any VerificationType.isWide
    · rw [if_pos hc]
      have htop : trimLocals (xs ++ [.top]) = xs ++ [.top] := by
        have := trimLocals_padTo (xs.length + 1) xs
        rwa [if_pos ⟨by omega, hc.2⟩, padTo, Nat.add_sub_cancel_left] at this
      simp only [shapeHeight, htop, ht, hc.2]
      simp [VerificationType.isWide]
    · rw [if_neg hc] at h
      exact absurd ht h
  · have h₁ : shapeHeight xs = 2 := by simp [shapeHeight, ht]
    have h₂ : shapeHeight (trimLocals (padTo n xs)) ≤ 1 := by
      simp only [shapeHeight, trimLocals_trimLocals, ne_eq, not_true_eq_false, if_false]
      split <;> omega
    omega

/-- A join that changes a frame makes it less high. -/
theorem height_join_lt {index : Nat} {mine theirs joined : Frame}
    (h : mine.join index theirs = .ok joined) (hne : joined ≠ mine) :
    joined.height < mine.height := by
  unfold join at h
  split at h
  · simp at h
  · next hlen =>
    simp only [Except.ok.injEq] at h
    have hlen' : mine.stack.length = theirs.stack.length := by simpa using hlen
    have hstack := entriesHeight_zipWith_merge hlen'
    have hlocals := entriesHeight_joinLocals mine.locals theirs.locals
    have hshape := shapeHeight_le (trimLocals (joinLocals mine.locals theirs.locals))
    subst h
    simp only [height, entriesHeight_trimLocals]
    rcases hstack with hs | hs
    · rcases hlocals with hl | hl
      · omega
      · have := entriesHeight_padTo (max mine.locals.length theirs.locals.length) mine.locals
        rw [← hl] at this
        omega
    · rw [hs]
      rcases hlocals with hl | hl
      · omega
      · have := entriesHeight_padTo (max mine.locals.length theirs.locals.length) mine.locals
        rw [← hl] at this
        have hne' : trimLocals (joinLocals mine.locals theirs.locals) ≠ mine.locals := by
          intro he
          apply hne
          rw [hs, he]
        rw [hl] at hne'
        have := shapeHeight_trimLocals_padTo_lt hne'
        rw [← hl] at this
        omega

end EntityLoom.Frame
