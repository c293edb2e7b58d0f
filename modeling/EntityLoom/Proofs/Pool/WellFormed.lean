import EntityLoom.Proofs.Pool.Codec

/-!
# Well-formed pools

A pool is well formed when its slots are laid out as the format has it and its table names the first
slot of each constant.  `wellFormed_iff_built` says that these are the pools that are filled by
appending constants: what a pool holds does not depend on whether it was read or interned.
-/

namespace EntityLoom.Pool

variable {p : Pool} {c d : Constant} {i j : UInt16}

/-! ## Layout -/

/-- Each long or double is followed by an empty slot, and no other slot is empty. -/
structure Tiled (slots : List (Option Constant)) : Prop where
  wide : ∀ k c, slots[k]? = some (some c) → c.isWide = true → slots[k + 1]? = some none
  empty : ∀ k, slots[k]? = some none →
    ∃ l c, k = l + 1 ∧ slots[l]? = some (some c) ∧ c.isWide = true

theorem Tiled.tail {slots : List (Option Constant)} (h : Tiled (some c :: slots))
    (hc : c.isWide = false) : Tiled slots := by
  refine ⟨fun k d hd => h.wide (k + 1) d hd, fun k hk => ?_⟩
  obtain ⟨l, d, hl, hd, hwide⟩ := h.empty (k + 1) hk
  obtain rfl : k = l := Nat.succ.inj hl
  cases k with
  | zero =>
    obtain rfl := Option.some.inj (Option.some.inj hd)
    rw [hc] at hwide
    cases hwide
  | succ k => exact ⟨k, d, rfl, hd, hwide⟩

theorem Tiled.tail_of_wide {slots : List (Option Constant)} (h : Tiled (some c :: none :: slots)) :
    Tiled slots := by
  refine ⟨fun k d hd => h.wide (k + 2) d hd, fun k hk => ?_⟩
  obtain ⟨l, d, hl, hd, hwide⟩ := h.empty (k + 2) hk
  obtain rfl : k + 1 = l := Nat.succ.inj hl
  cases k with
  | zero => cases hd
  | succ k => exact ⟨k, d, rfl, hd, hwide⟩

/-- Tiled slots are those that some constants fill. -/
theorem Tiled.exists_constants {slots : List (Option Constant)} (h : Tiled slots) :
    ∃ cs : List Constant, slots = cs.flatMap slotsOf := by
  induction hlen : slots.length using Nat.strongRecOn generalizing slots with
  | ind n ih =>
    rcases slots with _ | ⟨_ | c, rest⟩
    · exact ⟨[], rfl⟩
    · obtain ⟨l, -, hl, -⟩ := h.empty 0 rfl
      cases hl
    · rw [List.length_cons] at hlen
      cases hc : c.isWide with
      | false =>
        obtain ⟨cs, rfl⟩ := ih rest.length (by omega) (h.tail hc) rfl
        exact ⟨c :: cs, by simp [slotsOf, hc]⟩
      | true =>
        have hnext := h.wide 0 c rfl hc
        rcases rest with _ | ⟨_ | d, rest⟩
        · cases hnext
        · rw [List.length_cons] at hlen
          obtain ⟨cs, rfl⟩ := ih rest.length (by omega) h.tail_of_wide rfl
          exact ⟨c :: cs, by simp [slotsOf, hc]⟩
        · cases hnext

theorem tiled_flatMap (cs : List Constant) : Tiled (cs.flatMap slotsOf) := by
  induction cs with
  | nil => exact ⟨by simp, by simp⟩
  | cons c cs ih =>
    rw [List.flatMap_cons]
    cases hc : c.isWide with
    | false =>
      have hslots : slotsOf c = [some c] := by simp [slotsOf, hc]
      rw [hslots, List.singleton_append]
      refine ⟨fun k d hd hwide => ?_, fun k hk => ?_⟩
      · cases k with
        | zero =>
          obtain rfl := Option.some.inj (Option.some.inj hd)
          rw [hc] at hwide
          cases hwide
        | succ k => exact ih.wide k d hd hwide
      · cases k with
        | zero => cases hk
        | succ k =>
          obtain ⟨l, d, rfl, hd, hwide⟩ := ih.empty k hk
          exact ⟨l + 1, d, rfl, hd, hwide⟩
    | true =>
      have hslots : slotsOf c = [some c, none] := by simp [slotsOf, hc]
      rw [hslots, List.cons_append, List.singleton_append]
      refine ⟨fun k d hd hwide => ?_, fun k hk => ?_⟩
      · rcases k with _ | _ | k
        · rfl
        · cases hd
        · exact ih.wide k d hd hwide
      · rcases k with _ | _ | k
        · cases hk
        · exact ⟨0, c, rfl, rfl, hc⟩
        · obtain ⟨l, d, rfl, hd, hwide⟩ := ih.empty k hk
          exact ⟨l + 2, d, rfl, hd, hwide⟩

/-! ## The table -/

/-- The first slot that holds a constant. -/
structure IsFirst (p : Pool) (c : Constant) (i : UInt16) : Prop where
  holds : p.get? i = some c
  least : ∀ j, p.get? j = some c → i ≤ j

theorem exists_isFirst (h : p.get? j = some c) : ∃ i, p.IsFirst c i := by
  induction hn : j.toNat using Nat.strongRecOn generalizing j with
  | ind n ih =>
    by_cases hless : ∃ k, p.get? k = some c ∧ k < j
    · obtain ⟨k, hk, hlt⟩ := hless
      exact ih k.toNat (hn ▸ UInt16.lt_iff_toNat_lt.1 hlt) hk rfl
    · exact ⟨j, h, fun k hk => UInt16.not_lt.1 fun hlt => hless ⟨k, hk, hlt⟩⟩

/-- What slots hold after a constant was appended. -/
theorem get?_append_eq_some (room : p.count < maxCount) :
    (p.append c).get? j = some d ↔ p.get? j = some d ∨ d = c ∧ j = UInt16.ofNat p.count := by
  unfold maxCount at room
  have hcount : (UInt16.ofNat p.count).toNat = p.slots.toList.length := by
    rw [← count_eq]
    exact Bytes.toNat_length16 (by omega)
  have hindex : j = UInt16.ofNat p.count ↔ j.toNat = p.slots.toList.length := by
    rw [← UInt16.toNat_inj, hcount]
  rw [hindex, get?_eq, get?_eq, slots_append]
  rcases Nat.lt_trichotomy j.toNat p.slots.toList.length with hlt | heq | hgt
  · rw [List.getElem?_append_left hlt]
    exact ⟨.inl, fun h => h.resolve_right fun h => absurd h.2 (Nat.ne_of_lt hlt)⟩
  · rw [heq, List.getElem?_append_right (Nat.le_refl _), Nat.sub_self,
      List.getElem?_eq_none (Nat.le_refl _)]
    simp only [slotsOf, List.getElem?_cons_zero, Option.join_some, Option.join_none, reduceCtorEq,
      false_or, and_true, Option.some.injEq]
    exact eq_comm
  · have hnone : (slotsOf c)[j.toNat - p.slots.toList.length]?.join = none := by
      obtain ⟨k, hk⟩ : ∃ k, j.toNat - p.slots.toList.length = k + 1 :=
        ⟨j.toNat - p.slots.toList.length - 1, by omega⟩
      rw [hk, slotsOf]
      split <;> cases k <;> rfl
    rw [List.getElem?_append_right (Nat.le_of_lt hgt), hnone,
      List.getElem?_eq_none (Nat.le_of_lt hgt)]
    refine iff_of_false (fun h => by cases h) ?_
    rintro (⟨⟨⟩⟩ | ⟨-, heq⟩)
    exact Nat.ne_of_gt hgt heq

theorem lt_count_of_get? (h : p.get? j = some c) : j.toNat < p.count := by
  rw [get?_eq] at h
  rw [count_eq]
  by_contra hge
  rw [List.getElem?_eq_none (by omega)] at h
  cases h

theorem lt_of_get? (room : p.count < maxCount) (h : p.get? j = some c) :
    j < UInt16.ofNat p.count := by
  unfold maxCount at room
  rw [UInt16.lt_iff_toNat_lt, Bytes.toNat_length16 (by omega)]
  exact lt_count_of_get? h

/-- A constant that no slot held is first in the slot where it is appended. -/
theorem isFirst_append_self (room : p.count < maxCount) (hnew : ∀ k, p.get? k ≠ some c) :
    (p.append c).IsFirst c i ↔ UInt16.ofNat p.count = i := by
  constructor
  · intro h
    exact (((get?_append_eq_some room).1 h.holds).resolve_left (hnew i)).2.symm
  · rintro rfl
    refine ⟨(get?_append_eq_some room).2 (.inr ⟨rfl, rfl⟩), fun j hj => ?_⟩
    obtain ⟨-, rfl⟩ := ((get?_append_eq_some room).1 hj).resolve_left (hnew j)
    exact UInt16.le_refl _

/-- The first slots of other constants, and of one that a slot held, stay. -/
theorem isFirst_append_of_old (room : p.count < maxCount)
    (hold : ¬(d = c ∧ ∀ k, p.get? k ≠ some c)) : (p.append c).IsFirst d i ↔ p.IsFirst d i := by
  constructor
  · intro h
    have hi : p.get? i = some d := by
      refine ((get?_append_eq_some room).1 h.holds).resolve_right fun ⟨hd, hi⟩ =>
        hold ⟨hd, fun k hk => ?_⟩
      subst hd hi
      have hle := h.least k ((get?_append_eq_some room).2 (.inl hk))
      exact UInt16.not_le.2 (lt_of_get? room hk) hle
    exact ⟨hi, fun j hj => h.least j ((get?_append_eq_some room).2 (.inl hj))⟩
  · intro h
    refine ⟨(get?_append_eq_some room).2 (.inl h.holds), fun j hj => ?_⟩
    rcases (get?_append_eq_some room).1 hj with hj | ⟨-, rfl⟩
    · exact h.least j hj
    · exact UInt16.le_of_lt (lt_of_get? room h.holds)

/-- The table of a pool that is filled by appending names the first slot of each constant. -/
theorem Built.firstSlot_eq_some_iff (h : p.Built) :
    p.firstSlot[c]? = some i ↔ p.IsFirst c i := by
  induction h generalizing c i with
  | empty =>
    have hnone : Pool.empty.firstSlot[c]? = none := Std.ExtTreeMap.getElem?_empty
    rw [hnone]
    refine iff_of_false (by simp) fun h => ?_
    have hzero : i.toNat = 0 := Nat.lt_one_iff.1 (lt_count_of_get? h.holds)
    have hget := h.holds
    rw [get?_eq, hzero] at hget
    cases hget
  | @append p _ d room ih =>
    have hmem : d ∈ p.firstSlot ↔ ∃ k, p.get? k = some d := by
      rw [Std.ExtTreeMap.mem_iff_isSome_getElem?, Option.isSome_iff_exists]
      refine ⟨fun ⟨k, hk⟩ => ⟨k, (ih.1 hk).holds⟩, fun ⟨k, hk⟩ => ?_⟩
      obtain ⟨first, hfirst⟩ := exists_isFirst hk
      exact ⟨first, ih.2 hfirst⟩
    have hnew : (c = d ∧ d ∉ p.firstSlot) ↔ c = d ∧ ∀ k, p.get? k ≠ some d := by
      rw [hmem, not_exists]
    rw [firstSlot_append]
    split
    · next h =>
      obtain ⟨rfl, hnew⟩ := hnew.1 h
      rw [Option.some_inj, isFirst_append_self room hnew]
    · next h => rw [ih, isFirst_append_of_old room (mt hnew.2 h)]

/-! ## Well-formed pools -/

/-- The first slot is empty, behind it exactly the second slots of longs and doubles are, and the
table names the first slot of each constant. -/
structure WellFormed (p : Pool) : Prop where
  slots : ∃ slots, p.slots.toList = none :: slots ∧ Tiled slots
  table : ∀ c i, p.firstSlot[c]? = some i ↔ p.IsFirst c i

theorem Built.wellFormed (h : p.Built) : p.WellFormed := by
  refine ⟨?_, fun c i => h.firstSlot_eq_some_iff⟩
  obtain ⟨cs, rfl⟩ := h.exists_appendAll
  exact ⟨cs.flatMap slotsOf, slots_appendAll _ _, tiled_flatMap cs⟩

theorem WellFormed.count_pos (h : p.WellFormed) : 0 < p.count := by
  obtain ⟨slots, hslots, -⟩ := h.slots
  rw [count_eq, hslots]
  exact Nat.succ_pos _

/-- There is a slot behind each long or double. -/
theorem WellFormed.lt_count_of_wide (h : p.WellFormed) (hc : p.get? j = some c)
    (hwide : c.isWide = true) : j.toNat + 1 < p.count := by
  obtain ⟨slots, hslots, htiled⟩ := h.slots
  rw [get?_eq, hslots, Option.join_eq_some_iff] at hc
  rw [count_eq, hslots, List.length_cons, Nat.add_lt_add_iff_right]
  cases hj : j.toNat with
  | zero =>
    rw [hj] at hc
    cases hc
  | succ k =>
    rw [hj] at hc
    have hnext := htiled.wide k c hc hwide
    exact (List.getElem?_eq_some_iff.1 hnext).1

/-- Pools with the same slots whose tables name first slots are equal. -/
theorem eq_of_slots_eq {q : Pool} (hslots : p.slots.toList = q.slots.toList)
    (hp : ∀ c i, p.firstSlot[c]? = some i ↔ p.IsFirst c i)
    (hq : ∀ c i, q.firstSlot[c]? = some i ↔ q.IsFirst c i) : p = q := by
  have hget : ∀ j, p.get? j = q.get? j := fun j => by
    rw [get?_eq, get?_eq, hslots]
  have hfirst : ∀ c i, p.IsFirst c i ↔ q.IsFirst c i := fun c i =>
    ⟨fun h => ⟨hget i ▸ h.holds, fun j hj => h.least j ((hget j).trans hj)⟩,
      fun h => ⟨(hget i).trans h.holds, fun j hj => h.least j (hget j ▸ hj)⟩⟩
  have htable : p.firstSlot = q.firstSlot := by
    refine Std.ExtTreeMap.ext_getElem? fun c => Option.ext fun i => ?_
    rw [hp, hq, hfirst]
  have harray := Array.toList_inj.1 hslots
  cases p
  cases q
  rw [Pool.mk.injEq]
  exact ⟨harray, htable⟩

/-- The well-formed pools of a size that has room are those that are filled by appending. -/
theorem wellFormed_iff_built (hcount : p.count ≤ maxCount) : p.WellFormed ↔ p.Built := by
  refine ⟨fun h => ?_, Built.wellFormed⟩
  obtain ⟨slots, hslots, htiled⟩ := h.slots
  obtain ⟨cs, rfl⟩ := htiled.exists_constants
  have hsame : (empty.appendAll cs).slots.toList = p.slots.toList := by
    rw [slots_appendAll, hslots]
    rfl
  have hroom : (empty.appendAll cs).count ≤ maxCount := by
    rw [count_eq, hsame]
    exact hcount
  have hbuilt := built_appendAll .empty hroom
  rw [← eq_of_slots_eq hsame hbuilt.wellFormed.table h.table]
  exact hbuilt

end EntityLoom.Pool
