import EntityLoom.Proofs.Pool.Requests

/-!
# Texts of a pool

Modified UTF-8 keeps every text, and keeps texts apart.  No encoded text holds a zero byte, or a byte
that opens more than three.  In a pool in use a text that was granted a slot is read from that slot
whatever is asked for later, and it is granted the same slot again, so two texts share a slot exactly
if they are equal.

The main statement is `ModifiedUtf8.lossless`.  Its part about pools rests on `Pool.Extends.isFirst`:
the first slot of a constant stays its first slot.
-/

namespace EntityLoom

/-! ## Encoded bytes -/

namespace Text.ModifiedUtf8

/-- A byte that is neither zero nor opens more than three bytes. -/
theorem plain_of_toNat {n : Nat} (hlow : 0 < n) (hhigh : n < 0xF0) :
    UInt8.ofNat n ≠ 0 ∧ UInt8.ofNat n < 0xF0 := by
  have hn := toNat_ofNat_of_lt (n := n) (by omega)
  constructor
  · intro hzero
    rw [hzero, UInt8.toNat_zero] at hn
    omega
  · rw [UInt8.lt_iff_toNat_lt, hn]
    exact hhigh

/-- The three forms of a unit differ in their first byte, and each is plain throughout. -/
theorem plain_of_mem_encodeUnit {u : UInt16} {b : UInt8} (h : b ∈ encodeUnit u) :
    b ≠ 0 ∧ b < 0xF0 := by
  have hu := u.toNat_lt
  unfold encodeUnit at h
  dsimp only at h
  split at h
  · obtain rfl := List.mem_singleton.1 h
    exact plain_of_toNat (by omega) (by omega)
  · split at h
    all_goals
      simp only [List.mem_cons, List.not_mem_nil, or_false] at h
      rcases h with rfl | rfl | rfl <;> exact plain_of_toNat (by omega) (by omega)

theorem plain_of_mem_encode {s : String} {b : UInt8} (h : b ∈ encode s) : b ≠ 0 ∧ b < 0xF0 := by
  unfold encode at h
  rw [encodeChars_eq, List.mem_flatMap] at h
  obtain ⟨u, -, hb⟩ := h
  exact plain_of_mem_encodeUnit hb

theorem encode_injective : Function.Injective encode :=
  Function.LeftInverse.injective decode_encode

end Text.ModifiedUtf8

/-! ## First slots -/

namespace Pool

variable {p q : Pool} {c : Constant} {i : UInt16}

/-- The first slot of a constant stays its first slot. -/
theorem Extends.isFirst (h : p.Extends q) (hc : p.IsFirst c i) : q.IsFirst c i := by
  induction h with
  | refl => exact hc
  | @append r _ d room ih =>
    have hroom : r.count < maxCount := by
      have := slots_pos d
      omega
    refine (isFirst_append_of_old hroom fun ⟨hcd, hnew⟩ => ?_).2 ih
    exact hnew i (hcd ▸ ih.holds)

end Pool

namespace Interning

variable {p q q' : Pool} {c : Constant} {i j : UInt16}

/-- A constant is granted its first slot. -/
theorem isFirst_of_constant (hp : p.Built) (hs : Succeeds (constant c) p i q) : q.IsFirst c i := by
  rcases succeeds_constant.1 hs with ⟨hi, rfl⟩ | ⟨hnew, hroom, rfl, rfl⟩
  · exact hp.firstSlot_eq_some_iff.1 hi
  · have hpos := Pool.slots_pos c
    refine (Pool.isFirst_append_self (by omega) fun k hk => ?_).2 rfl
    obtain ⟨first, hfirst⟩ := Pool.exists_isFirst hk
    rw [hp.firstSlot_eq_some_iff.2 hfirst] at hnew
    cases hnew

/-- A constant that is asked for again is granted the slot that it was granted before. -/
theorem same_slot (hp : p.Built) (hs : Succeeds (constant c) p i q) (later : List Request)
    (hs' : Succeeds (constant c) (poolAfter q later) j q') : i = j := by
  have hgrown := extends_poolAfter q later
  have hfirst := isFirst_of_constant hp hs
  have hbuilt : q.Built := (constant_interns c hp hs).1.built hp
  have hagain := run_constant_of_isFirst (hgrown.built hbuilt) (hgrown.isFirst hfirst)
  exact (Succeeds.unique hagain hs').1

end Interning

/-! ## Texts -/

open Interning (Request poolAfter)

/-- Every text is read back from its encoding, which holds no zero byte and no byte from 0xF0 on, so
different texts have different encodings.  In a pool in use a text keeps the slot that it was granted
through any further requests, and shares it with no other text. -/
theorem Text.ModifiedUtf8.lossless :
    (∀ s, decode (encode s) = s ∧ ∀ b ∈ encode s, b ≠ 0 ∧ b < 0xF0) ∧
      Function.Injective encode ∧
      ∀ (p q q' : Pool) (s t : String) (i j : UInt16) (later : List Request), p.InUse →
        Succeeds (Interning.utf8 s) p i q →
        Succeeds (Interning.utf8 t) (poolAfter q later) j q' →
          q'.utf8At i = .ok s ∧ q'.utf8At j = .ok t ∧ (i = j ↔ s = t) := by
  refine ⟨fun s => ⟨decode_encode s, fun b hb => plain_of_mem_encode hb⟩, encode_injective, ?_⟩
  intro p q q' s t i j later hp hs ht
  have hq : q.Built := (Interning.utf8_interns s hp.built hs).1.built hp.built
  have hbuilt := (Interning.extends_poolAfter q later).built hq
  obtain ⟨hgrown, htext⟩ := Interning.utf8_interns t hbuilt ht
  have hi : q'.utf8At i = .ok s :=
    hgrown.utf8At ((Interning.utf8_interns s).poolAfter hp.built hs later)
  have hj : q'.utf8At j = .ok t := htext q' .refl
  refine ⟨hi, hj, fun hij => ?_, fun hst => ?_⟩
  · rw [hij, hj] at hi
    exact (Except.ok.inj hi).symm
  · subst hst
    exact Interning.same_slot hp.built hs later ht

/-- The zero character and one beyond the first plane get two slots of the empty pool. -/
theorem Text.ModifiedUtf8.lossless_nul :
    ∃ i j q q', Succeeds (Interning.utf8 "\x00") .empty i q ∧
      Succeeds (Interning.utf8 "😀") q j q' ∧
        q'.utf8At i = .ok "\x00" ∧ q'.utf8At j = .ok "😀" ∧ i ≠ j := by
  let both : Interning UInt16 := Interning.utf8 "\x00" >>= fun _ => Interning.utf8 "😀"
  have hgranted : (both.run.run .empty).1.toOption.isSome := by decide +kernel
  obtain ⟨j, q', hboth⟩ := exists_succeeds hgranted
  obtain ⟨i, q, hs, ht⟩ := succeeds_bind.1 hboth
  obtain ⟨hi, hj, hshared⟩ := lossless.2.2 .empty q q' _ _ i j [] .empty hs ht
  exact ⟨i, j, q, q', hs, ht, hi, hj, fun hij => absurd (hshared.1 hij) (by decide)⟩

end EntityLoom
