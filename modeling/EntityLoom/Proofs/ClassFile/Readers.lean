import EntityLoom.ClassFile.Codec
import EntityLoom.Proofs.Outcomes

/-!
# Reading back what was written

`Reads r bs a` says that a reader takes the bytes `bs` off the front of any data and answers `a`.  It
is kept by sequencing, so a writer that appends the written forms of its parts is read back by the
reader that reads the parts.  `Yields r P` says that whatever a reader answers has a property; it is
what data that was read promises of the lengths in it.

The file goes up to attributes and members; `parse_toBytes` for whole classes needs the pool.
-/

namespace EntityLoom

namespace Bytes

/-! ## Words -/

theorem toNat_byte {n : Nat} (h : n < 256) : (UInt8.ofNat n).toNat = n := by
  rw [UInt8.toNat_ofNat']
  exact Nat.mod_eq_of_lt h

theorem word16_ofWord16 (w : UInt16) :
    word16 (UInt8.ofNat (w.toNat / 256)) (UInt8.ofNat (w.toNat % 256)) = w := by
  have hw := w.toNat_lt
  unfold word16
  rw [toNat_byte (by omega), toNat_byte (by omega), Nat.div_add_mod' w.toNat 256]
  exact UInt16.ofNat_toNat

theorem word32_ofWord32 (w : UInt32) :
    word32 (UInt8.ofNat (w.toNat / 0x1000000)) (UInt8.ofNat (w.toNat / 0x10000 % 256))
      (UInt8.ofNat (w.toNat / 256 % 256)) (UInt8.ofNat (w.toNat % 256)) = w := by
  have hw := w.toNat_lt
  have hsum : w.toNat / 0x1000000 * 0x1000000 + w.toNat / 0x10000 % 256 * 0x10000 +
      w.toNat / 256 % 256 * 256 + w.toNat % 256 = w.toNat := by
    omega
  unfold word32
  rw [toNat_byte (by omega), toNat_byte (by omega), toNat_byte (by omega), toNat_byte (by omega),
    hsum]
  exact UInt32.ofNat_toNat

theorem word64_halves (w : UInt64) :
    word64 (UInt32.ofNat (w.toNat / 0x100000000)) (UInt32.ofNat (w.toNat % 0x100000000)) = w := by
  have hw := w.toNat_lt
  have hhi : (UInt32.ofNat (w.toNat / 0x100000000)).toNat = w.toNat / 0x100000000 := by
    rw [UInt32.toNat_ofNat']
    omega
  have hlo : (UInt32.ofNat (w.toNat % 0x100000000)).toNat = w.toNat % 0x100000000 := by
    rw [UInt32.toNat_ofNat']
    omega
  unfold word64
  rw [hhi, hlo, Nat.div_add_mod' w.toNat 0x100000000]
  exact UInt64.ofNat_toNat

theorem toNat_length16 {n : Nat} (h : n < 0x10000) : (UInt16.ofNat n).toNat = n := by
  rw [UInt16.toNat_ofNat']
  exact Nat.mod_eq_of_lt h

theorem toNat_length32 {n : Nat} (h : n < 0x100000000) : (UInt32.ofNat n).toNat = n := by
  rw [UInt32.toNat_ofNat']
  exact Nat.mod_eq_of_lt h

end Bytes

namespace Reader

variable {α β : Type}

/-! ## Reading a written form -/

/-- The reader takes the bytes off the front of any data and answers the value. -/
def Reads (r : Reader α) (bs : Bytes) (a : α) : Prop :=
  ∀ offset rest, r.run ⟨offset, bs ++ rest⟩ = .ok (a, ⟨offset + bs.length, rest⟩)

theorem Reads.pure (a : α) : Reads (pure a) [] a := fun _ _ => rfl

theorem Reads.bind {r : Reader α} {k : α → Reader β} {bs cs : Bytes} {a : α} {b : β}
    (h : Reads r bs a) (hk : Reads (k a) cs b) : Reads (r >>= k) (bs ++ cs) b := by
  intro offset rest
  rw [run_bind_eq_ok]
  refine ⟨a, ⟨offset + bs.length, cs ++ rest⟩, ?_, ?_⟩
  · rw [List.append_assoc]
    exact h offset (cs ++ rest)
  · rw [List.length_append, ← Nat.add_assoc]
    exact hk _ rest

/-- A reader after which nothing more is taken. -/
theorem Reads.map {r : Reader α} {g : α → β} {bs : Bytes} {a : α} (h : Reads r bs a) :
    Reads (do return g (← r)) bs (g a) := by
  have hmap := h.bind (k := fun a => Pure.pure (g a)) (.pure (g a))
  rwa [List.append_nil] at hmap

theorem reads_byte (b : UInt8) : Reads byte [b] b := fun _ _ => rfl

theorem reads_word16 (w : UInt16) : Reads word16 (Bytes.ofWord16 w) w := by
  intro offset rest
  change Except.ok (_, _) = _
  rw [Bytes.word16_ofWord16]
  rfl

theorem reads_word32 (w : UInt32) : Reads word32 (Bytes.ofWord32 w) w := by
  intro offset rest
  change Except.ok (_, _) = _
  rw [Bytes.word32_ofWord32]
  rfl

theorem reads_word64 (w : UInt64) : Reads word64 (Bytes.ofWord64 w) w := by
  unfold word64 Bytes.ofWord64
  refine (reads_word32 _).bind ?_
  have hlo := (reads_word32 (UInt32.ofNat (w.toNat % 0x100000000))).map
    (g := fun lo => Bytes.word64 (UInt32.ofNat (w.toNat / 0x100000000)) lo)
  rw [Bytes.word64_halves] at hlo
  exact hlo

theorem reads_bytes (bs : Bytes) : Reads (bytes bs.length) bs bs := by
  intro offset rest
  unfold bytes
  simp [StateT.run, List.splitAt_eq]

theorem reads_repeated {item : Reader α} {write : α → Bytes} {xs : List α} (acc : List α)
    (h : ∀ x ∈ xs, Reads item (write x) x) :
    Reads (repeated item acc xs.length) (xs.flatMap write) (acc.reverse ++ xs) := by
  induction xs generalizing acc with
  | nil =>
    rw [List.append_nil]
    exact .pure acc.reverse
  | cons x xs ih =>
    rw [List.length_cons, repeated, List.flatMap_cons]
    have hrest := ih (x :: acc) fun y hy => h y (List.mem_cons_of_mem _ hy)
    rw [List.reverse_cons, List.append_assoc, List.singleton_append] at hrest
    exact (h x List.mem_cons_self).bind hrest

/-- A table whose count fits its field is read back. -/
theorem reads_counted {item : Reader α} {write : α → Bytes} {xs : List α}
    (hlen : xs.length < 0x10000) (h : ∀ x ∈ xs, Reads item (write x) x) :
    Reads (counted item) (Bytes.ofTable write xs) xs := by
  unfold counted Bytes.ofTable Bytes.ofLength16
  refine (reads_word16 _).bind ?_
  rw [Bytes.toNat_length16 hlen]
  exact reads_repeated [] h

/-! ## What is read -/

/-- Whatever the reader answers has the property. -/
def Yields (r : Reader α) (P : α → Prop) : Prop :=
  ∀ ⦃c : Cursor⦄ ⦃a : α⦄ ⦃c' : Cursor⦄, r.run c = .ok (a, c') → P a

theorem Yields.pure {P : α → Prop} {a : α} (h : P a) : Yields (pure a) P := by
  intro c b c' hr
  exact (run_pure_eq_ok.1 hr).1 ▸ h

theorem Yields.throw (P : α → Prop) (e : FormatError) : Yields (throw e) P :=
  fun _ _ _ hr => absurd hr run_throw_ne_ok

theorem Yields.bind {P : α → Prop} {Q : β → Prop} {r : Reader α} {k : α → Reader β}
    (h : Yields r P) (hk : ∀ a, P a → Yields (k a) Q) : Yields (r >>= k) Q := by
  intro c b c' hr
  obtain ⟨a, c₁, ha, hb⟩ := run_bind_eq_ok.1 hr
  exact hk a (h ha) hb

theorem Yields.mono {P Q : α → Prop} {r : Reader α} (h : Yields r P) (hPQ : ∀ a, P a → Q a) :
    Yields r Q :=
  fun _ _ _ hr => hPQ _ (h hr)

theorem yields_any (r : Reader α) : Yields r fun _ => True := fun _ _ _ _ => trivial

theorem yields_bytes (n : Nat) : Yields (bytes n) fun bs => bs.length = n := by
  intro c bs c' hr
  unfold bytes at hr
  simp only [StateT.run] at hr
  split at hr
  · next hlen =>
    obtain ⟨rfl, -⟩ := Prod.mk.inj (Except.ok.inj hr)
    exact hlen
  · exact absurd hr (by simp)

theorem yields_repeated {item : Reader α} {P : α → Prop} (h : Yields item P) (n : Nat)
    {acc : List α} (hacc : ∀ x ∈ acc, P x) :
    Yields (repeated item acc n) fun xs => xs.length = acc.length + n ∧ ∀ x ∈ xs, P x := by
  induction n generalizing acc with
  | zero =>
    refine .pure ⟨by simp, fun x hx => hacc x (List.mem_reverse.1 hx)⟩
  | succ n ih =>
    rw [repeated]
    refine h.bind fun x hx => ?_
    refine (@ih (x :: acc) ?_).mono fun xs ⟨hlen, hxs⟩ => ⟨?_, hxs⟩
    · intro y hy
      rcases List.mem_cons.1 hy with rfl | hy
      · exact hx
      · exact hacc y hy
    · rw [hlen, List.length_cons]
      omega

/-- A table that was read has a count that fits its field. -/
theorem yields_counted {item : Reader α} {P : α → Prop} (h : Yields item P) :
    Yields (counted item) fun xs => xs.length < 0x10000 ∧ ∀ x ∈ xs, P x := by
  unfold counted
  refine (yields_any word16).bind fun n _ => ?_
  refine (yields_repeated h n.toNat (by simp)).mono fun xs ⟨hlen, hxs⟩ => ⟨?_, hxs⟩
  rw [hlen, List.length_nil, Nat.zero_add]
  exact n.toNat_lt

end Reader

/-! ## Attributes and members -/

open Reader (Reads Yields reads_word16 reads_word32 yields_any)

/-- The content of an attribute fits its length field. -/
def Attribute.Fits (a : Attribute) : Prop := a.info.length < 0x100000000

/-- The attributes of a field or method fit their table. -/
structure Member.Fits (m : Member) : Prop where
  count : m.attributes.length < 0x10000
  each : ∀ a ∈ m.attributes, a.Fits

theorem Attribute.reads {a : Attribute} (h : a.Fits) : Reads Attribute.read a.toBytes a := by
  unfold Attribute.read Attribute.toBytes Bytes.ofLength32
  rw [List.append_assoc]
  refine (reads_word16 _).bind ((reads_word32 _).bind ?_)
  rw [Bytes.toNat_length32 h]
  exact (Reader.reads_bytes a.info).map (g := fun info => (⟨a.name, info⟩ : Attribute))

theorem Attribute.yields_fits : Yields Attribute.read Attribute.Fits := by
  unfold Attribute.read
  refine (yields_any _).bind fun name _ => (yields_any _).bind fun length _ => ?_
  refine (Reader.yields_bytes _).bind fun info hinfo => .pure ?_
  unfold Attribute.Fits
  rw [hinfo]
  exact length.toNat_lt

theorem Member.reads {m : Member} (h : m.Fits) : Reads Member.read m.toBytes m := by
  unfold Member.read Member.toBytes
  rw [List.append_assoc, List.append_assoc]
  refine (reads_word16 _).bind ((reads_word16 _).bind ((reads_word16 _).bind ?_))
  exact (Reader.reads_counted h.count fun a ha => Attribute.reads (h.each a ha)).map
    (g := fun as => (⟨m.access, m.name, m.descriptor, as⟩ : Member))

theorem Member.yields_fits : Yields Member.read Member.Fits := by
  unfold Member.read
  refine (yields_any _).bind fun access _ => (yields_any _).bind fun name _ => ?_
  refine (yields_any _).bind fun descriptor _ => ?_
  exact (Reader.yields_counted Attribute.yields_fits).bind fun as has => .pure ⟨has.1, has.2⟩

end EntityLoom
