import EntityLoom.Pool.Codec
import EntityLoom.Proofs.ClassFile.Readers
import EntityLoom.Proofs.Pool.Growth

/-!
# Reading back a constant pool

`Constant.reads` reads back a constant whose text fits its length field, and `Pool.reads` a pool of
such constants that was filled by appending and is not too large.  Reading a pool repeats the
appending, so slots and table both come back.  `Pool.yields_built` is the converse promise: a pool
that was read was filled by appending, and its texts fit.
-/

namespace EntityLoom

open Reader (Reads Yields reads_word16 reads_word32 reads_word64 reads_byte yields_any)

namespace Constant

/-- The text of a constant fits its length field. -/
def Fits : Constant → Prop
  | utf8 bytes => bytes.length < 0x10000
  | _ => True

instance (c : Constant) : Decidable c.Fits :=
  match c with
  | utf8 bytes => inferInstanceAs (Decidable (bytes.length < 0x10000))
  | integer _ | float _ | long _ | double _ | classRef _ | string _ | fieldRef _ _ | methodRef _ _
  | interfaceMethodRef _ _ | nameAndType _ _ | methodHandle _ _ | methodType _ | dynamic _ _
  | invokeDynamic _ _ | moduleName _ | packageName _ => isTrue trivial

theorem fits_utf8 {bytes : Bytes} : (utf8 bytes).Fits ↔ bytes.length < 0x10000 := Iff.rfl

theorem reads_pair (make : UInt16 → UInt16 → Constant) (i j : UInt16) :
    Reads (readPair make) (Bytes.ofWord16 i ++ Bytes.ofWord16 j) (make i j) :=
  (reads_word16 i).bind (reads_word16 j).map

theorem reads_operands {c : Constant} (h : c.Fits) (index : UInt16) :
    Reads (readOperands c.tag index) c.operands c := by
  cases c with
  | utf8 bytes =>
    refine (reads_word16 _).bind ?_
    rw [Bytes.toNat_length16 (fits_utf8.1 h)]
    exact (Reader.reads_bytes bytes).map
  | integer v =>
    have hv := (reads_word32 v.toUInt32).map (g := fun w => integer w.toInt32)
    rwa [show v.toUInt32.toInt32 = v from rfl] at hv
  | float v => exact (reads_word32 v).map
  | long v =>
    have hv := (reads_word64 v.toUInt64).map (g := fun w => long w.toInt64)
    rwa [show v.toUInt64.toInt64 = v from rfl] at hv
  | double v => exact (reads_word64 v).map
  | classRef i => exact (reads_word16 i).map
  | string i => exact (reads_word16 i).map
  | fieldRef i j => exact reads_pair _ i j
  | methodRef i j => exact reads_pair _ i j
  | interfaceMethodRef i j => exact reads_pair _ i j
  | nameAndType i j => exact reads_pair _ i j
  | methodHandle k i => exact (reads_byte k).bind (reads_word16 i).map
  | methodType i => exact (reads_word16 i).map
  | dynamic i j => exact reads_pair _ i j
  | invokeDynamic i j => exact reads_pair _ i j
  | moduleName i => exact (reads_word16 i).map
  | packageName i => exact (reads_word16 i).map

/-- A constant whose text fits its length field is read back. -/
theorem reads {c : Constant} (h : c.Fits) (index : UInt16) :
    Reads (read index) c.toBytes c :=
  (reads_byte c.tag).bind (reads_operands h index)

/-- A constant without a text. -/
theorem yields_map_fits {α : Type} (r : Reader α) {make : α → Constant}
    (h : ∀ a, (make a).Fits) : Yields (do return make (← r)) Fits :=
  (yields_any r).bind fun a _ => .pure (h a)

theorem yields_pair_fits {make : UInt16 → UInt16 → Constant} (h : ∀ i j, (make i j).Fits) :
    Yields (readPair make) Fits :=
  (yields_any _).bind fun i _ => yields_map_fits _ (h i)

theorem yields_operands_fits (tag : UInt8) (index : UInt16) :
    Yields (readOperands tag index) Fits := by
  unfold readOperands
  split
  · refine (yields_any _).bind fun length _ => ?_
    refine (Reader.yields_bytes _).bind fun bytes hbytes => .pure ?_
    rw [fits_utf8, hbytes]
    exact length.toNat_lt
  all_goals
    first
    | exact yields_map_fits _ fun _ => trivial
    | exact yields_pair_fits fun _ _ => trivial
    | exact (yields_any _).bind fun _ _ => yields_map_fits _ fun _ => trivial
    | exact .throw _ _

/-- A text that was read fits its length field. -/
theorem yields_fits (index : UInt16) : Yields (read index) Fits :=
  (yields_any _).bind fun tag _ => yields_operands_fits tag index

end Constant

namespace Pool

/-! ## Constants in a row -/

/-- A pool with constants appended one after the other. -/
def appendAll (p : Pool) (cs : List Constant) : Pool :=
  cs.foldl append p

theorem appendAll_cons (p : Pool) (c : Constant) (cs : List Constant) :
    p.appendAll (c :: cs) = (p.append c).appendAll cs := rfl

theorem slots_appendAll (p : Pool) (cs : List Constant) :
    (p.appendAll cs).slots.toList = p.slots.toList ++ cs.flatMap slotsOf := by
  induction cs generalizing p with
  | nil => simp [appendAll]
  | cons c cs ih =>
    rw [appendAll_cons, ih, slots_append, List.flatMap_cons, List.append_assoc]

theorem count_le_count_appendAll (p : Pool) (cs : List Constant) :
    p.count ≤ (p.appendAll cs).count := by
  rw [count_eq, count_eq, slots_appendAll, List.length_append]
  exact Nat.le_add_right _ _

/-- Constants that all have room make a built pool. -/
theorem built_appendAll {p : Pool} (h : p.Built) {cs : List Constant}
    (hroom : (p.appendAll cs).count ≤ maxCount) : (p.appendAll cs).Built := by
  induction cs generalizing p with
  | nil => exact h
  | cons c cs ih =>
    rw [appendAll_cons] at hroom ⊢
    have hcount := Nat.lt_of_lt_of_le (count_lt_count_append p c) (count_le_count_appendAll _ cs)
    exact ih (h.append c (Nat.lt_of_lt_of_le hcount hroom)) hroom

/-- Every built pool is the empty pool with constants appended. -/
theorem Built.exists_appendAll {p : Pool} (h : p.Built) : ∃ cs, p = Pool.empty.appendAll cs := by
  induction h with
  | empty => exact ⟨[], rfl⟩
  | append _ c _ ih =>
    obtain ⟨cs, rfl⟩ := ih
    refine ⟨cs ++ [c], ?_⟩
    unfold appendAll
    rw [List.foldl_append]
    rfl

/-- What a slot writes. -/
def slotBytes : Option Constant → Bytes
  | none => []
  | some c => c.toBytes

theorem toBytes_eq (p : Pool) :
    p.toBytes = Bytes.ofLength16 p.count ++ p.slots.toList.flatMap slotBytes := by
  unfold toBytes
  congr 2

theorem slotsOf_bytes (c : Constant) : (slotsOf c).flatMap slotBytes = c.toBytes := by
  unfold slotsOf
  split <;> simp [slotBytes]

theorem appendAll_bytes (cs : List Constant) :
    (empty.appendAll cs).slots.toList.flatMap slotBytes = cs.flatMap Constant.toBytes := by
  rw [slots_appendAll, List.flatMap_append, List.flatMap_assoc]
  simp only [slotsOf_bytes]
  rfl

/-! ## Reading -/

/-- The texts of a pool fit their length fields. -/
def Fits (p : Pool) : Prop := ∀ c, some c ∈ p.slots.toList → c.Fits

instance (p : Pool) : Decidable p.Fits :=
  decidable_of_iff (∀ slot ∈ p.slots.toList, ∀ c ∈ slot, c.Fits)
    ⟨fun h c hc => h _ hc c rfl, fun h _ hslot c hc => h c (hc ▸ hslot)⟩

/-- Reading appends the constants that follow until the pool has as many slots as it should. -/
theorem reads_constants {cs : List Constant} (h : ∀ c ∈ cs, c.Fits) (p : Pool) :
    Reads (readConstants (p.appendAll cs).count p) (cs.flatMap Constant.toBytes)
      (p.appendAll cs) := by
  induction cs generalizing p with
  | nil =>
    have hlt : ¬p.count < (p.appendAll []).count := Nat.lt_irrefl _
    rw [readConstants, dif_neg hlt]
    exact .pure p
  | cons c cs ih =>
    have hlt : p.count < (p.appendAll (c :: cs)).count :=
      Nat.lt_of_lt_of_le (p.count_lt_count_append c) (count_le_count_appendAll _ cs)
    rw [readConstants, dif_pos hlt, List.flatMap_cons, appendAll_cons]
    refine (Constant.reads (h c List.mem_cons_self) _).bind ?_
    exact ih (fun d hd => h d (List.mem_cons_of_mem _ hd)) _

/-- A pool that was filled by appending is read back if its texts and its count fit. -/
theorem reads {p : Pool} (hp : p.Built) (hfits : p.Fits) (hcount : p.count ≤ maxCount) :
    Reads read p.toBytes p := by
  obtain ⟨cs, rfl⟩ := hp.exists_appendAll
  have hcs : ∀ c ∈ cs, c.Fits := by
    intro c hc
    refine hfits c ?_
    rw [slots_appendAll]
    refine List.mem_append_right _ (List.mem_flatMap.2 ⟨c, hc, ?_⟩)
    exact List.mem_cons_self
  rw [toBytes_eq, appendAll_bytes]
  unfold read
  refine (reads_word16 _).bind ?_
  unfold maxCount at hcount
  rw [Bytes.toNat_length16 (by omega)]
  exact reads_constants hcs .empty

theorem fits_append {p : Pool} {c : Constant} (hp : p.Fits) (hc : c.Fits) : (p.append c).Fits := by
  intro d hd
  rw [slots_append, List.mem_append] at hd
  rcases hd with hd | hd
  · exact hp d hd
  · unfold slotsOf at hd
    split at hd
    · simp only [List.mem_cons, Option.some.injEq, List.not_mem_nil, or_false, reduceCtorEq] at hd
      exact hd ▸ hc
    · simp only [List.mem_cons, Option.some.injEq, List.not_mem_nil, or_false] at hd
      exact hd ▸ hc

/-- What is promised of a pool that was read until it had at least `n` slots: a long or double at the
last slot makes it one larger. -/
structure ReadUpTo (n : Nat) (p : Pool) : Prop where
  built : p.Built
  fits : p.Fits
  count_le : p.count ≤ max 1 (n + 1)

theorem yields_constants {n : Nat} (hn : n < 0x10000) {p : Pool} (h : ReadUpTo n p) :
    Yields (readConstants n p) (ReadUpTo n) := by
  fun_induction readConstants n p with
  | case1 p hlt ih =>
    refine (Constant.yields_fits _).bind fun c hc => ih c ?_
    have hslots : c.slots ≤ 2 := by
      unfold Constant.slots
      split <;> omega
    have hroom : p.count < maxCount := by
      unfold maxCount
      omega
    refine ⟨h.built.append c hroom, fits_append h.fits hc, ?_⟩
    rw [count_append]
    omega
  | case2 p hge => exact .pure h

theorem readUpTo_empty (n : Nat) : ReadUpTo n .empty := by
  refine ⟨.empty, fun c hc => ?_, Nat.le_max_left _ _⟩
  simp [empty] at hc

/-- A pool that was read was filled by appending, and its texts fit. -/
theorem yields_built : Yields read fun p => ∃ n : UInt16, ReadUpTo n.toNat p :=
  (yields_any _).bind fun n _ =>
    (yields_constants n.toNat_lt (readUpTo_empty _)).mono fun _ h => ⟨n, h⟩

end Pool

end EntityLoom
