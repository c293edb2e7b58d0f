import EntityLoom.Proofs.ClassFile.RoundTrip
import EntityLoom.Proofs.Pool.WellFormed

/-!
# What readers take

`Takes r P` says which bytes a reader took off the data when it answered: they and the answer are
related by `P`.  Where `P` says that the bytes are the written form of the answer, reading is without
loss.  That holds of every item of a class but the count of slots: the constants of a pool may fill
another count of slots than the data declares.  `ClassFile.toBytes_of_parse` says that writing a class
that was read changes no more than that count, and when it does.
-/

namespace EntityLoom

/-! ## The bytes of a word -/

namespace Bytes

theorem ofWord16_word16 (b₁ b₀ : UInt8) : ofWord16 (word16 b₁ b₀) = [b₁, b₀] := by
  have h₁ := b₁.toNat_lt
  have h₀ := b₀.toNat_lt
  have hw : (word16 b₁ b₀).toNat = b₁.toNat * 256 + b₀.toNat := toNat_length16 (by omega)
  have hdiv : (b₁.toNat * 256 + b₀.toNat) / 256 = b₁.toNat := by omega
  have hmod : (b₁.toNat * 256 + b₀.toNat) % 256 = b₀.toNat := by omega
  rw [ofWord16, hw, hdiv, hmod, UInt8.ofNat_toNat, UInt8.ofNat_toNat]

theorem ofWord32_word32 (b₃ b₂ b₁ b₀ : UInt8) :
    ofWord32 (word32 b₃ b₂ b₁ b₀) = [b₃, b₂, b₁, b₀] := by
  have h₃ := b₃.toNat_lt
  have h₂ := b₂.toNat_lt
  have h₁ := b₁.toNat_lt
  have h₀ := b₀.toNat_lt
  have hw : (word32 b₃ b₂ b₁ b₀).toNat =
      b₃.toNat * 0x1000000 + b₂.toNat * 0x10000 + b₁.toNat * 256 + b₀.toNat :=
    toNat_length32 (by omega)
  obtain ⟨n, hn⟩ : ∃ n, b₃.toNat * 0x1000000 + b₂.toNat * 0x10000 + b₁.toNat * 256 + b₀.toNat = n :=
    ⟨_, rfl⟩
  rw [hn] at hw
  rw [ofWord32, hw, show n / 0x1000000 = b₃.toNat by omega, show n / 0x10000 % 256 = b₂.toNat by omega,
    show n / 256 % 256 = b₁.toNat by omega, show n % 256 = b₀.toNat by omega]
  simp only [UInt8.ofNat_toNat]

theorem ofWord64_word64 (hi lo : UInt32) : ofWord64 (word64 hi lo) = ofWord32 hi ++ ofWord32 lo := by
  have hhi := hi.toNat_lt
  have hlo := lo.toNat_lt
  have hw : (word64 hi lo).toNat = hi.toNat * 0x100000000 + lo.toNat := by
    rw [word64, UInt64.toNat_ofNat']
    exact Nat.mod_eq_of_lt (by omega)
  have hdiv : (hi.toNat * 0x100000000 + lo.toNat) / 0x100000000 = hi.toNat := by omega
  have hmod : (hi.toNat * 0x100000000 + lo.toNat) % 0x100000000 = lo.toNat := by omega
  rw [ofWord64, hw, hdiv, hmod, UInt32.ofNat_toNat, UInt32.ofNat_toNat]

end Bytes

namespace Reader

variable {α β : Type} {P : Bytes → α → Prop} {Q : Bytes → β → Prop}

/-- The bytes that the reader takes off the data are related to its answer. -/
def Takes (r : Reader α) (P : Bytes → α → Prop) : Prop :=
  ∀ ⦃c : Cursor⦄ ⦃a : α⦄ ⦃c' : Cursor⦄, r.run c = .ok (a, c') →
    ∃ bs, c.rest = bs ++ c'.rest ∧ P bs a

theorem Takes.pure {a : α} (h : P [] a) : Takes (pure a) P := by
  intro c b c' hr
  obtain ⟨rfl, rfl⟩ := run_pure_eq_ok.1 hr
  exact ⟨[], rfl, h⟩

theorem Takes.throw (P : Bytes → α → Prop) (e : FormatError) : Takes (throw e) P :=
  fun _ _ _ hr => absurd hr run_throw_ne_ok

theorem Takes.bind {r : Reader α} {k : α → Reader β} (h : Takes r P)
    (hk : ∀ bs a, P bs a → Takes (k a) fun cs b => Q (bs ++ cs) b) : Takes (r >>= k) Q := by
  intro c b c'' hr
  obtain ⟨a, c', ha, hb⟩ := run_bind_eq_ok.1 hr
  obtain ⟨bs, hbs, hP⟩ := h ha
  obtain ⟨cs, hcs, hQ⟩ := hk bs a hP hb
  refine ⟨bs ++ cs, ?_, hQ⟩
  rw [hbs, hcs, List.append_assoc]

theorem Takes.mono {P' : Bytes → α → Prop} {r : Reader α} (h : Takes r P)
    (hP : ∀ bs a, P bs a → P' bs a) : Takes r P' := by
  intro c a c' hr
  obtain ⟨bs, hbs, hbsP⟩ := h hr
  exact ⟨bs, hbs, hP bs a hbsP⟩

theorem Takes.and {R : α → Prop} {r : Reader α} (h : Takes r P) (h' : Yields r R) :
    Takes r fun bs a => P bs a ∧ R a := by
  intro c a c' hr
  obtain ⟨bs, hbs, hP⟩ := h hr
  exact ⟨bs, hbs, hP, h' hr⟩

/-- A reader after which nothing more is taken. -/
theorem Takes.map {r : Reader α} {g : α → β} (h : Takes r P) (hQ : ∀ bs a, P bs a → Q bs (g a)) :
    Takes (do return g (← r)) Q :=
  h.bind fun bs a ha => .pure (by
    rw [List.append_nil]
    exact hQ bs a ha)

/-! ## Readers without loss -/

/-- The reader takes the written form of its answer. -/
abbrev TakesWritten (r : Reader α) (write : α → Bytes) : Prop :=
  Takes r fun bs a => bs = write a

theorem takes_byte : TakesWritten byte fun b => [b] := by
  rintro ⟨offset, rest⟩ b c' hr
  cases rest with
  | nil => cases hr
  | cons b rest =>
    obtain ⟨rfl, rfl⟩ := Prod.mk.inj (Except.ok.inj hr)
    exact ⟨[b], rfl, rfl⟩

theorem takes_word16 : TakesWritten word16 Bytes.ofWord16 := by
  rintro ⟨offset, rest⟩ w c' hr
  match rest with
  | [] | [_] => cases hr
  | b₁ :: b₀ :: rest =>
    obtain ⟨rfl, rfl⟩ := Prod.mk.inj (Except.ok.inj hr)
    exact ⟨[b₁, b₀], rfl, (Bytes.ofWord16_word16 b₁ b₀).symm⟩

theorem takes_word32 : TakesWritten word32 Bytes.ofWord32 := by
  rintro ⟨offset, rest⟩ w c' hr
  match rest with
  | [] | [_] | [_, _] | [_, _, _] => cases hr
  | b₃ :: b₂ :: b₁ :: b₀ :: rest =>
    obtain ⟨rfl, rfl⟩ := Prod.mk.inj (Except.ok.inj hr)
    exact ⟨[b₃, b₂, b₁, b₀], rfl, (Bytes.ofWord32_word32 b₃ b₂ b₁ b₀).symm⟩

theorem takes_word64 : TakesWritten word64 Bytes.ofWord64 := by
  unfold word64
  refine takes_word32.bind fun bs hi hbs => takes_word32.map fun cs lo hcs => ?_
  rw [hbs, hcs, Bytes.ofWord64_word64]

theorem takes_bytes (n : Nat) : Takes (bytes n) fun bs cs => bs = cs ∧ cs.length = n := by
  intro c cs c' hr
  unfold bytes at hr
  simp only [StateT.run] at hr
  split at hr
  · next hlen =>
    obtain ⟨rfl, rfl⟩ := Prod.mk.inj (Except.ok.inj hr)
    refine ⟨_, ?_, rfl, hlen⟩
    rw [List.splitAt_eq, List.take_append_drop]
  · cases hr

theorem takes_repeated {item : Reader α} {write : α → Bytes} (h : TakesWritten item write) (n : Nat)
    (acc : List α) : Takes (repeated item acc n) fun bs xs =>
      ∃ ys, xs = acc.reverse ++ ys ∧ ys.length = n ∧ bs = ys.flatMap write := by
  induction n generalizing acc with
  | zero => exact .pure ⟨[], (List.append_nil _).symm, rfl, rfl⟩
  | succ n ih =>
    rw [repeated]
    refine h.bind fun bs x hbs => (ih (x :: acc)).mono ?_
    rintro cs xs ⟨ys, rfl, hlen, rfl⟩
    refine ⟨x :: ys, by simp, congrArg (· + 1) hlen, ?_⟩
    rw [hbs, List.flatMap_cons]

/-- A table is read without loss if its items are. -/
theorem takes_counted {item : Reader α} {write : α → Bytes} (h : TakesWritten item write) :
    TakesWritten (counted item) (Bytes.ofTable write) := by
  unfold counted
  refine takes_word16.bind fun bs n hbs => (takes_repeated h n.toNat []).mono ?_
  rintro cs xs ⟨ys, rfl, hlen, rfl⟩
  change bs ++ xs.flatMap write = Bytes.ofTable write xs
  rw [Bytes.ofTable, Bytes.ofLength16, hlen, UInt16.ofNat_toNat, hbs]

end Reader

open Reader (Takes TakesWritten Yields takes_byte takes_word16 takes_word32 takes_word64 yields_any)

theorem Attribute.takes : TakesWritten Attribute.read Attribute.toBytes := by
  unfold Attribute.read
  refine takes_word16.bind fun _ name hname => takes_word32.bind fun _ length hlength => ?_
  refine (Reader.takes_bytes _).map ?_
  rintro _ info ⟨rfl, hlen⟩
  rw [Attribute.toBytes, Bytes.ofLength32, hlen, UInt32.ofNat_toNat, hname, hlength,
    List.append_assoc]

theorem Member.takes : TakesWritten Member.read Member.toBytes := by
  unfold Member.read
  refine takes_word16.bind fun _ access haccess => takes_word16.bind fun _ name hname => ?_
  refine takes_word16.bind fun _ descriptor hdescriptor => ?_
  refine (Reader.takes_counted Attribute.takes).map fun _ attributes hattributes => ?_
  rw [Member.toBytes, haccess, hname, hdescriptor, hattributes, List.append_assoc, List.append_assoc]

namespace Constant

theorem takes_map {α : Type} {r : Reader α} {make : α → Constant} {tag : UInt8} {write : α → Bytes}
    (h : TakesWritten r write) (htag : ∀ a, (make a).tag = tag)
    (hoperands : ∀ a, (make a).operands = write a) :
    Takes (do return make (← r)) fun bs c => c.tag = tag ∧ bs = c.operands :=
  h.map fun _ a hbs => ⟨htag a, hbs.trans (hoperands a).symm⟩

theorem takes_pair {make : UInt16 → UInt16 → Constant} {tag : UInt8}
    (htag : ∀ i j, (make i j).tag = tag)
    (hoperands : ∀ i j, (make i j).operands = Bytes.ofWord16 i ++ Bytes.ofWord16 j) :
    Takes (readPair make) fun bs c => c.tag = tag ∧ bs = c.operands := by
  refine takes_word16.bind fun _ i hi => takes_word16.map fun _ j hj => ⟨htag i j, ?_⟩
  rw [hoperands, hi, hj]

theorem takes_operands (tag : UInt8) (index : UInt16) :
    Takes (readOperands tag index) fun bs c => c.tag = tag ∧ bs = c.operands := by
  unfold readOperands
  split
  · refine takes_word16.bind fun _ length hlength => (Reader.takes_bytes _).map ?_
    rintro _ text ⟨rfl, hlen⟩
    refine ⟨rfl, ?_⟩
    rw [operands, Bytes.ofLength16, hlen, UInt16.ofNat_toNat, hlength]
  all_goals
    first
    | exact takes_map takes_word16 (fun _ => rfl) fun _ => rfl
    | exact takes_map takes_word32 (fun _ => rfl) fun _ => rfl
    | exact takes_map takes_word64 (fun _ => rfl) fun _ => rfl
    | exact takes_pair (fun _ _ => rfl) fun _ _ => rfl
    | exact takes_byte.bind fun _ kind hkind => takes_word16.map fun _ i hi => ⟨rfl, by
        rw [hkind, hi]
        rfl⟩
    | exact .throw _ _

/-- A constant is read without loss. -/
theorem takes (index : UInt16) : TakesWritten (read index) toBytes := by
  refine takes_byte.bind fun _ tag htag => (takes_operands tag index).mono ?_
  rintro _ c ⟨rfl, rfl⟩
  rw [htag]
  rfl

end Constant

namespace Pool

/-- Reading constants takes what the slots that they fill write. -/
theorem takes_constants (n : Nat) (p : Pool) : Takes (readConstants n p) fun bs q =>
    q.slots.toList.flatMap slotBytes = p.slots.toList.flatMap slotBytes ++ bs := by
  fun_induction readConstants n p with
  | case1 p hlt ih =>
    refine (Constant.takes _).bind fun bs c hbs => (ih c).mono fun cs q hcs => ?_
    rw [hcs, slots_append, List.flatMap_append, slotsOf_bytes, hbs, List.append_assoc]
  | case2 p hge => exact .pure (List.append_nil _).symm

/-- Only a long or double in the last slot that was asked for fills one slot more. -/
theorem yields_reached {n : UInt16} {p : Pool}
    (hp : n ≠ 0 → n.toNat < p.count → ∃ c, p.get? (n - 1) = some c ∧ c.isWide = true) :
    Yields (readConstants n.toNat p) fun q => n.toNat ≤ q.count ∧
      (n ≠ 0 → n.toNat < q.count → ∃ c, q.get? (n - 1) = some c ∧ c.isWide = true) := by
  generalize hm : n.toNat = m at hp ⊢
  fun_induction readConstants m p with
  | case1 p hlt ih =>
    refine (yields_any _).bind fun c _ => ih c fun hn hover => ?_
    rw [count_append, Constant.slots] at hover
    split at hover
    · next hwide =>
      have hlast : UInt16.ofNat p.count = n - 1 := by
        rw [← UInt16.ofNat_toNat (x := n), hm, show m = p.count + 1 by omega]
        simp
      have hroom := n.toNat_lt
      refine ⟨c, ?_, hwide⟩
      rw [← hlast]
      exact get?_append_self (by omega) c
    · omega
  | case2 p hge => exact .pure ⟨Nat.le_of_not_lt hge, hp⟩

/-- A pool that was read from data which declares `n` slots. -/
structure DeclaredBy (n : UInt16) (p : Pool) : Prop extends ReadUpTo n.toNat p where
  reached : n.toNat ≤ p.count
  overshoot : n ≠ 0 → n.toNat < p.count → ∃ c, p.get? (n - 1) = some c ∧ c.isWide = true

/-- A pool is written with the count that the data declares unless that count is zero, or a long or
double lies in the last slot. -/
theorem DeclaredBy.length_eq_iff {n : UInt16} {p : Pool} (h : p.DeclaredBy n) :
    Bytes.ofLength16 p.count = Bytes.ofWord16 n ↔
      n ≠ 0 ∧ ¬∃ c, p.get? (n - 1) = some c ∧ c.isWide = true := by
  have hn := n.toNat_lt
  have hpos := h.built.wellFormed.count_pos
  have hle := h.count_le
  have hreached := h.reached
  rw [Bytes.ofLength16, Bytes.ofWord16_inj, ← UInt16.toNat_inj, UInt16.toNat_ofNat']
  by_cases hzero : n = 0
  · subst hzero
    refine iff_of_false (fun heq => ?_) fun hne => hne.1 rfl
    rw [UInt16.toNat_zero] at heq hle
    omega
  · have hne : n.toNat ≠ 0 := fun heq => hzero (UInt16.toNat_inj.1 heq)
    by_cases hlast : ∃ c, p.get? (n - 1) = some c ∧ c.isWide = true
    · refine iff_of_false (fun heq => ?_) fun hnone => hnone.2 hlast
      obtain ⟨c, hc, hwide⟩ := hlast
      have hbehind := h.built.wellFormed.lt_count_of_wide hc hwide
      have hone : 1 ≤ n := UInt16.le_iff_toNat_le.2 (Nat.pos_of_ne_zero hne)
      rw [UInt16.toNat_sub_of_le n 1 hone, UInt16.toNat_one] at hbehind
      omega
    · refine iff_of_true ?_ ⟨hzero, hlast⟩
      have hcount : ¬n.toNat < p.count := fun hlt => hlast (h.overshoot hzero hlt)
      omega

/-- A pool is read without loss but for its count. -/
theorem takes : Takes read fun bs p => ∃ n tail, bs = Bytes.ofWord16 n ++ tail ∧
    p.toBytes = Bytes.ofLength16 p.count ++ tail ∧ p.DeclaredBy n := by
  unfold read
  refine takes_word16.bind fun _ n hn => ?_
  refine (((takes_constants n.toNat .empty).and
    (yields_constants n.toNat_lt (readUpTo_empty _))).and (yields_reached ?_)).mono ?_
  · intro hn hlt
    have hpos : 0 < n.toNat := Nat.pos_of_ne_zero fun heq => hn (UInt16.toNat_inj.1 heq)
    exact absurd hlt (Nat.not_lt.2 hpos)
  · rintro bs p ⟨⟨hbs, hup⟩, hreached, hover⟩
    refine ⟨n, bs, by rw [hn], ?_, hup, hreached, hover⟩
    rw [toBytes_eq, hbs]
    rfl

end Pool

namespace ClassFile

/-- The tables behind the pool are read without loss. -/
theorem takes_tables {p : Pool} {minor major : UInt16} :
    Takes (do
      let access ← Reader.word16
      let thisClass ← Reader.word16
      let superClass ← Reader.word16
      let interfaces ← Reader.counted Reader.word16
      let fields ← Reader.counted Member.read
      let methods ← Reader.counted Member.read
      let attributes ← Reader.counted Attribute.read
      return (⟨minor, major, p, access, thisClass, superClass, interfaces, fields, methods,
        attributes⟩ : ClassFile)) fun bs c => c.pool = p ∧
          c.toBytes = Bytes.ofWord32 magic ++ (Bytes.ofWord16 minor ++ (Bytes.ofWord16 major ++
            (p.toBytes ++ bs))) := by
  refine takes_word16.bind fun _ access ha => takes_word16.bind fun _ this ht => ?_
  refine takes_word16.bind fun _ super hs => ?_
  refine (Reader.takes_counted takes_word16).bind fun _ interfaces hi => ?_
  refine (Reader.takes_counted Member.takes).bind fun _ fields hf => ?_
  refine (Reader.takes_counted Member.takes).bind fun _ methods hm => ?_
  refine (Reader.takes_counted Attribute.takes).map fun _ attributes has => ⟨rfl, ?_⟩
  rw [ha, ht, hs, hi, hf, hm, has]
  rfl

/-- Writing a class that was read gives the data back but for the count of slots, which is another if
the data declares no slots at all, or a long or double in its last slot.  In all other cases it gives
the data back. -/
theorem toBytes_of_parse {data : Bytes} {c : ClassFile} (h : parse data = .ok c) :
    ∃ (head : Bytes) (n : UInt16) (tail : Bytes), head.length = 8 ∧
      data = head ++ (Bytes.ofWord16 n ++ tail) ∧
      c.toBytes = head ++ (Bytes.ofLength16 c.pool.count ++ tail) ∧
      (c.toBytes = data ↔
        n ≠ 0 ∧ ¬∃ k, c.pool.get? (n - 1) = some k ∧ k.isWide = true) := by
  obtain ⟨offset, hrun⟩ := run_of_parse h
  have htakes : Takes read fun bs c => ∃ head n tail, head.length = 8 ∧
      bs = head ++ (Bytes.ofWord16 n ++ tail) ∧
      c.toBytes = head ++ (Bytes.ofLength16 c.pool.count ++ tail) ∧ c.pool.DeclaredBy n := by
    refine takes_word32.bind fun _ found hfound => ?_
    split
    · next hmagic =>
      subst hmagic
      refine takes_word16.bind fun _ minor hminor => takes_word16.bind fun _ major hmajor => ?_
      refine Pool.takes.bind fun _ p ⟨n, slots, hbs, hp, hdeclared⟩ => takes_tables.mono ?_
      rintro tables c ⟨rfl, hc⟩
      refine ⟨Bytes.ofWord32 magic ++ (Bytes.ofWord16 minor ++ Bytes.ofWord16 major), n,
        slots ++ tables, rfl, ?_, ?_, hdeclared⟩
      · simp only [hfound, hminor, hmajor, hbs, List.append_assoc]
      · simp only [hc, hp, List.append_assoc]
    · exact (Takes.throw (fun _ _ => False) _).bind fun _ _ hf => hf.elim
  obtain ⟨_, hdata, head, n, tail, hlen, rfl, hbytes, hdeclared⟩ := htakes hrun
  replace hdata : data = _ := hdata.trans (List.append_nil _)
  refine ⟨head, n, tail, hlen, hdata, hbytes, ?_⟩
  rw [← hdeclared.length_eq_iff, hbytes, hdata, List.append_cancel_left_eq,
    List.append_cancel_right_eq]

end ClassFile

namespace Sample

/-- A class that declares four slots, the last of which holds a long. -/
def overrun : Bytes :=
  Bytes.ofWord32 ClassFile.magic ++ ([0, 0, 0, 52] ++
    (Bytes.ofWord16 4 ++ [1, 0, 1, 0x41, 7, 0, 1, 5, 0, 0, 0, 0, 0, 0, 0, 42, 0, 0x21, 0, 2, 0, 0, 0, 0,
      0, 0, 0, 0, 0, 0]))

end Sample

/-- The class is read, but written with five slots. -/
theorem ClassFile.toBytes_of_parse_overrun :
    ∃ c, parse Sample.overrun = .ok c ∧ c.toBytes ≠ Sample.overrun := by
  have hparse : ∃ c, parse Sample.overrun = .ok c ∧ c.pool.get? 3 = some (.long 42) := by
    decide +kernel
  obtain ⟨c, hc, hlast⟩ := hparse
  obtain ⟨head, n, tail, hlen, hdata, -, hsame⟩ := toBytes_of_parse hc
  refine ⟨c, hc, fun heq => (hsame.1 heq).2 ⟨.long 42, ?_, rfl⟩⟩
  have hn : Bytes.ofWord16 4 ++ _ = Bytes.ofWord16 n ++ tail :=
    (List.append_inj ((List.append_assoc ..).trans hdata) hlen.symm).2
  rw [← (Bytes.ofWord16_append_inj.1 hn).1]
  exact hlast

end EntityLoom
