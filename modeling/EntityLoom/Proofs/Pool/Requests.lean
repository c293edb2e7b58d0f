import EntityLoom.Proofs.Pool.Interned

/-!
# Pools in use

A pool in use is the empty pool, or one that was read, after any requests.  A request may be refused
after some of its parts were granted, and what these appended stays.

`Pool.InUse.interning` is what holds of all pools in use: the table names the first slot of exactly
the constants that are there, a constant that is there is granted its slot, another one is appended
or refused for lack of room, and what a slot names it names after any further requests.

Two facts carry it.  Whatever a step does, it extends the pool (`Interning.Grows`), so a pool in use
is built, and the table of a built pool agrees with its slots.  What a granted slot names is known
from `Interning.Interns`.
-/

namespace EntityLoom

namespace Pool

variable {p q : Pool}

/-! ## References to members -/

theorem memberRefAt_eq_ok {i : UInt16} {m : String × String × String} :
    p.memberRefAt i = .ok m ↔ ∃ o n, (p.get? i = some (.fieldRef o n) ∨
      p.get? i = some (.methodRef o n) ∨ p.get? i = some (.interfaceMethodRef o n)) ∧
        p.memberAt o n = .ok m := by
  unfold memberRefAt
  split
  case h_4 hfield hmethod hinterface =>
    refine iff_of_false (fun h => by cases h) ?_
    rintro ⟨o, n, h | h | h, -⟩
    · exact hfield o n h
    · exact hmethod o n h
    · exact hinterface o n h
  all_goals
    next o n hon =>
      rw [hon]
      simp

/-- A reference to a field is one to a member. -/
theorem memberRefAt_of_fieldRefAt {i : UInt16} {m : String × String × String}
    (h : p.fieldRefAt i = .ok m) : p.memberRefAt i = .ok m := by
  obtain ⟨o, n, hon, hm⟩ := fieldRefAt_eq_ok.1 h
  exact memberRefAt_eq_ok.2 ⟨o, n, .inl hon, hm⟩

/-- The table holds the constants that some slot holds. -/
theorem Built.mem_firstSlot_iff (h : p.Built) {c : Constant} :
    c ∈ p.firstSlot ↔ ∃ i, p.get? i = some c := by
  rw [Std.ExtTreeMap.mem_iff_isSome_getElem?, Option.isSome_iff_exists]
  constructor
  · rintro ⟨i, hi⟩
    exact ⟨i, (h.firstSlot_eq_some_iff.1 hi).holds⟩
  · rintro ⟨i, hi⟩
    obtain ⟨first, hfirst⟩ := exists_isFirst hi
    exact ⟨first, h.firstSlot_eq_some_iff.2 hfirst⟩

end Pool

namespace Interning

variable {α β : Type} {p q : Pool} {c : Constant} {i : UInt16}

/-! ## Steps that may be refused -/

/-- The pool that a step leaves, whether it is granted or refused. -/
def leaves (step : Interning α) (p : Pool) : Pool := (step.run.run p).2

/-- The step only appends constants while there is room, whether it is granted or refused. -/
def Grows (step : Interning α) : Prop :=
  ∀ p : Pool, p.Extends (step.leaves p)

theorem Grows.bind {step : Interning α} {next : α → Interning β} (h : Grows step)
    (hnext : ∀ a, Grows (next a)) : Grows (step >>= next) := by
  intro p
  have hp := h p
  unfold leaves at hp ⊢
  rw [ExceptT.run_bind, StateT.run_bind]
  rcases hstep : step.run.run p with ⟨e | a, p'⟩
  · rw [hstep] at hp
    exact hp
  · rw [hstep] at hp
    exact hp.trans (hnext a p')

theorem constant_grows (c : Constant) : Grows (constant c) := by
  intro p
  simp only [leaves, constant, ExceptT.run, StateT.run]
  split
  · exact .refl
  · split
    · exact .refl
    · next hroom => exact .append .refl c (Nat.le_of_not_lt hroom)

theorem classRef_grows (name : String) : Grows (classRef name) :=
  (constant_grows _).bind fun _ => constant_grows _

theorem nameAndType_grows (name descriptor : String) : Grows (nameAndType name descriptor) :=
  (constant_grows _).bind fun _ => (constant_grows _).bind fun _ => constant_grows _

theorem Request.run_grows (r : Request) : Grows r.run := by
  cases r with
  | utf8 text => exact constant_grows _
  | classRef name => exact classRef_grows name
  | string text => exact (constant_grows _).bind fun _ => constant_grows _
  | nameAndType name descriptor => exact nameAndType_grows name descriptor
  | fieldRef owner name descriptor | methodRef owner name descriptor ofInterface =>
    exact (classRef_grows owner).bind fun _ =>
      (nameAndType_grows name descriptor).bind fun _ => constant_grows _
  | constant c => exact constant_grows c

/-- The pool after a sequence of requests, each granted or refused. -/
def poolAfter (p : Pool) (requests : List Request) : Pool :=
  requests.foldl (fun p r => r.run.leaves p) p

theorem poolAfter_cons (p : Pool) (r : Request) (requests : List Request) :
    poolAfter p (r :: requests) = poolAfter (r.run.leaves p) requests := rfl

/-- Requests only append constants while there is room. -/
theorem extends_poolAfter (p : Pool) (requests : List Request) :
    p.Extends (poolAfter p requests) := by
  induction requests generalizing p with
  | nil => exact .refl
  | cons r requests ih =>
    rw [poolAfter_cons]
    exact (r.run_grows p).trans (ih _)

/-! ## Single constants -/

/-- A constant that some slot holds is granted its first slot, and nothing changes. -/
theorem run_constant_of_isFirst (hp : p.Built) (hc : p.IsFirst c i) :
    (constant c).run.run p = (.ok i, p) :=
  succeeds_constant.2 (.inl ⟨hp.firstSlot_eq_some_iff.2 hc, rfl⟩)

theorem firstSlot_eq_none (hp : p.Built) (hnew : ∀ k, p.get? k ≠ some c) :
    p.firstSlot[c]? = none := by
  refine Option.eq_none_iff_forall_ne_some.2 fun k hk => ?_
  exact hnew k (hp.firstSlot_eq_some_iff.1 hk).holds

/-- A constant that no slot holds is refused, and nothing changes, exactly if there is no room. -/
theorem run_constant_eq_overflow_iff (hp : p.Built) (hnew : ∀ k, p.get? k ≠ some c) :
    (constant c).run.run p = (.error .constantPoolOverflow, p) ↔
      Pool.maxCount < p.count + c.slots := by
  have hnone := firstSlot_eq_none hp hnew
  simp only [constant, ExceptT.run, StateT.run, hnone]
  split
  · next hfull => exact iff_of_true rfl hfull
  · next hroom => exact iff_of_false (fun h => by cases h) hroom

/-- A constant that no slot holds is appended if there is room. -/
theorem run_constant_of_room (hp : p.Built) (hnew : ∀ k, p.get? k ≠ some c)
    (hroom : p.count + c.slots ≤ Pool.maxCount) :
    (constant c).run.run p = (.ok (UInt16.ofNat p.count), p.append c) :=
  succeeds_constant.2 (.inr ⟨firstSlot_eq_none hp hnew, hroom, rfl, rfl⟩)

/-! ## Granted slots -/

/-- A reference to a member names it, whatever constant it ends in. -/
theorem memberRef_interns (make : UInt16 → UInt16 → Constant) (owner name descriptor : String) :
    Interns (do constant (make (← classRef owner) (← nameAndType name descriptor))) fun q i =>
      ∃ o n, q.get? i = some (make o n) ∧ q.memberAt o n = .ok (owner, name, descriptor) := by
  refine (classRef_interns owner).bind fun o => (nameAndType_interns name descriptor).bind fun n => ?_
  refine (constant_interns _).mono fun q i hi ⟨nm, d, hnd, hname, hdesc⟩ howner => ?_
  exact ⟨o, n, hi, Pool.memberAt_eq_ok.2 ⟨nm, d, hnd, howner, hname, hdesc⟩⟩

/-- The slot of a reference to a method of a class or of an interface names the method. -/
theorem methodRef_names (owner name descriptor : String) (ofInterface : Bool) :
    Interns (methodRef owner name descriptor ofInterface) fun q i =>
      q.memberRefAt i = .ok (owner, name, descriptor) := by
  refine (memberRef_interns (fun o n => if ofInterface then .interfaceMethodRef o n
    else .methodRef o n) owner name descriptor).mono fun q i ⟨o, n, hi, hm⟩ => ?_
  refine Pool.memberRefAt_eq_ok.2 ⟨o, n, ?_, hm⟩
  cases ofInterface
  · exact .inr (.inl hi)
  · exact .inr (.inr hi)

/-- A granted slot holds a constant. -/
theorem Request.run_holds (r : Request) : Interns r.run fun q i => ∃ c, q.get? i = some c := by
  cases r with
  | utf8 text => exact (constant_interns _).mono fun q i hi => ⟨_, hi⟩
  | classRef name =>
    exact (utf8_interns name).bind fun n => (constant_interns _).mono fun q i hi _ => ⟨_, hi⟩
  | string text => exact (string_interns text).mono fun q i ⟨n, hi, _⟩ => ⟨_, hi⟩
  | nameAndType name descriptor =>
    exact (nameAndType_interns name descriptor).mono fun q i ⟨n, d, hi, _⟩ => ⟨_, hi⟩
  | fieldRef owner name descriptor =>
    exact (memberRef_interns .fieldRef owner name descriptor).mono
      fun q i ⟨o, n, hi, _⟩ => ⟨_, hi⟩
  | methodRef owner name descriptor ofInterface =>
    exact (memberRef_interns (fun o n => if ofInterface then .interfaceMethodRef o n
      else .methodRef o n) owner name descriptor).mono fun q i ⟨o, n, hi, _⟩ => ⟨_, hi⟩
  | constant c => exact (constant_interns c).mono fun q i hi => ⟨_, hi⟩

/-- What the slot of a granted step names it names after any further requests. -/
theorem Interns.poolAfter {step : Interning α} {P : Pool → α → Prop} (h : Interns step P)
    (hp : p.Built) {a : α} (hs : Succeeds step p a q) (later : List Request) :
    P (poolAfter q later) a :=
  (h hp hs).2 _ (extends_poolAfter q later)

end Interning

/-! ## Pools in use -/

namespace Pool

open Interning (Request poolAfter)

/-- The pools that come up: the empty pool and those that were read, after any requests, each granted
or refused. -/
inductive InUse : Pool → Prop
  | empty : InUse empty
  | read {p : Pool} {start rest : Cursor} (h : Pool.read.run start = .ok (p, rest)) : InUse p
  | request {p : Pool} (h : InUse p) (r : Request) : InUse (r.run.leaves p)

theorem InUse.built {p : Pool} (h : p.InUse) : p.Built := by
  induction h with
  | empty => exact .empty
  | read h =>
    obtain ⟨n, hn⟩ := yields_built h
    exact hn.built
  | request _ r ih => exact (r.run_grows _).built ih

/-- Interning in a pool that came up in any way.  The table holds exactly the constants that are
there, each with its first slot.  A constant that is there is granted that slot and nothing changes.
Another one is refused, and nothing changes, exactly if its slots do not fit into the pool, and is
appended behind the last slot otherwise.  Slots keep their constants through any further requests,
those of the pool as well as granted ones, and references to fields and methods resolve to what they
were asked for. -/
theorem InUse.interning {p : Pool} (h : p.InUse) :
    (∀ c, c ∈ p.firstSlot ↔ ∃ i, p.get? i = some c) ∧
    (∀ c i, p.firstSlot[c]? = some i ↔ p.IsFirst c i) ∧
    (∀ c i, p.IsFirst c i → (Interning.constant c).run.run p = (.ok i, p)) ∧
    (∀ c, (∀ i, p.get? i ≠ some c) →
      ((Interning.constant c).run.run p = (.error .constantPoolOverflow, p) ↔
        maxCount < p.count + c.slots) ∧
      (p.count + c.slots ≤ maxCount → ∃ i q, (Interning.constant c).run.run p = (.ok i, q) ∧
        i.toNat = p.count ∧ q.slots.toList = p.slots.toList ++ slotsOf c)) ∧
    (∀ i c later, p.get? i = some c → (poolAfter p later).get? i = some c) ∧
    (∀ (r : Request) i q, Succeeds r.run p i q →
      ∃ c, ∀ later, (poolAfter q later).get? i = some c) ∧
    (∀ owner name descriptor i q, Succeeds (Interning.fieldRef owner name descriptor) p i q →
      ∀ later, (poolAfter q later).fieldRefAt i = .ok (owner, name, descriptor) ∧
        (poolAfter q later).memberRefAt i = .ok (owner, name, descriptor)) ∧
    ∀ owner name descriptor ofInterface i q,
      Succeeds (Interning.methodRef owner name descriptor ofInterface) p i q →
        ∀ later, (poolAfter q later).memberRefAt i = .ok (owner, name, descriptor) := by
  have hp := h.built
  refine ⟨fun c => hp.mem_firstSlot_iff, fun c i => hp.firstSlot_eq_some_iff,
    fun c i hc => Interning.run_constant_of_isFirst hp hc, fun c hnew => ⟨?_, fun hroom => ?_⟩,
    fun i c later hc => (Interning.extends_poolAfter p later).get? hc, fun r i q hs => ?_,
    fun owner name descriptor i q hs later => ?_, ?_⟩
  · exact Interning.run_constant_eq_overflow_iff hp hnew
  · refine ⟨_, _, Interning.run_constant_of_room hp hnew hroom, ?_, slots_append p c⟩
    have hpos := slots_pos c
    unfold maxCount at hroom
    exact Bytes.toNat_length16 (by omega)
  · obtain ⟨c, hc⟩ := (r.run_holds hp hs).2 q .refl
    exact ⟨c, fun later => (Interning.extends_poolAfter q later).get? hc⟩
  · have hfield := (Interning.fieldRef_interns owner name descriptor).poolAfter hp hs later
    exact ⟨hfield, memberRefAt_of_fieldRefAt hfield⟩
  · intro owner name descriptor ofInterface i q hs later
    exact (Interning.methodRef_names owner name descriptor ofInterface).poolAfter hp hs later

/-- A pool that was read with a text in two slots and a long in the last one. -/
theorem InUse.interning_duplicated :
    ∃ p, p.InUse ∧ p.get? 1 = p.get? 2 ∧
      (Interning.constant (.utf8 [0x61])).run.run p = (.ok 1, p) ∧
      ∃ i q, (Interning.constant (.utf8 [0x62])).run.run p = (.ok i, q) ∧ i.toNat = p.count := by
  let p := Pool.empty.appendAll [.utf8 [0x61], .utf8 [0x61], .long 7]
  have hbuilt : p.Built := built_appendAll .empty (by decide)
  have huse : p.InUse := .read (reads hbuilt (by decide) (by decide) 0 [])
  obtain ⟨-, htable, hsame, hnew, -⟩ := huse.interning
  refine ⟨p, huse, by decide, hsame _ _ ((htable _ _).1 (by decide +kernel)), ?_⟩
  have habsent : ∀ i, p.get? i ≠ some (.utf8 [0x62]) := by
    intro i hi
    have hmem := hbuilt.mem_firstSlot_iff.2 ⟨i, hi⟩
    revert hmem
    decide +kernel
  obtain ⟨i, q, hrun, hi, -⟩ := (hnew _ habsent).2 (by decide)
  exact ⟨i, q, hrun, hi⟩

end Pool

end EntityLoom
