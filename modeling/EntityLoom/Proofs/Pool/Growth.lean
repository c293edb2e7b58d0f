import EntityLoom.Pool.Basic
import EntityLoom.Proofs.Outcomes
import EntityLoom.Proofs.Text.ModifiedUtf8

/-!
# Pools that grow

Interning appends constants to a pool and hands out slots of it.  `Extends p q` says that `q` is `p`
with constants appended while there was room: the slots of `p` are a prefix of those of `q`, and
whatever a slot of `p` names it still names in `q`.  `Built p` says that the table of a pool agrees
with its slots, which holds of every pool that is filled by appending.

`Interns step P` says what a step of interning promises: started from a built pool it extends the
pool, and its value has the property `P` in every later extension.  It is kept by sequencing, and
there is one such fact for every step of `Interning`.
-/

namespace EntityLoom

namespace Pool

/-! ## Appending -/

/-- The slots that a constant fills. -/
def slotsOf (c : Constant) : List (Option Constant) :=
  some c :: if c.isWide then [none] else []

theorem slots_append (p : Pool) (c : Constant) :
    (p.append c).slots.toList = p.slots.toList ++ slotsOf c := by
  simp only [append, slotsOf]
  split <;> simp

theorem count_eq (p : Pool) : p.count = p.slots.toList.length := rfl

theorem get?_eq (p : Pool) (i : UInt16) : p.get? i = (p.slots.toList[i.toNat]?).join := by
  unfold get?
  rw [Array.getElem?_toList]

/-- What a slot holds it holds in every pool that starts with the same slots. -/
theorem get?_of_prefix {p q : Pool} (h : p.slots.toList <+: q.slots.toList) {i : UInt16}
    {c : Constant} (hc : p.get? i = some c) : q.get? i = some c := by
  obtain ⟨rest, hrest⟩ := h
  rw [get?_eq] at hc ⊢
  rw [← hrest, List.getElem?_append_left]
  · exact hc
  · by_contra hlen
    rw [List.getElem?_eq_none (by omega)] at hc
    cases hc

theorem get?_append_self {p : Pool} (h : p.count < 0x10000) (c : Constant) :
    (p.append c).get? (UInt16.ofNat p.count) = some c := by
  have hi : (UInt16.ofNat p.count).toNat = p.slots.toList.length := by
    rw [UInt16.toNat_ofNat', ← count_eq]
    exact Nat.mod_eq_of_lt h
  rw [get?_eq, slots_append, hi, List.getElem?_append_right (Nat.le_refl _), Nat.sub_self]
  rfl

theorem firstSlot_append (p : Pool) (c d : Constant) :
    (p.append c).firstSlot[d]? =
      if d = c ∧ c ∉ p.firstSlot then some (UInt16.ofNat p.count) else p.firstSlot[d]? := by
  change (p.firstSlot.insertIfNew c (UInt16.ofNat p.slots.size))[d]? = _
  rw [Std.ExtTreeMap.getElem?_insertIfNew]
  simp only [Std.LawfulEqCmp.compare_eq_iff_eq, eq_comm (a := c) (b := d)]
  rfl

/-! ## Built pools -/

/-- The pools that are filled by appending constants to the empty pool. -/
inductive Built : Pool → Prop
  | empty : Built empty
  | append {p : Pool} (h : Built p) (c : Constant) (room : p.count < maxCount) : Built (p.append c)

/-- The table names for a constant a slot that holds it. -/
theorem Built.get?_of_firstSlot {p : Pool} (h : p.Built) {c : Constant} {i : UInt16}
    (hi : p.firstSlot[c]? = some i) : p.get? i = some c := by
  induction h with
  | empty =>
    have hnone : Pool.empty.firstSlot[c]? = none := Std.ExtTreeMap.getElem?_empty
    rw [hnone] at hi
    cases hi
  | @append p _ d room ih =>
    rw [firstSlot_append] at hi
    unfold maxCount at room
    split at hi
    · next hd =>
      obtain rfl := Option.some.inj hi
      rw [hd.1]
      exact get?_append_self (by omega) d
    · refine get?_of_prefix ?_ (ih hi)
      rw [slots_append]
      exact List.prefix_append _ _

/-! ## Extensions -/

/-- The second pool is the first with constants appended while there was room. -/
inductive Extends (p : Pool) : Pool → Prop
  | refl : Extends p p
  | append {q : Pool} (h : Extends p q) (c : Constant) (room : q.count + c.slots ≤ maxCount) :
      Extends p (q.append c)

variable {p q r : Pool}

theorem Extends.trans (h : p.Extends q) (h' : q.Extends r) : p.Extends r := by
  induction h' with
  | refl => exact h
  | append _ c room ih => exact ih.append c room

theorem slots_pos (c : Constant) : 0 < c.slots := by
  unfold Constant.slots
  split <;> omega

theorem Extends.built (h : p.Extends q) (hp : p.Built) : q.Built := by
  induction h with
  | refl => exact hp
  | append _ c room ih =>
    have := slots_pos c
    exact ih.append c (by omega)

theorem Extends.slots_prefix (h : p.Extends q) : p.slots.toList <+: q.slots.toList := by
  induction h with
  | refl => exact List.prefix_rfl
  | append _ c room ih =>
    rw [slots_append]
    exact ih.trans (List.prefix_append _ _)

/-- Interning never makes a pool larger than it may be. -/
theorem Extends.count_le (h : p.Extends q) (hp : p.count ≤ maxCount) : q.count ≤ maxCount := by
  induction h with
  | refl => exact hp
  | append _ c room ih =>
    rw [count_append]
    exact room

theorem Extends.get? (h : p.Extends q) {i : UInt16} {c : Constant} (hc : p.get? i = some c) :
    q.get? i = some c :=
  get?_of_prefix h.slots_prefix hc

/-! ## What slots name -/

theorem utf8At_eq_ok {i : UInt16} {t : String} :
    p.utf8At i = .ok t ↔ ∃ bs, p.get? i = some (.utf8 bs) ∧ Text.ModifiedUtf8.decode bs = t := by
  unfold utf8At
  split
  · next bs hbs =>
    rw [hbs]
    simp
  · next hne =>
    constructor
    · intro h
      cases h
    · rintro ⟨bs, hbs, -⟩
      exact absurd hbs (hne bs)

theorem classNameAt_eq_ok {i : UInt16} {t : String} :
    p.classNameAt i = .ok t ↔ ∃ n, p.get? i = some (.classRef n) ∧ p.utf8At n = .ok t := by
  unfold classNameAt
  split
  · next n hn =>
    rw [hn]
    simp
  · next hne =>
    constructor
    · intro h
      cases h
    · rintro ⟨n, hn, -⟩
      exact absurd hn (hne n)

theorem memberAt_eq_ok {o i : UInt16} {owner name descriptor : String} :
    p.memberAt o i = .ok (owner, name, descriptor) ↔
      ∃ n d, p.get? i = some (.nameAndType n d) ∧ p.classNameAt o = .ok owner ∧
        p.utf8At n = .ok name ∧ p.utf8At d = .ok descriptor := by
  unfold memberAt
  split
  · next n d hnd =>
    rw [hnd]
    simp only [bind_eq_ok]
    constructor
    · rintro ⟨owner', ho, name', hn, descriptor', hd, h⟩
      cases h
      exact ⟨n, d, rfl, ho, hn, hd⟩
    · rintro ⟨n', d', h, ho, hn, hd⟩
      cases h
      exact ⟨owner, ho, name, hn, descriptor, hd, rfl⟩
  · next hne =>
    constructor
    · intro h
      cases h
    · rintro ⟨n, d, hnd, -⟩
      exact absurd hnd (hne n d)

/-- A slot that names a text names it in every extension. -/
theorem Extends.utf8At (h : p.Extends q) {i : UInt16} {t : String} (ht : p.utf8At i = .ok t) :
    q.utf8At i = .ok t := by
  obtain ⟨bs, hbs, hdecode⟩ := utf8At_eq_ok.1 ht
  exact utf8At_eq_ok.2 ⟨bs, h.get? hbs, hdecode⟩

theorem Extends.classNameAt (h : p.Extends q) {i : UInt16} {t : String}
    (ht : p.classNameAt i = .ok t) : q.classNameAt i = .ok t := by
  obtain ⟨n, hn, hname⟩ := classNameAt_eq_ok.1 ht
  exact classNameAt_eq_ok.2 ⟨n, h.get? hn, h.utf8At hname⟩

theorem Extends.memberAt (h : p.Extends q) {o i : UInt16} {m : String × String × String}
    (hm : p.memberAt o i = .ok m) : q.memberAt o i = .ok m := by
  obtain ⟨n, d, hnd, ho, hn, hd⟩ := memberAt_eq_ok.1 hm
  exact memberAt_eq_ok.2 ⟨n, d, h.get? hnd, h.classNameAt ho, h.utf8At hn, h.utf8At hd⟩

theorem fieldRefAt_eq_ok {i : UInt16} {m : String × String × String} :
    p.fieldRefAt i = .ok m ↔ ∃ o n, p.get? i = some (.fieldRef o n) ∧ p.memberAt o n = .ok m := by
  unfold fieldRefAt
  split
  · next o n hon =>
    rw [hon]
    simp
  · next hne =>
    constructor
    · intro h
      cases h
    · rintro ⟨o, n, hon, -⟩
      exact absurd hon (hne o n)

theorem memberRefAt_of_methodRef {i o n : UInt16} (hi : p.get? i = some (.methodRef o n)) :
    p.memberRefAt i = p.memberAt o n := by
  unfold memberRefAt
  rw [hi]

theorem holdsText_iff {i : UInt16} {t : String} : p.holdsText i t = true ↔ p.utf8At i = .ok t := by
  unfold Pool.holdsText
  split
  · next s hs =>
    rw [hs, beq_iff_eq]
    exact ⟨congrArg _, Except.ok.inj⟩
  · next e he =>
    rw [he]
    simp

end Pool

/-! ## Steps of interning -/

namespace Interning

variable {α β : Type}

/-- From a built pool the step extends the pool, and its value has the property in every later
extension. -/
def Interns (step : Interning α) (P : Pool → α → Prop) : Prop :=
  ∀ ⦃p a p'⦄, p.Built → Succeeds step p a p' →
    p.Extends p' ∧ ∀ q, p'.Extends q → P q a

theorem Interns.mono {step : Interning α} {P Q : Pool → α → Prop} (h : Interns step P)
    (hPQ : ∀ q a, P q a → Q q a) : Interns step Q := by
  intro p a p' hp hs
  obtain ⟨hext, hP⟩ := h hp hs
  exact ⟨hext, fun q hq => hPQ q a (hP q hq)⟩

theorem Interns.pure {P : Pool → α → Prop} {a : α} (h : ∀ q, P q a) :
    Interns (pure a) P := by
  intro p b p' _ hs
  obtain ⟨rfl, rfl⟩ := succeeds_pure.1 hs
  exact ⟨.refl, fun q _ => h q⟩

theorem Interns.bind {step : Interning α} {next : α → Interning β} {P : Pool → α → Prop}
    {Q : Pool → β → Prop} (h : Interns step P)
    (hnext : ∀ a, Interns (next a) fun q b => P q a → Q q b) : Interns (step >>= next) Q := by
  intro p b p'' hp hs
  obtain ⟨a, p', ha, hb⟩ := succeeds_bind.1 hs
  obtain ⟨hext, hP⟩ := h hp ha
  obtain ⟨hext', hQ⟩ := hnext a (hext.built hp) hb
  exact ⟨hext.trans hext', fun q hq => hQ q hq (hP q (hext'.trans hq))⟩

theorem Interns.throw_bind (P : Pool → β → Prop) (e : EmissionError) (next : α → Interning β) :
    Interns (throw e >>= next) P := by
  intro p b p' _ hs
  obtain ⟨a, p₁, ha, -⟩ := succeeds_bind.1 hs
  exact absurd ha not_succeeds_throw

/-- A step that only computes, and what follows it. -/
theorem Interns.lift_bind {x : Except EmissionError α} {next : α → Interning β}
    {P : Pool → β → Prop} (h : ∀ a, x = .ok a → Interns (next a) P) :
    Interns (liftM x >>= next) P := by
  intro p b p' hp hs
  obtain ⟨a, p₁, ha, hb⟩ := succeeds_bind.1 hs
  obtain ⟨hx, rfl⟩ := succeeds_lift.1 ha
  exact h a hx hp hb

theorem Interns.map {step : Interning α} {g : α → β} {P : Pool → β → Prop}
    (h : Interns step fun q a => P q (g a)) : Interns (g <$> step) P := by
  rw [map_eq_pure_bind]
  exact h.bind fun a => .pure fun q ha => ha

theorem Interns.mapM {step : α → Interning β} {P : α → Pool → β → Prop}
    (h : ∀ x, Interns (step x) (P x)) (xs : List α) :
    Interns (xs.mapM step) fun q ys => List.Forall₂ (fun x y => P x q y) xs ys := by
  induction xs with
  | nil =>
    rw [List.mapM_nil]
    exact .pure fun q => .nil
  | cons x xs ih =>
    rw [List.mapM_cons]
    refine (h x).bind fun y => ih.bind fun ys => .pure fun q hys hy => ?_
    exact .cons hy hys

/-- Steps for the items of a list answer as many values. -/
theorem length_of_mapM {step : α → Interning β} {xs : List α} {ys : List β} {p p' : Pool}
    (h : Succeeds (xs.mapM step) p ys p') : ys.length = xs.length := by
  induction xs generalizing p ys p' with
  | nil =>
    rw [List.mapM_nil] at h
    exact congrArg List.length (succeeds_pure.1 h).1.symm
  | cons x xs ih =>
    obtain ⟨y, p₁, ys', -, hys, rfl⟩ := succeeds_mapM_cons.1 h
    rw [List.length_cons, List.length_cons, ih hys]

/-! ## Each step -/

/-- A constant is granted the slot that the table names, or a new one if there is room. -/
theorem succeeds_constant {c : Constant} {p p' : Pool} {i : UInt16} :
    Succeeds (constant c) p i p' ↔ p.firstSlot[c]? = some i ∧ p' = p ∨
      p.firstSlot[c]? = none ∧ p.count + c.slots ≤ Pool.maxCount ∧ i = UInt16.ofNat p.count ∧
        p' = p.append c := by
  unfold Succeeds constant
  simp only [ExceptT.run, StateT.run]
  split
  · next j hj =>
    refine Prod.ext_iff.trans ?_
    simp [hj, eq_comm]
  · next hj =>
    split
    · next hover =>
      refine Prod.ext_iff.trans ?_
      simp [hj, Nat.not_le.2 hover]
    · next hroom =>
      refine Prod.ext_iff.trans ?_
      simp [hj, Nat.not_lt.1 hroom, eq_comm]

theorem constant_interns (c : Constant) : Interns (constant c) fun q i => q.get? i = some c := by
  intro p i p' hp hs
  rcases succeeds_constant.1 hs with ⟨hi, rfl⟩ | ⟨-, hroom, rfl, rfl⟩
  · exact ⟨.refl, fun q hq => hq.get? (hp.get?_of_firstSlot hi)⟩
  · have hpos := Pool.slots_pos c
    have hcount : p.count < 0x10000 := by
      unfold Pool.maxCount at hroom
      omega
    exact ⟨.append .refl c hroom, fun q hq => hq.get? (Pool.get?_append_self hcount c)⟩

/-- The slot of a text names it. -/
theorem utf8_interns (text : String) :
    Interns (utf8 text) fun q i => q.utf8At i = .ok text := by
  refine (constant_interns _).mono fun q i hi => Pool.utf8At_eq_ok.2 ⟨_, hi, ?_⟩
  exact Text.ModifiedUtf8.decode_encode text

theorem classRef_interns (name : String) :
    Interns (classRef name) fun q i => q.classNameAt i = .ok name := by
  refine (utf8_interns name).bind fun n => (constant_interns _).mono fun q i hi hn => ?_
  exact Pool.classNameAt_eq_ok.2 ⟨n, hi, hn⟩

theorem string_interns (text : String) :
    Interns (string text) fun q i => ∃ n, q.get? i = some (.string n) ∧ q.utf8At n = .ok text :=
  (utf8_interns text).bind fun n => (constant_interns _).mono fun _ _ hi hn => ⟨n, hi, hn⟩

theorem nameAndType_interns (name descriptor : String) :
    Interns (nameAndType name descriptor) fun q i =>
      ∃ n d, q.get? i = some (.nameAndType n d) ∧ q.utf8At n = .ok name ∧
        q.utf8At d = .ok descriptor := by
  refine (utf8_interns name).bind fun n => (utf8_interns descriptor).bind fun d => ?_
  exact (constant_interns _).mono fun q i hi hd hn => ⟨n, d, hi, hn, hd⟩

/-- The slot of a reference to a field names the field. -/
theorem fieldRef_interns (owner name descriptor : String) :
    Interns (fieldRef owner name descriptor) fun q i =>
      q.fieldRefAt i = .ok (owner, name, descriptor) := by
  refine (classRef_interns owner).bind fun o => (nameAndType_interns name descriptor).bind fun n => ?_
  refine (constant_interns _).mono fun q i hi ⟨nm, d, hnd, hname, hdesc⟩ howner => ?_
  refine Pool.fieldRefAt_eq_ok.2 ⟨o, n, hi, ?_⟩
  exact Pool.memberAt_eq_ok.2 ⟨nm, d, hnd, howner, hname, hdesc⟩

/-- The slot of a reference to a method of a class names the method. -/
theorem methodRef_interns (owner name descriptor : String) :
    Interns (methodRef owner name descriptor false) fun q i =>
      (∃ o n, q.get? i = some (.methodRef o n)) ∧
        q.memberRefAt i = .ok (owner, name, descriptor) := by
  refine (classRef_interns owner).bind fun o => (nameAndType_interns name descriptor).bind fun n => ?_
  refine (constant_interns _).mono fun q i hi ⟨nm, d, hnd, hname, hdesc⟩ howner => ?_
  rw [if_neg Bool.false_ne_true] at hi
  refine ⟨⟨o, n, hi⟩, ?_⟩
  rw [Pool.memberRefAt_of_methodRef hi]
  exact Pool.memberAt_eq_ok.2 ⟨nm, d, hnd, howner, hname, hdesc⟩

/-- Whatever a reference to a method is of, the pool is extended. -/
theorem methodRef_extends (owner name descriptor : String) (ofInterface : Bool) :
    Interns (methodRef owner name descriptor ofInterface) fun _ _ => True := by
  refine (classRef_interns owner).bind fun o => (nameAndType_interns name descriptor).bind fun n => ?_
  exact (constant_interns _).mono fun _ _ _ _ _ => trivial

end Interning

end EntityLoom
