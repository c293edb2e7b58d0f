import EntityLoom.Proofs.Code.Refusal
import EntityLoom.Proofs.Weaving.Header

/-!
# Sequences of operations on a class

A class is extended by operations, each of which succeeds or fails.
`Extension.operations_atomic` is what holds after any sequence of them.  One that fails leaves the pool
extended and everything else as it was.  What was recorded as added names what stands behind the
interfaces, fields and methods of the class, in order.  If the class told its fields apart by name and
its methods by name and descriptor, the members that were added are told apart from these and from one
another.

Names are read from slots of the pool.  A member of the class may have a slot beyond its pool; nothing
can be read there at first, and a text that is interned later may come to stand there
(`not_told_apart_of_unplaced`).  So this is said of the members whose slots lie within the pool.
-/

namespace EntityLoom

open Interning (Grows Interns)

/-! ## Changes of the pool alone -/

/-- The second class is the first with its pool extended. -/
structure ClassFile.PoolGrown (c d : ClassFile) : Prop where
  pool : c.pool.Extends d.pool
  rest : d = { c with pool := d.pool }

/-- The second extension is the first with the pool of its class extended. -/
structure Extension.PoolGrown (x y : Extension) : Prop where
  pool : x.file.pool.Extends y.file.pool
  rest : y = { x with file := { x.file with pool := y.file.pool } }

namespace ClassFile

variable {α : Type} {c d : ClassFile} {e : EmissionError} {step : Interning α}

theorem PoolGrown.trans {c' : ClassFile} (h : c.PoolGrown d) (h' : d.PoolGrown c') :
    c.PoolGrown c' := by
  refine ⟨h.pool.trans h'.pool, ?_⟩
  rw [h'.rest, h.rest]

/-- A step on the pool changes nothing else, whether it succeeds or fails. -/
theorem poolGrown_interning (hgrows : Grows step) {result : Except EmissionError α}
    (h : (interning step).run.run c = (result, d)) : c.PoolGrown d := by
  obtain ⟨-, rfl⟩ := Prod.mk.inj h
  exact ⟨hgrows c.pool, rfl⟩

theorem addInterface_fails {name : String} (h : Fails (addInterface name) c e d) :
    c.PoolGrown d := by
  rcases fails_bind.1 h with h | ⟨i, c₁, -, h⟩
  · exact poolGrown_interning (Interning.classRef_grows name) h
  · exact absurd h not_fails_modify

theorem setSignature_fails {text : String} (h : Fails (setSignature text) c e d) :
    c.PoolGrown d := by
  unfold setSignature at h
  rcases fails_bind.1 h with h | ⟨v, c₁, hvalue, h⟩
  · exact poolGrown_interning (Interning.utf8_grows text) h
  have hgrown := poolGrown_interning (Interning.utf8_grows text) hvalue
  rcases fails_bind.1 h with h | ⟨c', c₂, hget, h⟩
  · exact absurd h not_fails_get
  obtain ⟨rfl, rfl⟩ := succeeds_get.1 hget
  split at h
  · exact absurd h not_fails_set
  · rcases fails_bind.1 h with h | ⟨n, c₃, -, h⟩
    · exact hgrown.trans (poolGrown_interning (Interning.utf8_grows _) h)
    · exact absurd h not_fails_modify

/-- A signature that is written changes the pool and the attributes. -/
theorem setSignature_succeeds {text : String} {u : Unit} (h : Succeeds (setSignature text) c u d) :
    c.pool.Extends d.pool ∧ d = { c with pool := d.pool, attributes := d.attributes } := by
  unfold setSignature at h
  obtain ⟨v, c₁, hvalue, h⟩ := succeeds_bind.1 h
  have hgrown := poolGrown_interning (Interning.utf8_grows text) hvalue
  obtain ⟨c', c₂, hget, h⟩ := succeeds_bind.1 h
  obtain ⟨rfl, rfl⟩ := succeeds_get.1 hget
  split at h
  · obtain rfl := succeeds_set.1 h
    refine ⟨hgrown.pool, ?_⟩
    rw [hgrown.rest]
  · obtain ⟨n, c₃, hname, h⟩ := succeeds_bind.1 h
    have hgrown' := hgrown.trans (poolGrown_interning (Interning.utf8_grows _) hname)
    obtain rfl := succeeds_modify.1 h
    refine ⟨hgrown'.pool, ?_⟩
    dsimp only
    rw [hgrown'.rest]

end ClassFile

namespace Extension

variable {α : Type} {x y : Extension} {e : WeaveError}

theorem PoolGrown.refl : x.PoolGrown x := ⟨.refl, rfl⟩

/-- A failing step on the class file leaves the record as it was. -/
theorem emitting_fails {member : String} {step : Extending EmissionError α}
    (hstep : ∀ c e d, Fails step c e d → c.PoolGrown d) (h : Fails (emitting member step) x e y) :
    x.PoolGrown y := by
  unfold Fails emitting at h
  simp only [ExceptT.run, StateT.run] at h
  rcases hrun : step x.file with ⟨e' | a, file⟩
  · rw [hrun] at h
    obtain ⟨-, rfl⟩ := Prod.mk.inj h
    have hgrown := hstep x.file e' file hrun
    refine ⟨hgrown.pool, ?_⟩
    dsimp only
    rw [← hgrown.rest]
  · rw [hrun] at h
    cases h

/-- A field is not added if the class has one of its name, or if it cannot be written. -/
theorem addField_fails {f : FieldDecl} (h : Fails (addField f) x e y) :
    (x.file.hasField f.name = true ∧ x = y) ∨
      (x.file.hasField f.name = false ∧
        Fails (emitting f.name (ClassFile.interning f.toMember)) x e y) := by
  unfold addField at h
  rcases fails_get_unless.1 h with ⟨hhas, -, rfl⟩ | ⟨hnew, h⟩
  · exact .inl ⟨hhas, rfl⟩
  rcases fails_bind.1 h with h | ⟨member, x₁, -, h⟩
  · exact .inr ⟨hnew, h⟩
  · exact absurd h not_fails_modify

/-- A field of a name that the class has is refused, and nothing changes. -/
theorem addField_refused {f : FieldDecl} (h : x.file.hasField f.name = true) :
    Fails (addField f) x (.duplicateMember x.name f.name f.descriptor) x := by
  unfold addField
  exact fails_get_unless.2 (.inl ⟨h, rfl, rfl⟩)

/-- A method is not added if the class has it, or if it cannot be assembled. -/
theorem addMethod_fails {m : MethodDecl} (h : Fails (addMethod m) x e y) :
    (x.file.hasMethod m.name m.descriptor = true ∧ x = y) ∨
      (x.file.hasMethod m.name m.descriptor = false ∧
        Fails (emitting m.signature (ClassFile.interning (m.toMember x.name x.withFrames))) x e y) := by
  unfold addMethod at h
  rcases fails_get_unless.1 h with ⟨hhas, -, rfl⟩ | ⟨hnew, h⟩
  · exact .inl ⟨hhas, rfl⟩
  rcases fails_bind.1 h with h | ⟨member, x₁, -, h⟩
  · exact .inr ⟨hnew, h⟩
  · exact absurd h not_fails_modify

/-! ## Operations -/

/-- What a class can be extended by. -/
inductive Operation
  | interface (name : String)
  | member (d : MemberDecl)
  | signature (text : String)

/-- The step that an operation takes. -/
def Operation.step : Operation → Step Unit
  | interface name => addInterface name
  | member d => addMember d
  | signature text => setSignature text

/-- What an operation leaves, whether it succeeds or fails. -/
def Operation.leaves (o : Operation) (x : Extension) : Extension :=
  (o.step.run.run x).2

/-- What a sequence of operations leaves, each of which succeeds or fails. -/
def after (x : Extension) (operations : List Operation) : Extension :=
  operations.foldl (fun x o => o.leaves x) x

/-- An operation that fails leaves the pool extended and everything else as it was. -/
theorem Operation.fails {o : Operation} (h : Fails o.step x e y) : x.PoolGrown y := by
  cases o with
  | interface name =>
    rcases fails_bind.1 h with h | ⟨_, x₁, -, h⟩
    · exact emitting_fails (fun _ _ _ => ClassFile.addInterface_fails) h
    · exact absurd h not_fails_modify
  | signature text => exact emitting_fails (fun _ _ _ => ClassFile.setSignature_fails) h
  | member d =>
    cases d with
    | field f =>
      rcases addField_fails h with ⟨-, rfl⟩ | ⟨-, h⟩
      · exact .refl
      · exact emitting_fails (fun _ _ _ => ClassFile.poolGrown_interning f.toMember_grows) h
    | method m =>
      rcases addMethod_fails h with ⟨-, rfl⟩ | ⟨-, h⟩
      · exact .refl
      · exact emitting_fails (fun _ _ _ => ClassFile.poolGrown_interning (m.toMember_grows _ _)) h

end Extension

/-! ## Telling members apart -/

/-- Fields are told apart by the text in this slot. -/
def Member.nameSlots (m : Member) : List UInt16 := [m.name]

/-- Methods are told apart by the texts in these slots. -/
def Member.signatureSlots (m : Member) : List UInt16 := [m.name, m.descriptor]

namespace Pool

variable {start p q : Pool} {slots : Member → List UInt16} {before after ms : List Member}
  {added : List String}

/-- The texts in some slots, if all of them can be read. -/
def textsAt? (p : Pool) (slots : List UInt16) : Option (List String) :=
  slots.mapM fun i => (p.utf8At i).toOption

/-- The texts that some members are told apart by; members whose texts cannot be read are passed
over. -/
def keysOf (p : Pool) (slots : Member → List UInt16) (ms : List Member) : List (List String) :=
  ms.filterMap fun m => p.textsAt? (slots m)

/-- The members whose slots lie within the pool. -/
def placed (p : Pool) (slots : Member → List UInt16) (ms : List Member) : List Member :=
  ms.filter fun m => (slots m).all (·.toNat < p.count)

/-- Members were added behind those of a class, and the record has their texts in order.  If the class
told its members apart, then the added ones are told apart from these and from one another. -/
def Appended (start p : Pool) (slots : Member → List UInt16) (before : List Member)
    (added : List String) (after : List Member) : Prop :=
  ∃ suffix, after = before ++ suffix ∧
    List.Forall₂ (fun text m => (p.textsAt? (slots m)).map String.join = some text) added suffix ∧
    ((start.keysOf slots before).Nodup →
      (p.keysOf slots (start.placed slots before ++ suffix)).Nodup)

theorem Extends.count_le_count (h : p.Extends q) : p.count ≤ q.count := by
  rw [count_eq, count_eq]
  exact h.slots_prefix.length_le

/-- A text that can be read stands within the pool. -/
theorem lt_count_of_utf8At {i : UInt16} {text : String} (h : p.utf8At i = .ok text) :
    i.toNat < p.count := by
  obtain ⟨bs, hbs, -⟩ := utf8At_eq_ok.1 h
  by_contra hge
  rw [get?_of_count_le (Nat.le_of_not_lt hge)] at hbs
  cases hbs

theorem textsAt?_cons (p : Pool) (i : UInt16) (is : List UInt16) :
    p.textsAt? (i :: is) =
      (p.utf8At i).toOption.bind fun t => (p.textsAt? is).bind fun ts => some (t :: ts) :=
  List.mapM_cons

theorem textsAt?_cons_eq_some {i : UInt16} {is : List UInt16} {text : String}
    {texts : List String} :
    p.textsAt? (i :: is) = some (text :: texts) ↔
      p.utf8At i = .ok text ∧ p.textsAt? is = some texts := by
  rw [textsAt?_cons]
  rcases p.utf8At i with e | t <;> simp [Except.toOption, Option.bind_eq_some_iff,
    and_comm]

theorem lt_count_of_textsAt? {is : List UInt16} {texts : List String}
    (h : p.textsAt? is = some texts) : ∀ i ∈ is, i.toNat < p.count := by
  induction is generalizing texts with
  | nil => simp
  | cons i is ih =>
    rw [textsAt?_cons] at h
    obtain ⟨t, ht, h⟩ := Option.bind_eq_some_iff.1 h
    obtain ⟨ts, hts, -⟩ := Option.bind_eq_some_iff.1 h
    refine List.forall_mem_cons.2 ⟨?_, ih hts⟩
    rcases hread : p.utf8At i with e | text
    · rw [hread] at ht
      cases ht
    · exact lt_count_of_utf8At hread

/-- What lies within a pool reads the same in every extension. -/
theorem Extends.textsAt?_of_lt (h : p.Extends q) {is : List UInt16}
    (his : ∀ i ∈ is, i.toNat < p.count) : q.textsAt? is = p.textsAt? is := by
  induction is with
  | nil => rfl
  | cons i is ih =>
    obtain ⟨hi, his⟩ := List.forall_mem_cons.1 his
    rw [textsAt?_cons, textsAt?_cons, utf8At_congr (h.get?_of_lt hi), ih his]

theorem Extends.textsAt? (h : p.Extends q) {is : List UInt16} {texts : List String}
    (ht : p.textsAt? is = some texts) : q.textsAt? is = some texts := by
  rw [h.textsAt?_of_lt (lt_count_of_textsAt? ht), ht]

theorem Extends.keysOf (h : p.Extends q) (hms : ∀ m ∈ ms, ∀ i ∈ slots m, i.toNat < p.count) :
    q.keysOf slots ms = p.keysOf slots ms :=
  List.filterMap_congr fun m hm => h.textsAt?_of_lt (hms m hm)

theorem keysOf_append (p : Pool) (slots : Member → List UInt16) (ms ms' : List Member) :
    p.keysOf slots (ms ++ ms') = p.keysOf slots ms ++ p.keysOf slots ms' :=
  List.filterMap_append

theorem Appended.refl : Appended start start slots before [] before := by
  refine ⟨[], (List.append_nil _).symm, .nil, fun h => ?_⟩
  rw [List.append_nil]
  exact h.sublist (List.filter_sublist.filterMap _)

/-- All slots of the members that are told apart lie in the pool. -/
theorem lt_count_of_appended {suffix : List Member} (hstart : start.Extends p)
    (hsuffix : List.Forall₂ (fun text m => (p.textsAt? (slots m)).map String.join = some text)
      added suffix) :
    ∀ m ∈ start.placed slots before ++ suffix, ∀ i ∈ slots m, i.toNat < p.count := by
  intro m hm i hi
  rcases List.mem_append.1 hm with hm | hm
  · obtain ⟨-, hplaced⟩ := List.mem_filter.1 hm
    have hlt := of_decide_eq_true (List.all_eq_true.1 hplaced i hi)
    exact Nat.lt_of_lt_of_le hlt hstart.count_le_count
  · obtain ⟨text, -, htext⟩ := exists_mem_of_forall₂ hsuffix hm
    obtain ⟨texts, htexts, -⟩ := Option.map_eq_some_iff.1 htext
    exact lt_count_of_textsAt? htexts i hi

theorem Appended.extend (h : Appended start p slots before added after) (hstart : start.Extends p)
    (hpq : p.Extends q) : Appended start q slots before added after := by
  obtain ⟨suffix, rfl, hsuffix, hdistinct⟩ := h
  refine ⟨suffix, rfl, hsuffix.imp fun text m htext => ?_, fun hnodup => ?_⟩
  · obtain ⟨texts, htexts, rfl⟩ := Option.map_eq_some_iff.1 htext
    rw [hpq.textsAt? htexts]
    rfl
  · rw [hpq.keysOf (lt_count_of_appended hstart hsuffix)]
    exact hdistinct hnodup

/-- A member with texts that none of the members before it has is told apart from them. -/
theorem Appended.concat (h : Appended start p slots before added after) (hstart : start.Extends p)
    (hpq : p.Extends q) {m : Member} {texts : List String}
    (hm : q.textsAt? (slots m) = some texts)
    (hnew : ∀ m' ∈ after, p.textsAt? (slots m') ≠ some texts) :
    Appended start q slots before (added ++ [String.join texts]) (after ++ [m]) := by
  obtain ⟨suffix, rfl, hsuffix, hdistinct⟩ := h
  have hinside : ∀ m ∈ start.placed slots before ++ suffix, ∀ i ∈ slots m, i.toNat < p.count :=
    lt_count_of_appended hstart hsuffix
  have hkeys := hpq.keysOf hinside
  have hlast : q.keysOf slots [m] = [texts] := List.filterMap_cons_some hm
  refine ⟨suffix ++ [m], List.append_assoc .., ?_, fun hnodup => ?_⟩
  · refine List.rel_append (hsuffix.imp fun text m' htext => ?_) (.cons ?_ .nil)
    · obtain ⟨ts, hts, rfl⟩ := Option.map_eq_some_iff.1 htext
      rw [hpq.textsAt? hts]
      rfl
    · rw [hm]
      rfl
  · rw [← List.append_assoc, keysOf_append, hkeys, hlast]
    refine List.nodup_append.2 ⟨hdistinct hnodup, List.nodup_singleton _, ?_⟩
    rintro _ hold _ hmem rfl
    obtain rfl := List.mem_singleton.1 hmem
    obtain ⟨m', hm', hsame⟩ := List.mem_filterMap.1 hold
    refine hnew m' ?_ hsame
    exact List.mem_append.2 ((List.mem_append.1 hm').imp_left List.mem_of_mem_filter)

/-- A class without a field of that name has no field with that text in its name slot. -/
theorem textsAt?_ne_of_hasField {c : ClassFile} {name : String} (h : c.hasField name = false) :
    ∀ f ∈ c.fields, c.pool.textsAt? f.nameSlots ≠ some [name] := by
  intro f hf htexts
  exact List.any_eq_false.1 h f hf (holdsText_iff.2 (textsAt?_cons_eq_some.1 htexts).1)

theorem textsAt?_ne_of_hasMethod {c : ClassFile} {name descriptor : String}
    (h : c.hasMethod name descriptor = false) :
    ∀ m ∈ c.methods, c.pool.textsAt? m.signatureSlots ≠ some [name, descriptor] := by
  intro m hm htexts
  obtain ⟨hname, htexts⟩ := textsAt?_cons_eq_some.1 htexts
  refine List.any_eq_false.1 h m hm (Bool.and_eq_true_iff.2 ⟨holdsText_iff.2 hname, ?_⟩)
  exact holdsText_iff.2 (textsAt?_cons_eq_some.1 htexts).1

end Pool

namespace Extension

variable {file : ClassFile} {x y : Extension}

/-- The class was extended: interfaces and members stand behind those of the file, the record has their
names, and the members can be told apart. -/
structure ExtendedFrom (file : ClassFile) (x : Extension) : Prop where
  pool : file.pool.Extends x.file.pool
  rest : x.file =
    { file with
      pool := x.file.pool
      interfaces := x.file.interfaces
      fields := x.file.fields
      methods := x.file.methods
      attributes := x.file.attributes }
  interfaces : ∃ suffix, x.file.interfaces = file.interfaces ++ suffix ∧
    List.Forall₂ (fun name i => x.file.pool.classNameAt i = .ok name) x.added.interfaces suffix
  fields : file.pool.Appended x.file.pool Member.nameSlots file.fields x.added.fields x.file.fields
  methods : file.pool.Appended x.file.pool Member.signatureSlots file.methods x.added.methods
    x.file.methods

theorem ExtendedFrom.start (h : ofFile file = .ok x) : ExtendedFrom file x := by
  obtain ⟨name, -, h⟩ := bind_eq_ok.1 h
  obtain rfl := Except.ok.inj h
  exact ⟨.refl, rfl, ⟨[], (List.append_nil _).symm, .nil⟩, .refl, .refl⟩

/-- Extending the pool changes nothing of this. -/
theorem ExtendedFrom.poolGrown (h : ExtendedFrom file x) (hxy : x.PoolGrown y) :
    ExtendedFrom file y := by
  obtain ⟨hpool, hy⟩ := hxy
  obtain ⟨suffix, hsuffix, hnames⟩ := h.interfaces
  generalize y.file.pool = q at hpool hy
  subst hy
  refine ⟨h.pool.trans hpool, ?_, ⟨suffix, hsuffix, hnames.imp fun _ _ => hpool.classNameAt⟩,
    h.fields.extend h.pool hpool, h.methods.extend h.pool hpool⟩
  dsimp only
  rw [h.rest]

/-- An operation that succeeds adds one item or none. -/
theorem ExtendedFrom.succeeds (hpool : file.pool.Built) (h : ExtendedFrom file x) {o : Operation}
    {u : Unit} (ho : Succeeds o.step x u y) : ExtendedFrom file y := by
  have hx := h.pool.built hpool
  obtain ⟨suffix, hsuffix, hnames⟩ := h.interfaces
  cases o with
  | interface name =>
    obtain ⟨i, pool, hi, rfl⟩ := succeeds_addInterface.1 ho
    obtain ⟨hext, hname⟩ := Interning.classRef_interns name hx hi
    refine ⟨h.pool.trans hext, ?_, ⟨suffix ++ [i], ?_, ?_⟩, h.fields.extend h.pool hext,
      h.methods.extend h.pool hext⟩
    · dsimp only
      rw [h.rest]
    · rw [← List.append_assoc, ← hsuffix]
    · exact List.rel_append (hnames.imp fun _ _ => hext.classNameAt) (.cons (hname pool .refl) .nil)
  | signature text =>
    unfold Operation.step setSignature at ho
    obtain ⟨d, hd, rfl⟩ := succeeds_emitting.1 ho
    obtain ⟨hext, hrest⟩ := ClassFile.setSignature_succeeds hd
    generalize d.pool = q at hext hrest
    generalize d.attributes = attributes at hrest
    subst hrest
    refine ⟨h.pool.trans hext, ?_, ⟨suffix, hsuffix, hnames.imp fun _ _ => hext.classNameAt⟩,
      h.fields.extend h.pool hext, h.methods.extend h.pool hext⟩
    dsimp only
    rw [h.rest]
  | member d =>
    cases d with
    | field f =>
      obtain ⟨hnew, hext, m, hm, hy⟩ := addField_of_interns f.toMember_declares hx ho
      generalize y.file.pool = q at hext hm hy
      subst hy
      have htexts : q.textsAt? m.nameSlots = some [f.name] :=
        Pool.textsAt?_cons_eq_some.2 ⟨hm.name, rfl⟩
      have hadded := hnames.imp fun _ _ => hext.classNameAt
      refine ⟨h.pool.trans hext, ?_, ⟨suffix, hsuffix, hadded⟩, ?_,
        h.methods.extend h.pool hext⟩
      · dsimp only
        rw [h.rest]
      · have hfields := h.fields.concat h.pool hext htexts (Pool.textsAt?_ne_of_hasField hnew)
        simpa [String.join] using hfields
    | method d =>
      obtain ⟨hnew, hext, m, hm, hy⟩ := addMethod_of_interns d.toMember_declares hx ho
      generalize y.file.pool = q at hext hm hy
      subst hy
      have htexts : q.textsAt? m.signatureSlots = some [d.name, d.descriptor] :=
        Pool.textsAt?_cons_eq_some.2
          ⟨hm.name, Pool.textsAt?_cons_eq_some.2 ⟨hm.descriptor, rfl⟩⟩
      refine ⟨h.pool.trans hext, ?_, ⟨suffix, hsuffix, hnames.imp fun _ _ => hext.classNameAt⟩,
        h.fields.extend h.pool hext, ?_⟩
      · dsimp only
        rw [h.rest]
      · have hmethods := h.methods.concat h.pool hext htexts (Pool.textsAt?_ne_of_hasMethod hnew)
        simpa [String.join, MethodDecl.signature] using hmethods

theorem ExtendedFrom.leaves (hpool : file.pool.Built) (h : ExtendedFrom file x) (o : Operation) :
    ExtendedFrom file (o.leaves x) := by
  rcases ho : o.step.run.run x with ⟨e | u, y⟩
  · have hy : o.leaves x = y := congrArg Prod.snd ho
    rw [hy]
    exact h.poolGrown (Operation.fails ho)
  · have hy : o.leaves x = y := congrArg Prod.snd ho
    rw [hy]
    exact h.succeeds hpool ho

theorem ExtendedFrom.after (hpool : file.pool.Built) (h : ExtendedFrom file x)
    (operations : List Operation) : ExtendedFrom file (x.after operations) := by
  induction operations generalizing x with
  | nil => exact h
  | cons o operations ih => exact ih (h.leaves hpool o)

/-- After any operations on a class, each of which succeeded or failed: the record names what stands
behind the interfaces, fields and methods of the class, and if the class told its members apart, so
are those within its pool and the added ones.  A further operation that fails leaves the pool extended
and everything else as it was. -/
theorem operations_atomic (hfile : file.pool.InUse) (hx : ofFile file = .ok x)
    (operations : List Operation) :
    ExtendedFrom file (x.after operations) ∧
      ∀ o e y, Fails (Operation.step o) (x.after operations) e y →
        (x.after operations).PoolGrown y :=
  ⟨(ExtendedFrom.start hx).after hfile.built operations, fun _ _ _ => Operation.fails⟩

/-- The class `A` with a field whose name slot lies just behind the pool. -/
def unplacedFile : ClassFile :=
  { minor := 0
    major := 52
    pool := (Interning.Request.classRef "A").run.leaves .empty
    access := Access.publicFlag
    thisClass := 2
    superClass := 0
    interfaces := []
    fields := [⟨0, 3, 1, []⟩]
    methods := []
    attributes := [] }

/-- That class before anything is added. -/
def unplaced : Extension := ⟨unplacedFile, "A", true, {}⟩

theorem ofFile_unplacedFile : ofFile unplacedFile = .ok unplaced := by
  have hname : unplacedFile.name = .ok "A" := by decide +kernel
  rw [ofFile, hname]
  rfl

theorem inUse_unplacedFile : unplacedFile.pool.InUse := .request .empty _

/-- A field, an interface and a method. -/
def sampleOperations : List Operation :=
  [ .member (.field ⟨0, "x", "I", []⟩), .interface "B",
    .member (.method ⟨0, "m", "()V", [.simple .returnVoid]⟩) ]

/-- A second field of a name is refused after these. -/
theorem operations_atomic_sample :
    unplacedFile.pool.InUse ∧ ofFile unplacedFile = .ok unplaced ∧
      (unplacedFile.pool.keysOf Member.nameSlots unplacedFile.fields).Nodup ∧
      ExtendedFrom unplacedFile (unplaced.after sampleOperations) ∧
      ∃ e y, Fails (Operation.step (.member (.field ⟨0, "x", "J", []⟩)))
        (unplaced.after sampleOperations) e y ∧ (unplaced.after sampleOperations).PoolGrown y := by
  obtain ⟨hextended, hfails⟩ :=
    operations_atomic inUse_unplacedFile ofFile_unplacedFile sampleOperations
  have hrefused : Fails (Operation.step (.member (.field ⟨0, "x", "J", []⟩)))
      (unplaced.after sampleOperations)
      (.duplicateMember (unplaced.after sampleOperations).name "x" "J")
      (unplaced.after sampleOperations) :=
    addField_refused (by decide +kernel)
  exact ⟨inUse_unplacedFile, ofFile_unplacedFile, by decide, hextended, _, _, hrefused,
    hfails _ _ _ hrefused⟩

/-- A field with an unreadable name and an added field can come to bear the same name. -/
theorem not_told_apart_of_unplaced :
    ¬∀ (file : ClassFile) (x : Extension) (operations : List Operation), file.pool.InUse →
      ofFile file = .ok x → (file.pool.keysOf Member.nameSlots file.fields).Nodup →
        ((x.after operations).file.pool.keysOf Member.nameSlots
          (x.after operations).file.fields).Nodup := by
  intro h
  have hnodup := h unplacedFile unplaced [.member (.field ⟨0, "x", "I", []⟩)] inUse_unplacedFile
    ofFile_unplacedFile (by decide)
  revert hnodup
  decide +kernel

end Extension

end EntityLoom
