import EntityLoom.Proofs.Code.Member
import EntityLoom.Weaving.Extension

/-!
# What extending a class adds

Each step of an extension is inverted once: what a step that succeeds leaves is the class before it
with one item at the end of one table, a record of it, and a pool that was extended.
`Extension.addMembers_eq_ok` is the run of such steps over a list of declarations: the new fields and
methods bear the declared names in order, and what the class had before is still there.
-/

namespace EntityLoom

open Interning (Interns)

/-- A member bears its names in every extension of the pool. -/
theorem Member.Declares.extend {m : Member} {p q : Pool} {access : UInt16}
    {name descriptor : String} (h : m.Declares p access name descriptor) (hpq : p.Extends q) :
    m.Declares q access name descriptor :=
  ⟨h.access, hpq.utf8At h.name, hpq.utf8At h.descriptor⟩

theorem WeaveError.ofFormat_eq_ok {α : Type} {x : Except FormatError α} {a : α} :
    ofFormat x = .ok a ↔ x = .ok a := by
  cases x <;> simp [ofFormat]

namespace ClassFile

variable {α : Type}

/-- A step on the pool changes nothing else. -/
theorem succeeds_interning {step : Interning α} {c d : ClassFile} {a : α} :
    Succeeds (interning step) c a d ↔ ∃ pool, Succeeds step c.pool a pool ∧ d = { c with pool } := by
  unfold Succeeds interning
  simp only [ExceptT.run, StateT.run]
  constructor
  · intro h
    obtain ⟨hresult, hpool⟩ := Prod.mk.inj h
    exact ⟨_, Prod.ext hresult rfl, hpool.symm⟩
  · rintro ⟨pool, hstep, rfl⟩
    rw [hstep]

/-- Adding an interface interns its name and puts the slot at the end. -/
theorem succeeds_addInterface {name : String} {c d : ClassFile} {u : Unit} :
    Succeeds (addInterface name) c u d ↔
      ∃ i pool, Succeeds (Interning.classRef name) c.pool i pool ∧
        d = { c with pool, interfaces := c.interfaces ++ [i] } := by
  unfold addInterface
  simp only [succeeds_bind, succeeds_interning, succeeds_modify]
  constructor
  · rintro ⟨i, _, ⟨pool, hi, rfl⟩, rfl⟩
    exact ⟨i, pool, hi, rfl⟩
  · rintro ⟨i, pool, hi, rfl⟩
    exact ⟨i, _, ⟨pool, hi, rfl⟩, rfl⟩

end ClassFile

namespace Extension

variable {α : Type}

/-- A step on the class file leaves the record as it was. -/
theorem succeeds_emitting {member : String} {step : Extending EmissionError α} {x y : Extension}
    {a : α} :
    Succeeds (emitting member step) x a y ↔
      ∃ file, Succeeds step x.file a file ∧ y = { x with file } := by
  unfold Succeeds emitting
  simp only [ExceptT.run, StateT.run]
  constructor
  · intro h
    rcases hstep : step x.file with ⟨b | b, file⟩
    · rw [hstep] at h
      cases h
    · rw [hstep] at h
      obtain ⟨hresult, hx⟩ := Prod.mk.inj h
      obtain rfl := Except.ok.inj hresult
      exact ⟨file, rfl, hx.symm⟩
  · rintro ⟨file, hstep, rfl⟩
    rw [hstep]

/-! ## Interfaces -/

theorem succeeds_addInterface {name : String} {x y : Extension} {u : Unit} :
    Succeeds (addInterface name) x u y ↔
      ∃ i pool, Succeeds (Interning.classRef name) x.file.pool i pool ∧
        y = { x with
          file := { x.file with pool, interfaces := x.file.interfaces ++ [i] }
          added.interfaces := x.added.interfaces ++ [name] } := by
  unfold addInterface
  simp only [succeeds_bind, succeeds_emitting, ClassFile.succeeds_addInterface, succeeds_modify]
  constructor
  · rintro ⟨_, _, ⟨_, ⟨i, pool, hi, rfl⟩, rfl⟩, rfl⟩
    exact ⟨i, pool, hi, rfl⟩
  · rintro ⟨i, pool, hi, rfl⟩
    exact ⟨(), _, ⟨_, ⟨i, pool, hi, rfl⟩, rfl⟩, rfl⟩

/-- The interfaces of a list are added in order: their names are interned one after the other. -/
theorem addInterfaces_eq_ok {names : List String} {x y : Extension} {u : PUnit}
    (h : Succeeds (names.forM addInterface) x u y) :
    ∃ is pool, Succeeds (names.mapM Interning.classRef) x.file.pool is pool ∧
      y = { x with
        file := { x.file with pool, interfaces := x.file.interfaces ++ is }
        added.interfaces := x.added.interfaces ++ names } := by
  induction names generalizing x with
  | nil =>
    obtain ⟨-, rfl⟩ := succeeds_pure.1 h
    refine ⟨[], x.file.pool, succeeds_pure.2 ⟨rfl, rfl⟩, ?_⟩
    rw [List.append_nil, List.append_nil]
  | cons name names ih =>
    obtain ⟨_, x₁, hname, h⟩ := succeeds_bind.1 h
    obtain ⟨i, pool₁, hi, rfl⟩ := succeeds_addInterface.1 hname
    obtain ⟨is, pool, his, hy⟩ := ih h
    refine ⟨i :: is, pool, succeeds_mapM_cons.2 ⟨i, pool₁, is, hi, his, rfl⟩, ?_⟩
    rw [hy]
    simp only [List.append_assoc, List.singleton_append]

end Extension

/-! ## Members -/

namespace MemberDecl

/-- The declaration is small enough to be written, as those of all synthesized members are. -/
def Small : MemberDecl → Prop
  | field f => f.annotations.length ≤ 255
  | method m => m.Small

/-- The fields among some members, in order. -/
def fieldsOf (ds : List MemberDecl) : List FieldDecl :=
  ds.filterMap fun
    | field f => some f
    | method _ => none

/-- The methods among some members, in order. -/
def methodsOf (ds : List MemberDecl) : List MethodDecl :=
  ds.filterMap fun
    | field _ => none
    | method m => some m

theorem mem_fieldsOf {ds : List MemberDecl} {f : FieldDecl} : f ∈ fieldsOf ds ↔ field f ∈ ds := by
  unfold fieldsOf
  rw [List.mem_filterMap]
  constructor
  · rintro ⟨e, he, h⟩
    cases e with
    | field g => exact Option.some.inj h ▸ he
    | method g => cases h
  · exact fun h => ⟨field f, h, rfl⟩

theorem mem_methodsOf {ds : List MemberDecl} {m : MethodDecl} :
    m ∈ methodsOf ds ↔ method m ∈ ds := by
  unfold methodsOf
  rw [List.mem_filterMap]
  constructor
  · rintro ⟨e, he, h⟩
    cases e with
    | field g => cases h
    | method g => exact Option.some.inj h ▸ he
  · exact fun h => ⟨method m, h, rfl⟩

end MemberDecl

/-- The member was made from the field and fits into a class file. -/
def FieldDecl.MadeInto (f : FieldDecl) (pool : Pool) (m : Member) : Prop :=
  m.Declares pool f.access f.name f.descriptor ∧ m.Fits

/-- The member was made from the method and fits into a class file. -/
def MethodDecl.MadeInto (d : MethodDecl) (pool : Pool) (m : Member) : Prop :=
  m.Declares pool d.access d.name d.descriptor ∧ m.Fits

namespace Extension

open MemberDecl (fieldsOf methodsOf)

/-- A field that is added is new, and what holds of the member made from it holds of the one that is
there at the end. -/
theorem addField_of_interns {f : FieldDecl} {P : Pool → Member → Prop} (hf : Interns f.toMember P)
    {x y : Extension} {u : Unit} (hx : x.file.pool.Built) (h : Succeeds (addField f) x u y) :
    x.file.hasField f.name = false ∧ x.file.pool.Extends y.file.pool ∧
      ∃ m, P y.file.pool m ∧
        y = { x with
          file := { x.file with pool := y.file.pool, fields := x.file.fields ++ [m] }
          added.fields := x.added.fields ++ [f.name] } := by
  unfold addField at h
  obtain ⟨hnew, h⟩ := succeeds_get_unless.1 h
  obtain ⟨m, x₁, hemit, h⟩ := succeeds_bind.1 h
  obtain ⟨file, hstep, rfl⟩ := succeeds_emitting.1 hemit
  obtain ⟨pool, hmember, rfl⟩ := ClassFile.succeeds_interning.1 hstep
  obtain rfl := succeeds_modify.1 h
  obtain ⟨hext, hm⟩ := hf hx hmember
  exact ⟨hnew, hext, m, hm pool .refl, rfl⟩

theorem addField_eq_ok {f : FieldDecl} {x y : Extension} {u : Unit} (hx : x.file.pool.Built)
    (hf : f.annotations.length ≤ 255) (h : Succeeds (addField f) x u y) :
    x.file.hasField f.name = false ∧ x.file.pool.Extends y.file.pool ∧
      ∃ m, f.MadeInto y.file.pool m ∧
        y = { x with
          file := { x.file with pool := y.file.pool, fields := x.file.fields ++ [m] }
          added.fields := x.added.fields ++ [f.name] } :=
  addField_of_interns (FieldDecl.toMember_interns hf) hx h

/-- A method that is added is new, and what holds of the member made from it holds of the one that is
there at the end. -/
theorem addMethod_of_interns {d : MethodDecl} {P : Pool → Member → Prop}
    (hd : ∀ thisClass withFrames, Interns (d.toMember thisClass withFrames) P) {x y : Extension}
    {u : Unit} (hx : x.file.pool.Built) (h : Succeeds (addMethod d) x u y) :
    x.file.hasMethod d.name d.descriptor = false ∧ x.file.pool.Extends y.file.pool ∧
      ∃ m, P y.file.pool m ∧
        y = { x with
          file := { x.file with pool := y.file.pool, methods := x.file.methods ++ [m] }
          added.methods := x.added.methods ++ [d.signature] } := by
  unfold addMethod at h
  obtain ⟨hnew, h⟩ := succeeds_get_unless.1 h
  obtain ⟨m, x₁, hemit, h⟩ := succeeds_bind.1 h
  obtain ⟨file, hstep, rfl⟩ := succeeds_emitting.1 hemit
  obtain ⟨pool, hmember, rfl⟩ := ClassFile.succeeds_interning.1 hstep
  obtain rfl := succeeds_modify.1 h
  obtain ⟨hext, hm⟩ := hd _ _ hx hmember
  exact ⟨hnew, hext, m, hm pool .refl, rfl⟩

theorem addMethod_eq_ok {d : MethodDecl} {x y : Extension} {u : Unit} (hx : x.file.pool.Built)
    (hd : d.Small) (h : Succeeds (addMethod d) x u y) :
    x.file.hasMethod d.name d.descriptor = false ∧ x.file.pool.Extends y.file.pool ∧
      ∃ m, d.MadeInto y.file.pool m ∧
        y = { x with
          file := { x.file with pool := y.file.pool, methods := x.file.methods ++ [m] }
          added.methods := x.added.methods ++ [d.signature] } :=
  addMethod_of_interns (MethodDecl.toMember_interns hd) hx h

/-- The members of a list are added in order, and what the class had before is still there. -/
theorem addMembers_eq_ok {ds : List MemberDecl} {x y : Extension} {u : PUnit}
    (hx : x.file.pool.Built) (hds : ∀ d ∈ ds, d.Small) (h : Succeeds (ds.forM addMember) x u y) :
    x.file.pool.Extends y.file.pool ∧
      ∃ fields methods,
        List.Forall₂ (fun f m => FieldDecl.MadeInto f y.file.pool m) (fieldsOf ds) fields ∧
        List.Forall₂ (fun d m => MethodDecl.MadeInto d y.file.pool m) (methodsOf ds) methods ∧
        y = { x with
          file := { x.file with
            pool := y.file.pool
            fields := x.file.fields ++ fields
            methods := x.file.methods ++ methods }
          added := { x.added with
            fields := x.added.fields ++ (fieldsOf ds).map FieldDecl.name
            methods := x.added.methods ++ (methodsOf ds).map MethodDecl.signature } } := by
  induction ds generalizing x with
  | nil =>
    obtain ⟨-, rfl⟩ := succeeds_pure.1 h
    refine ⟨.refl, [], [], .nil, .nil, ?_⟩
    simp [fieldsOf, methodsOf]
  | cons d ds ih =>
    obtain ⟨_, x₁, hd, htail⟩ := succeeds_bind.1 h
    have hsmall := hds d List.mem_cons_self
    have hrest := fun e he => hds e (List.mem_cons_of_mem _ he)
    cases d with
    | field f =>
      obtain ⟨-, hext₁, m, hm, hx₁⟩ := addField_eq_ok hx hsmall hd
      obtain ⟨hext, fields, methods, hfields, hmethods, hy⟩ := ih (hext₁.built hx) hrest htail
      refine ⟨hext₁.trans hext, m :: fields, methods, .cons ⟨hm.1.extend hext, hm.2⟩ hfields,
        hmethods, ?_⟩
      rw [hy, hx₁]
      simp [fieldsOf, methodsOf]
    | method d =>
      obtain ⟨-, hext₁, m, hm, hx₁⟩ := addMethod_eq_ok hx hsmall hd
      obtain ⟨hext, fields, methods, hfields, hmethods, hy⟩ := ih (hext₁.built hx) hrest htail
      refine ⟨hext₁.trans hext, fields, m :: methods, hfields,
        .cons ⟨hm.1.extend hext, hm.2⟩ hmethods, ?_⟩
      rw [hy, hx₁]
      simp [fieldsOf, methodsOf]

end Extension

end EntityLoom
