import EntityLoom.Proofs.Model.Validated
import EntityLoom.Proofs.Weaving.Distinct
import EntityLoom.Proofs.Weaving.Operations

/-!
# Classes that leave reserved names alone

All names that weaving adds to a class are reserved: they start like `_persistence_`, but for the
constructor that takes an object of the runtime.  `Context.weave_not_refused` says that a class that
has no such member is not refused for having one.

The names of the class are read in its pool.  A name whose slot lies beyond the pool may come to be a
reserved one when the pool grows (`Context.not_unrefused_of_unread`), so the slots must lie within.
-/

namespace EntityLoom

open MemberDecl (fieldsOf methodsOf)
open FieldAccess (Site Routed patchAll patchMember)

/-! ## Steps that refuse no member -/

/-- The fault of adding a member that the class has. -/
def WeaveError.IsDuplicate : WeaveError → Prop
  | duplicateMember _ _ _ => True
  | _ => False

theorem WeaveError.not_isDuplicate_of_ofFormat {α : Type} {y : Except FormatError α} {e : WeaveError}
    (h : ofFormat y = .error e) : ¬e.IsDuplicate := by
  cases y with
  | ok a => cases h
  | error e' =>
    cases h
    exact id

section Steps

variable {σ α β : Type} {x : ExceptT WeaveError (StateM σ) α}

/-- If the step fails, then not for a member that the class has. -/
def Unrefused (x : ExceptT WeaveError (StateM σ) α) : Prop :=
  ∀ s e s', Fails x s e s' → ¬e.IsDuplicate

theorem unrefused_pure (a : α) : Unrefused (pure a : ExceptT WeaveError (StateM σ) α) := by
  intro s e s' h
  cases h

theorem unrefused_ofFormat (y : Except FormatError α) :
    Unrefused (liftM (WeaveError.ofFormat y) : ExceptT WeaveError (StateM σ) α) := by
  intro s e s' h
  exact WeaveError.not_isDuplicate_of_ofFormat (Prod.mk.inj h).1

theorem Unrefused.bind {k : α → ExceptT WeaveError (StateM σ) β} (hx : Unrefused x)
    (hk : ∀ a, Unrefused (k a)) : Unrefused (x >>= k) := by
  intro s e s'' h
  rcases fails_bind.1 h with h | ⟨a, s', -, h⟩
  · exact hx s e s'' h
  · exact hk a s' e s'' h

theorem unrefused_forM {xs : List β} {step : β → ExceptT WeaveError (StateM σ) PUnit}
    (h : ∀ x, Unrefused (step x)) : Unrefused (xs.forM step) := by
  induction xs with
  | nil => exact unrefused_pure _
  | cons x xs ih => exact (h x).bind fun _ => ih

theorem unrefused_mapM {xs : List β} {step : β → ExceptT WeaveError (StateM σ) α}
    (h : ∀ x, Unrefused (step x)) : Unrefused (xs.mapM step) := by
  induction xs with
  | nil =>
    rw [List.mapM_nil]
    exact unrefused_pure _
  | cons x xs ih =>
    rw [List.mapM_cons]
    exact (h x).bind fun _ => ih.bind fun _ => unrefused_pure _

theorem fails_adapt {ε ε' : Type} {f : ε → ε'} {x : ExceptT ε (StateM σ) α} {s s' : σ}
    {e' : ε'} :
    Fails (x.adapt f) s e' s' ↔ ∃ e, Fails x s e s' ∧ f e = e' := by
  have hrun : (x.adapt f).run.run s = ((x.run.run s).1.mapError f, (x.run.run s).2) := rfl
  unfold Fails
  rw [hrun]
  rcases x.run.run s with ⟨e | a, s₁⟩
  · constructor
    · intro h
      cases h
      exact ⟨e, rfl, rfl⟩
    · rintro ⟨e, h, rfl⟩
      cases h
      rfl
  · constructor
    · intro h
      cases h
    · rintro ⟨e, h, -⟩
      cases h

theorem unrefused_get : Unrefused (get : ExceptT WeaveError (StateM σ) σ) :=
  fun _ _ _ h => absurd h not_fails_get

theorem unrefused_modify (g : σ → σ) :
    Unrefused (modify g : ExceptT WeaveError (StateM σ) PUnit) :=
  fun _ _ _ h => absurd h not_fails_modify

end Steps

/-- What is emitted for a member may fail, but is not refused. -/
theorem Extension.unrefused_emitting {α : Type} (member : String) (step : Extending EmissionError α) :
    Unrefused (Extension.emitting member step) := by
  intro x e y h
  unfold Fails Extension.emitting at h
  simp only [ExceptT.run, StateT.run] at h
  rcases hrun : step x.file with ⟨e' | a, file⟩
  · rw [hrun] at h
    obtain ⟨he, -⟩ := Prod.mk.inj h
    cases he
    exact id
  · rw [hrun] at h
    cases h

/-- Extending a header refuses no member. -/
theorem Header.unrefused_apply (p : Plan) (existing : List String) :
    Unrefused (Header.apply p existing) := by
  unfold Header.apply
  refine (unrefused_forM fun name => ?_).bind fun _ => unrefused_get.bind fun x =>
    (unrefused_ofFormat _).bind fun signature => ?_
  · exact (Extension.unrefused_emitting name _).bind fun _ => unrefused_modify _
  · cases signature with
    | none => exact unrefused_pure _
    | some text => exact Extension.unrefused_emitting _ _

/-- Routing field accesses refuses no member. -/
theorem FieldAccess.unrefused_redirectAll (p : Plan) : Unrefused (FieldAccess.redirectAll p) := by
  unfold FieldAccess.redirectAll
  split
  · exact unrefused_pure _
  · refine unrefused_get.bind fun c => (unrefused_ofFormat _).bind fun found =>
      (unrefused_mapM fun s => ?_).bind fun slots => (unrefused_modify _).bind fun _ =>
        unrefused_pure _
    intro c e d h
    obtain ⟨e', -, rfl⟩ := fails_adapt.1 h
    exact id

/-- Calls that are put in leave the names of the methods as they are. -/
theorem FieldAccess.signatureSlots_patchAll (calls : List (Site × UInt16)) (methods : List Member) :
    (patchAll calls methods).map Member.signatureSlots = methods.map Member.signatureSlots := by
  refine List.ext_getElem? fun i => ?_
  rw [List.getElem?_map, List.getElem?_map, FieldAccess.getElem?_patchAll, Option.map_map]
  rfl

/-! ## Members that a class lacks -/

/-- Whether the class has a member that is told apart by this. -/
def ClassFile.has (c : ClassFile) : MemberKey → Bool
  | .field name => c.hasField name
  | .method name descriptor => c.hasMethod name descriptor

/-- The class has no such member, however its pool grows. -/
def ClassFile.Lacks (c : ClassFile) (k : MemberKey) : Prop :=
  ∀ q, c.pool.Extends q → ({ c with pool := q } : ClassFile).has k = false

namespace ClassFile

variable {c d : ClassFile} {k : MemberKey}

/-- What the class lacks stays lacking while the names of its members stay as they are. -/
theorem Lacks.of_kept (h : c.Lacks k) (hext : c.pool.Extends d.pool) (hfields : d.fields = c.fields)
    (hmethods : d.methods.map Member.signatureSlots = c.methods.map Member.signatureSlots) :
    d.Lacks k := by
  intro q hq
  have hlacks := h q (hext.trans hq)
  cases k with
  | field name =>
    unfold has hasField at hlacks ⊢
    dsimp only at hlacks ⊢
    rw [hfields]
    exact hlacks
  | method name descriptor =>
    have hany : ∀ ms : List Member,
        (ms.any fun m => q.holdsText m.name name && q.holdsText m.descriptor descriptor) =
          (ms.map Member.signatureSlots).any fun slots =>
            q.holdsText (slots.getD 0 0) name && q.holdsText (slots.getD 1 0) descriptor := by
      intro ms
      rw [List.any_map]
      rfl
    unfold has hasMethod at hlacks ⊢
    dsimp only at hlacks ⊢
    rw [hany] at hlacks ⊢
    rw [hmethods]
    exact hlacks

end ClassFile

namespace Extension

variable {x y : Extension} {d : MemberDecl} {k : MemberKey} {e : WeaveError}

/-- A member that the class lacks is not refused. -/
theorem addMember_not_refused (hlacks : x.file.Lacks d.key) (h : Fails (addMember d) x e y) :
    ¬e.IsDuplicate := by
  have hnew : x.file.has d.key = false := hlacks x.file.pool .refl
  cases d with
  | field f =>
    rcases addField_fails h with ⟨hhas, -⟩ | ⟨-, h⟩
    · exact absurd hhas (Bool.eq_false_iff.1 hnew)
    · exact unrefused_emitting _ _ x e y h
  | method m =>
    rcases addMethod_fails h with ⟨hhas, -⟩ | ⟨-, h⟩
    · exact absurd hhas (Bool.eq_false_iff.1 hnew)
    · exact unrefused_emitting _ _ x e y h

theorem addMember_extends {u : Unit} (hx : x.file.pool.Built) (h : Succeeds (addMember d) x u y) :
    x.file.pool.Extends y.file.pool := by
  cases d with
  | field f => exact (addField_of_interns f.toMember_declares hx h).2.1
  | method d => exact (addMethod_of_interns d.toMember_declares hx h).2.1

/-- A member that is added is all that the class no longer lacks. -/
theorem addMember_lacks {u : Unit} (hx : x.file.pool.Built) (h : Succeeds (addMember d) x u y)
    (hlacks : x.file.Lacks k) (hne : k ≠ d.key) : y.file.Lacks k := by
  intro q hq
  cases d with
  | field f =>
    obtain ⟨-, hext, m, hm, hy⟩ := addField_of_interns f.toMember_declares hx h
    have hold := hlacks q (hext.trans hq)
    generalize y.file.pool = r at hext hq hm hy
    subst hy
    cases k with
    | method name descriptor => exact hold
    | field name =>
      have hlast : q.holdsText m.name name = false := by
        rw [Bool.eq_false_iff]
        intro hholds
        have hsame := (hq.utf8At hm.name).symm.trans (Pool.holdsText_iff.1 hholds)
        exact hne (congrArg _ (Except.ok.inj hsame).symm)
      unfold ClassFile.has ClassFile.hasField at hold ⊢
      dsimp only at hold ⊢
      rw [List.any_append, hold]
      simp [hlast]
  | method d =>
    obtain ⟨-, hext, m, hm, hy⟩ := addMethod_of_interns d.toMember_declares hx h
    have hold := hlacks q (hext.trans hq)
    generalize y.file.pool = r at hext hq hm hy
    subst hy
    cases k with
    | field name => exact hold
    | method name descriptor =>
      have hlast : (q.holdsText m.name name && q.holdsText m.descriptor descriptor) = false := by
        rw [Bool.eq_false_iff]
        intro hholds
        obtain ⟨hname, hdescriptor⟩ := Bool.and_eq_true_iff.1 hholds
        have hsame := (hq.utf8At hm.name).symm.trans (Pool.holdsText_iff.1 hname)
        have hsame' := (hq.utf8At hm.descriptor).symm.trans (Pool.holdsText_iff.1 hdescriptor)
        refine hne ?_
        rw [MemberDecl.key, Except.ok.inj hsame, Except.ok.inj hsame']
      unfold ClassFile.has ClassFile.hasMethod at hold ⊢
      dsimp only at hold ⊢
      rw [List.any_append, hold]
      simp [hlast]

/-- Members that are told apart and that the class lacks are not refused. -/
theorem addMembers_not_refused {ds : List MemberDecl} (hx : x.file.pool.Built)
    (hnodup : (ds.map MemberDecl.key).Nodup) (hlacks : ∀ d ∈ ds, x.file.Lacks d.key)
    (h : Fails (ds.forM addMember) x e y) : ¬e.IsDuplicate := by
  induction ds generalizing x with
  | nil => exact unrefused_pure _ _ _ _ h
  | cons d ds ih =>
    obtain ⟨hd, hnodup⟩ := List.nodup_cons.1 hnodup
    rcases fails_bind.1 h with h | ⟨u, x₁, hx₁, h⟩
    · exact addMember_not_refused (hlacks d List.mem_cons_self) h
    · refine ih (addMember_extends hx hx₁ |>.built hx) hnodup (fun d' hd' => ?_) h
      refine addMember_lacks hx hx₁ (hlacks d' (List.mem_cons_of_mem _ hd')) ?_
      rintro hsame
      exact hd (hsame ▸ List.mem_map_of_mem hd')

end Extension

/-! ## Reserved names -/

/-- The names that weaving adds to a class are reserved. -/
def MemberKey.Reserved (k : MemberKey) : Prop :=
  k.name.startsWith "_persistence_" = true ∨ k = .method Names.constructor Names.tokenConstructor

namespace ClassFile

variable {c : ClassFile} {k : MemberKey}

/-- No name that can be read is reserved. -/
structure Unreserved (c : ClassFile) : Prop where
  names : ∀ n ∈ c.fields ++ c.methods,
    ¬∃ name, c.pool.utf8At n.name = .ok name ∧ name.startsWith "_persistence_" = true
  constructors : c.hasMethod Names.constructor Names.tokenConstructor = false

/-- The names of all members, and the descriptors of all constructors, lie within the pool. -/
structure Placed (c : ClassFile) : Prop where
  names : ∀ n ∈ c.fields ++ c.methods, n.name.toNat < c.pool.count
  constructors : ∀ n ∈ c.methods, c.pool.holdsText n.name Names.constructor = true →
    n.descriptor.toNat < c.pool.count

/-- A class without reserved names lacks every member of such a name. -/
theorem Unreserved.lacks (h : c.Unreserved) (hplaced : c.Placed) (hk : k.Reserved) : c.Lacks k := by
  intro q hq
  have hread : ∀ n ∈ c.fields ++ c.methods, ∀ name, q.holdsText n.name name = true →
      c.pool.utf8At n.name = .ok name ∧ ¬name.startsWith "_persistence_" = true := by
    intro n hn name hname
    rw [Pool.holdsText_iff, Pool.utf8At_congr (hq.get?_of_lt (hplaced.names n hn))] at hname
    exact ⟨hname, fun hstart => h.names n hn ⟨name, hname, hstart⟩⟩
  rw [Bool.eq_false_iff]
  intro hhas
  cases k with
  | field name =>
    obtain ⟨f, hf, hname⟩ := List.any_eq_true.1 hhas
    obtain ⟨-, hstart⟩ := hread f (List.mem_append_left _ hf) name hname
    rcases hk with hk | hk
    · exact hstart hk
    · cases hk
  | method name descriptor =>
    obtain ⟨n, hn, hboth⟩ := List.any_eq_true.1 hhas
    obtain ⟨hname, hdescriptor⟩ := Bool.and_eq_true_iff.1 hboth
    obtain ⟨hname, hstart⟩ := hread n (List.mem_append_right _ hn) name hname
    rcases hk with hk | hk
    · exact hstart hk
    obtain ⟨rfl, rfl⟩ := MemberKey.method.inj hk
    have hname := Pool.holdsText_iff.2 hname
    dsimp only at hdescriptor
    rw [Pool.holdsText_congr (hq.get?_of_lt (hplaced.constructors n hn hname))] at hdescriptor
    exact Bool.eq_false_iff.1 h.constructors
      (List.any_eq_true.2 ⟨n, hn, Bool.and_eq_true_iff.2 ⟨hname, hdescriptor⟩⟩)

end ClassFile

namespace Plan

variable {p : Plan} {a : MappedAttribute} {d : MemberDecl} {existing : List String} {c : ClassFile}
  {e : WeaveError}

theorem reserved_of_mem_fixedKeys : ∀ k ∈ fixedKeys, k.Reserved := by
  unfold MemberKey.Reserved
  decide +kernel

theorem reserved_of_mem_attributeKeys : ∀ k ∈ attributeKeys a, k.Reserved := by
  have hbegins : ∀ s t r : String, s.toList <+: (s ++ t ++ r).toList := by
    intro s t r
    rw [String.append_assoc, String.toList_append]
    exact List.prefix_append _ _
  have hstarts : ∀ x : AttributeMethod, "_persistence_".toList <+: x.start.toList := by
    intro x
    cases x <;> decide +kernel
  intro k hk
  refine .inl (String.startsWith_string_iff.2 ?_)
  rcases List.mem_cons.1 hk with rfl | hk
  · exact hbegins _ _ _
  · obtain ⟨x, -, rfl⟩ := List.mem_map.1 hk
    exact (hstarts x).trans (hbegins _ _ _)

/-- All names that weaving adds to a class are reserved. -/
theorem reserved_of_mem_members (hd : d ∈ p.members) : d.key.Reserved := by
  rcases List.mem_append.1 (p.potentialMembers_perm.mem_iff.1 (p.members_sublist.subset hd)) with
    hfixed | hd
  · exact reserved_of_mem_fixedKeys _ (p.fixedMembers_sublist.subset (List.mem_map_of_mem hfixed))
  · obtain ⟨a, -, hd⟩ := List.mem_flatMap.1 hd
    have hkey := (p.attributeMembers_sublist a).subset (List.mem_map_of_mem hd)
    exact reserved_of_mem_attributeKeys _ hkey

/-- A plan is carried out unless it fails for another cause than a member that the class has. -/
theorem extend_not_refused (hc : c.pool.Built) (hnew : Names.woven ∉ existing)
    (hnodup : (p.members.map MemberDecl.key).Nodup) (hlacks : ∀ d ∈ p.members, c.Lacks d.key)
    (h : p.extend existing c = .error e) : ¬e.IsDuplicate := by
  unfold extend at h
  rcases hredirect : (FieldAccess.redirectAll p).run.run c with ⟨result, c₁⟩
  rw [hredirect] at h
  rcases bind_eq_error.1 h with hresult | ⟨accesses, hresult, h⟩
  · rw [show result = .error e from hresult] at hredirect
    exact FieldAccess.unrefused_redirectAll p c e c₁ hredirect
  rw [show result = .ok accesses from hresult] at hredirect
  rcases bind_eq_error.1 h with h | ⟨x, hx, h⟩
  · exact WeaveError.not_isDuplicate_of_ofFormat h
  rcases hsteps : (do
    Header.apply p existing
    p.members.forM Extension.addMember : Extension.Step Unit).run.run x with ⟨done, y⟩
  rw [hsteps] at h
  rcases bind_eq_error.1 h with hdone | ⟨u, -, h⟩
  swap
  · cases h
  rw [show done = .error e from hdone] at hsteps
  rcases fails_bind.1 hsteps with happly | ⟨_, z, happly, hmembers⟩
  · exact Header.unrefused_apply p existing x e y happly
  -- What comes before the members changes neither the fields nor the names of the methods.
  obtain ⟨calls, hrouted, -⟩ := FieldAccess.redirectAll_eq_ok hc hredirect
  obtain ⟨rfl, -⟩ := ofFile_eq_ok (WeaveError.ofFormat_eq_ok.1 hx)
  have hbuilt := hrouted.pool.built hc
  obtain ⟨q, is, attributes, -, hnaming, hgrown, -, -, hz⟩ := Header.apply_eq_ok hbuilt hnew happly
  have hheader := hnaming.trans hgrown
  refine Extension.addMembers_not_refused (hheader.built hbuilt) hnodup (fun d hd => ?_) hmembers
  refine (hlacks d hd).of_kept (hrouted.pool.trans hheader) ?_ ?_
  · rw [hz, hrouted.file]
  · rw [hz, hrouted.file]
    exact FieldAccess.signatureSlots_patchAll calls c.methods

end Plan

/-! ## Weaving -/

theorem Plan.make_not_refused {mapped : MappedClass} {m : Model} {context : Context}
    {fileSuper : Option String} {existing : List String} {e : WeaveError}
    (h : Plan.make mapped m context fileSuper existing = .error e) : ¬e.IsDuplicate := by
  unfold Plan.make at h
  cases hs : mapped.superclass with
  | none =>
    rw [hs] at h
    cases h
  | some s =>
    rw [hs] at h
    dsimp only at h
    split at h
    · cases h
    · cases h
      exact id

namespace Context

variable {context : Context} {classes : List MappedClass} {m : Model} {data : Bytes}
  {file : ClassFile} {name : String} {mapped : MappedClass} {e : WeaveError}

/-- Weaving the data of a mapped class fails as extending the class does. -/
theorem weave_eq_error (hfile : ClassFile.parse data = .ok file) (hname : file.name = .ok name)
    (hmapped : m.get? name = some mapped) :
    context.weave m data = .error e ↔ context.extendFile m file mapped = .error e := by
  have hextend : context.extend m data = context.extendFile m file mapped := by
    unfold extend
    simp only [hfile, WeaveError.ofFormat, bind, Except.bind, hname, hmapped]
  unfold weave
  rw [map_eq_error, hextend]

/-- A class is extended as its mapping says unless that fails for another cause than a member that it
has, if it lacks all members that can be added and they are told apart. -/
theorem extendFile_not_refused (hfile : file.pool.Built)
    (hnodup : ∀ p : Plan, p.mapped = mapped → (p.members.map MemberDecl.key).Nodup)
    (hlacks : ∀ p : Plan, ∀ d ∈ p.members, file.Lacks d.key)
    (h : context.extendFile m file mapped = .error e) : ¬e.IsDuplicate := by
  unfold extendFile at h
  rcases bind_eq_error.1 h with h | ⟨existing, -, h⟩
  · exact WeaveError.not_isDuplicate_of_ofFormat h
  split at h
  · cases h
  next hunwoven =>
  rcases bind_eq_error.1 h with h | ⟨superName, -, h⟩
  · exact WeaveError.not_isDuplicate_of_ofFormat h
  rcases bind_eq_error.1 h with h | ⟨p, hp, h⟩
  · exact Plan.make_not_refused h
  obtain ⟨-, rfl⟩ := Plan.make_eq_ok hp
  exact Plan.extend_not_refused hfile hunwoven (hnodup _ rfl) (hlacks _) (map_eq_error.1 h)

/-- A class that leaves reserved names alone, and whose own attributes have another type than holders,
is not refused for a member that it has.  No two members that can be added to it are alike, whatever
its attributes are called. -/
theorem weave_not_refused (context : Context) (hm : Model.ofClasses classes = .ok m)
    (hfile : ClassFile.parse data = .ok file) (hname : file.name = .ok name)
    (hmapped : m.get? name = some mapped)
    (htypes : ∀ a ∈ mapped.ownAttributes, a.type ≠ .object Names.holderInterface)
    (hunreserved : file.Unreserved) (hplaced : file.Placed) :
    (∀ className member descriptor,
      context.weave m data ≠ .error (.duplicateMember className member descriptor)) ∧
    ∀ p : Plan, p.mapped = mapped → p.members.Sublist p.potentialMembers ∧
      (p.potentialMembers.map MemberDecl.key).Nodup := by
  have hvalid := Model.validated_of_ofClasses hm
  have hdistinct : ∀ p : Plan, p.mapped = mapped →
      (p.potentialMembers.map MemberDecl.key).Nodup := by
    rintro p rfl
    have hnames := hvalid.attributeNames _ (Model.mem_of_get? hmapped).1
    exact Plan.nodup_keys (hnames.sublist (List.filter_sublist.map _)) htypes
  obtain ⟨n, hread⟩ := ClassFile.readUpTo_of_parse hfile
  refine ⟨fun className member descriptor h => ?_,
    fun p hp => ⟨p.members_sublist, hdistinct p hp⟩⟩
  refine extendFile_not_refused hread.built (fun p hp => ?_) (fun p d hd => ?_)
    ((weave_eq_error hfile hname hmapped).1 h) trivial
  · exact (hdistinct p hp).sublist (p.members_sublist.map _)
  · exact hunreserved.lacks hplaced (Plan.reserved_of_mem_members hd)

end Context

/-! ## Samples -/

namespace Sample

/-- A lazy attribute `x`, and one that is called like its holder. -/
def heldAttributes : List MappedAttribute :=
  [ { name := "x", type := .object "B", valueHolders := true },
    { name := "x_vh", type := .object "B", valueHolders := true } ]

def held : MappedClass :=
  { name := "A", superclass := some "B", internal := true, valueHolders := true
    attributes := heldAttributes }

def heldClasses : List MappedClass := [held, { name := "B", internal := true }]

/-- A mapped class, and a class file of it with a field whose name lies beyond the pool. -/
def unread : MappedClass := { name := "A", internal := true }

def unreadFile : ClassFile := { bareFile unread with fields := [⟨0, 13, 1, []⟩] }

end Sample

namespace ClassFile

instance (c : ClassFile) : Decidable c.Unreserved :=
  decidable_of_iff (_ ∧ _) ⟨fun h => ⟨h.1, h.2⟩, fun h => ⟨h.names, h.constructors⟩⟩

instance (c : ClassFile) : Decidable c.Placed :=
  decidable_of_iff (_ ∧ _) ⟨fun h => ⟨h.1, h.2⟩, fun h => ⟨h.names, h.constructors⟩⟩

end ClassFile

namespace Context

/-- Two members of one name are added, the getter of the holder of `x` and the getter of `x_vh`. -/
theorem weave_not_refused_sample :
    ∃ m file, Model.ofClasses Sample.heldClasses = .ok m ∧ ClassFile.parse Sample.data = .ok file ∧
      file.Unreserved ∧ file.Placed ∧ Names.holderGetter "x" = Names.fieldGetter "x_vh" ∧
      (∀ className member descriptor,
        default.weave m Sample.data ≠ .error (.duplicateMember className member descriptor)) ∧
      ∀ p : Plan, p.mapped = Sample.held → p.members.Sublist p.potentialMembers ∧
        (p.potentialMembers.map MemberDecl.key).Nodup := by
  have hmodel : ∃ m, Model.ofClasses Sample.heldClasses = .ok m ∧
      m.get? "A" = some Sample.held := by
    decide +kernel
  have hparse : ∃ file, ClassFile.parse Sample.data = .ok file ∧
      (∃ name, file.name = .ok name ∧ name = "A") ∧ file.Unreserved ∧ file.Placed := by
    decide +kernel
  obtain ⟨m, hm, hmapped⟩ := hmodel
  obtain ⟨file, hfile, ⟨_, hname, rfl⟩, hunreserved, hplaced⟩ := hparse
  obtain ⟨hweave, hmembers⟩ := weave_not_refused default hm hfile hname hmapped (by decide)
    hunreserved hplaced
  exact ⟨m, file, hm, hfile, hunreserved, hplaced, by decide, hweave, hmembers⟩

/-- A field whose name cannot be read may come to bear a reserved name while members are added. -/
theorem not_unrefused_of_unread :
    ¬∀ (classes : List MappedClass) (m : Model) (context : Context) (data : Bytes) (file : ClassFile)
        (name : String) (mapped : MappedClass),
      Model.ofClasses classes = .ok m → ClassFile.parse data = .ok file → file.name = .ok name →
      m.get? name = some mapped →
      (∀ a ∈ mapped.ownAttributes, a.type ≠ .object Names.holderInterface) → file.Unreserved →
      ∀ className member descriptor,
        context.weave m data ≠ .error (.duplicateMember className member descriptor) := by
  intro hclaim
  have hmodel : ∃ m, Model.ofClasses [Sample.unread] = .ok m ∧ m.get? "A" = some Sample.unread ∧
      ∃ e, default.weave m Sample.unreadFile.toBytes = .error e ∧
        e = .duplicateMember "A" "_persistence_primaryKey" "Ljava/lang/Object;" := by
    decide +kernel
  have hparse : ∃ file, ClassFile.parse Sample.unreadFile.toBytes = .ok file ∧
      (∃ name, file.name = .ok name ∧ name = "A") ∧ file.Unreserved := by
    decide +kernel
  obtain ⟨m, hm, hmapped, _, hweave, rfl⟩ := hmodel
  obtain ⟨file, hfile, ⟨_, hname, rfl⟩, hunreserved⟩ := hparse
  exact hclaim _ m default _ file _ _ hm hfile hname hmapped (by decide) hunreserved _ _ _ hweave

end Context

end EntityLoom
