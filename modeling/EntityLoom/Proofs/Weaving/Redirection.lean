import EntityLoom.Proofs.Weaving.Extension
import EntityLoom.Proofs.Weaving.Patches

/-!
# Routing field accesses through accessors

`FieldAccess.redirectAll_eq_ok` says what routing leaves of a class: one call for each site and no
other, in place of the instruction there, each naming the accessor of its field, and a pool that was
extended by the names of the accessors.
-/

namespace EntityLoom.FieldAccess

variable {p : Plan} {c d : ClassFile}

/-! ## Naming the accessors -/

theorem succeeds_adapt {ε ε' σ α : Type} {f : ε → ε'} {x : ExceptT ε (StateM σ) α} {s s' : σ}
    {a : α} : Succeeds (x.adapt f) s a s' ↔ Succeeds x s a s' := by
  have hrun : (x.adapt f).run.run s = ((x.run.run s).1.mapError f, (x.run.run s).2) := rfl
  unfold Succeeds
  rw [hrun]
  rcases x.run.run s with ⟨e | b, s₁⟩
  · constructor <;> intro h <;> cases h
  · constructor <;> intro h <;> cases h <;> rfl

/-- The slot of the pool holds a reference to the accessor that a site is to call. -/
def NamesAccessor (p : Plan) (pool : Pool) (s : Site) (slot : UInt16) : Prop :=
  (∃ owner nameAndType, pool.get? slot = some (.methodRef owner nameAndType)) ∧
    pool.memberRefAt slot = .ok (p.className, s.accessor, s.accessorDescriptor)

/-- The accessors that some sites of a class are to call are interned in order. -/
def internAccessors (owner : String) (found : List Site) : Interning (List UInt16) :=
  found.mapM fun s => Interning.methodRef owner s.accessor s.accessorDescriptor false

theorem internAccessors_interns (found : List Site) :
    Interning.Interns (internAccessors p.className found) fun pool slots =>
      List.Forall₂ (NamesAccessor p pool) found slots := by
  have hnames : ∀ s : Site, Interning.Interns
      (Interning.methodRef p.className s.accessor s.accessorDescriptor false)
      fun pool slot => NamesAccessor p pool s slot :=
    fun s => Interning.methodRef_interns p.className s.accessor s.accessorDescriptor
  exact Interning.Interns.mapM hnames found

theorem succeeds_internAccessor {s : Site} {slot : UInt16} :
    Succeeds (internAccessor p s) c slot d ↔
      ∃ pool, Succeeds (Interning.methodRef p.className s.accessor s.accessorDescriptor false) c.pool
        slot pool ∧ d = { c with pool } := by
  unfold internAccessor
  rw [succeeds_adapt, ClassFile.succeeds_interning]

/-- Naming the accessors of all sites changes the pool alone. -/
theorem internAccessors_eq_ok {found : List Site} {slots : List UInt16}
    (h : Succeeds (found.mapM (internAccessor p)) c slots d) :
    ∃ pool, Succeeds (internAccessors p.className found) c.pool slots pool ∧ d = { c with pool } := by
  induction found generalizing c slots with
  | nil =>
    obtain ⟨rfl, rfl⟩ := succeeds_pure.1 h
    exact ⟨c.pool, succeeds_pure.2 ⟨rfl, rfl⟩, rfl⟩
  | cons s found ih =>
    obtain ⟨slot, c₁, rest, hslot, hrest, rfl⟩ := succeeds_mapM_cons.1 h
    obtain ⟨pool₁, hinterned, rfl⟩ := succeeds_internAccessor.1 hslot
    obtain ⟨pool, hothers, rfl⟩ := ih hrest
    exact ⟨pool, succeeds_mapM_cons.2 ⟨slot, pool₁, rest, hinterned, hothers, rfl⟩, rfl⟩

/-! ## All calls -/

/-- What routing leaves of a class: the calls, and the class with them put in. -/
structure Routed (p : Plan) (c : ClassFile) (calls : List (Site × UInt16)) (d : ClassFile) :
    Prop where
  exact : ∀ s, (∃ slot, (s, slot) ∈ calls) ↔ IsSite p c s
  /-- The descriptor of every method with an intercepted instruction can be read. -/
  described : ∀ {i j pc : Nat} {m : Member} {name field descriptor : String} {code : Bytes}
    {op : UInt8} {write : Bool}, c.methods[i]? = some m → Searched c m name j code →
    (pc, op) ∈ (Walk.ofCode code).visited → Intercepted p c.pool code pc op field descriptor write →
    ∃ methodDescriptor, c.pool.utf8At m.descriptor = .ok methodDescriptor
  ordered : calls.Pairwise fun x y => Before x.1 y.1
  names : ∀ x ∈ calls, NamesAccessor p d.pool x.1 x.2
  pool : c.pool.Extends d.pool
  interned : Succeeds (internAccessors p.className (calls.map Prod.fst)) c.pool (calls.map Prod.snd)
    d.pool
  file : d = { c with pool := d.pool, methods := patchAll calls c.methods }

/-- The code attribute of a searched method holds its code behind eight bytes. -/
theorem Searched.info_eq {m : Member} {name : String} {j : Nat} {code : Bytes}
    (h : Searched c m name j code) :
    ∃ a, m.attributes[j]? = some a ∧ Walk.readCode.onData a.info = .ok code := by
  have hread := h.read
  cases ha : m.attributes[j]? with
  | none =>
    rw [ha] at hread
    cases hread
  | some a =>
    rw [ha] at hread
    exact ⟨a, rfl, hread⟩

/-- A site lies within its code. -/
theorem SiteIn.within {m : Member} {s : Site} {name methodDescriptor : String} {code : Bytes}
    {op : UInt8} (h : SiteIn p c m s name methodDescriptor code op) :
    s.access.pc + 3 ≤ code.length := by
  have hinside := (Walk.visited_inside h.visited).2.2 3 (shape_of_fieldWrite? h.intercepted.opcode)
  omega

/-- The sites in an attribute lie within its content. -/
theorem Routed.within {calls : List (Site × UInt16)} (h : Routed p c calls d) {i j : Nat}
    {m : Member} {a : Attribute} (hm : c.methods[i]? = some m) (ha : m.attributes[j]? = some a) :
    Within i j calls a.info := by
  rintro ⟨s, slot⟩ hmem ⟨rfl, rfl⟩
  obtain ⟨m', hm', name, methodDescriptor, code, op, hin⟩ := (h.exact s).1 ⟨slot, hmem⟩
  obtain rfl := Option.some.inj (hm.symm.trans hm')
  obtain ⟨a', ha', hread⟩ := hin.searched.info_eq
  obtain rfl := Option.some.inj (ha.symm.trans ha')
  obtain ⟨front, back, hfront, hinfo, -⟩ := Walk.readCode_eq_ok hread
  have hwithin := hin.within
  have hplaced := hin.placed
  rw [hinfo, List.length_append, List.length_append, hfront]
  dsimp only
  omega

/-- A plan that intercepts no attribute intercepts no instruction. -/
theorem not_intercepted_of_all (h : p.ownAttributes.all (!p.intercepts ·) = true) {pool : Pool}
    {code : Bytes} {pc : Nat} {op : UInt8} {field descriptor : String} {write : Bool} :
    ¬Intercepted p pool code pc op field descriptor write := by
  intro hint
  have hnone : p.ownAttributes.filter p.intercepts = [] := by
    rw [List.filter_eq_nil_iff]
    intro a ha
    simpa using List.all_eq_true.1 h a ha
  have hmapped := hint.mapped
  unfold interceptedDescriptor? at hmapped
  rw [hnone] at hmapped
  cases hmapped

/-- Routing puts a call of the accessor at each site and reports the sites in order. -/
theorem redirectAll_eq_ok {accesses : List FieldAccess} (hc : c.pool.Built)
    (h : Succeeds (redirectAll p) c accesses d) :
    ∃ calls, Routed p c calls d ∧ accesses = calls.map fun x => x.1.access := by
  unfold redirectAll at h
  split at h
  · next hnone =>
    obtain ⟨rfl, rfl⟩ := succeeds_pure.1 h
    refine ⟨[], ⟨fun s => ?_, fun _ _ _ hint => absurd hint (not_intercepted_of_all hnone), .nil,
      by simp, .refl, succeeds_pure.2 ⟨rfl, rfl⟩, rfl⟩, rfl⟩
    constructor
    · rintro ⟨_, hs⟩
      cases hs
    · rintro ⟨m, -, name, methodDescriptor, code, op, hin⟩
      exact absurd hin.intercepted (not_intercepted_of_all hnone)
  · obtain ⟨c', c₁, hget, h⟩ := succeeds_bind.1 h
    obtain ⟨rfl, rfl⟩ := succeeds_get.1 hget
    obtain ⟨found, c₁, hfound, h⟩ := succeeds_bind.1 h
    obtain ⟨hsites, rfl⟩ := succeeds_lift.1 hfound
    have hsites := WeaveError.ofFormat_eq_ok.1 hsites
    obtain ⟨slots, c₂, hslots, h⟩ := succeeds_bind.1 h
    obtain ⟨_, c₃, hpatch, h⟩ := succeeds_bind.1 h
    obtain rfl := succeeds_modify.1 hpatch
    obtain ⟨rfl, rfl⟩ := succeeds_pure.1 h
    obtain ⟨pool, hinterned, rfl⟩ := internAccessors_eq_ok hslots
    obtain ⟨hext, hnames⟩ := internAccessors_interns found hc hinterned
    have hnamed := hnames pool .refl
    have hfst := List.map_fst_zip (Nat.le_of_eq hnamed.length_eq)
    have hsnd := List.map_snd_zip (Nat.le_of_eq hnamed.length_eq.symm)
    refine ⟨found.zip slots, ⟨fun s => ?_, described_of_sites hsites, ?_,
      fun _ hx => List.forall₂_zip hnamed hx, hext, ?_, rfl⟩, ?_⟩
    · rw [← mem_sites_iff hsites]
      constructor
      · rintro ⟨slot, hmem⟩
        exact (List.of_mem_zip hmem).1
      · intro hs
        rw [← hfst] at hs
        obtain ⟨x, hx, rfl⟩ := List.mem_map.1 hs
        exact ⟨x.2, hx⟩
    · have hpairwise := sites_pairwise hsites
      rw [← hfst] at hpairwise
      exact List.pairwise_map.1 hpairwise
    · rw [hfst, hsnd]
      exact hinterned
    · rw [← hfst, List.map_map]
      rw [hfst]
      rfl

end EntityLoom.FieldAccess
