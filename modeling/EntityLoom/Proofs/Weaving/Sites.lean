import EntityLoom.Proofs.ClassFile.Readers
import EntityLoom.Proofs.Code.Walk
import EntityLoom.Proofs.Pool.Growth
import EntityLoom.Weaving.FieldAccess

/-!
# The sites of intercepted field accesses

`FieldAccess.IsSite` says in full what a site of a class is: an instruction that the walk over a
method visits, which reads or writes a field that the plan intercepts.  Where the search for sites
succeeds it finds these and no others (`FieldAccess.mem_sites_iff`), in the order of the methods and
of their code, and no two of them overlap (`FieldAccess.sites_pairwise`).
-/

namespace EntityLoom

/-! ## The code array of a method -/

namespace Walk

theorem bytes_eq_ok {n offset : Nat} {data bs : Bytes} {e : Cursor}
    (h : (Reader.bytes n).run ⟨offset, data⟩ = .ok (bs, e)) :
    bs.length = n ∧ data = bs ++ e.rest := by
  unfold Reader.bytes at h
  simp only [StateT.run, List.splitAt_eq] at h
  split at h
  · next hlen =>
    obtain ⟨rfl, rfl⟩ := Prod.mk.inj (Except.ok.inj h)
    exact ⟨hlen, (List.take_append_drop n data).symm⟩
  · cases h

/-- A code attribute is eight bytes, the code array, and what follows it.  A code array of the same
length in its place is read instead. -/
theorem readCode_eq_ok {info code : Bytes} (h : readCode.onData info = .ok code) :
    ∃ front back, front.length = codeStart ∧ info = front ++ (code ++ back) ∧
      ∀ code' : Bytes, code'.length = code.length →
        readCode.onData (front ++ (code' ++ back)) = .ok code' := by
  match info, h with
  | b₇ :: b₆ :: b₅ :: b₄ :: b₃ :: b₂ :: b₁ :: b₀ :: rest, h =>
    have hread : ∀ rest' : Bytes, readCode.onData (b₇ :: b₆ :: b₅ :: b₄ :: b₃ :: b₂ :: b₁ :: b₀ ::
        rest') = (do return (← (Reader.bytes (Bytes.word32 b₃ b₂ b₁ b₀).toNat).run ⟨8, rest'⟩).1) :=
      fun _ => rfl
    rw [hread] at h
    obtain ⟨⟨code₀, e⟩, hbytes, h⟩ := bind_eq_ok.1 h
    obtain rfl := Except.ok.inj h
    obtain ⟨hlen, hrest⟩ := bytes_eq_ok hbytes
    refine ⟨[b₇, b₆, b₅, b₄, b₃, b₂, b₁, b₀], e.rest, rfl, by rw [hrest]; rfl, fun code' hcode' => ?_⟩
    refine (hread (code' ++ e.rest)).trans ?_
    rw [← hlen, ← hcode', Reader.reads_bytes code' 8 e.rest]
    rfl
  | [], h | [_], h | [_, _], h | [_, _, _], h | [_, _, _, _], h | [_, _, _, _, _], h
  | [_, _, _, _, _, _], h | [_, _, _, _, _, _, _], h => cases h

end Walk

namespace FieldAccess

variable {p : Plan} {c : ClassFile}

/-! ## Intercepted instructions -/

/-- The opcodes of field accesses are those of reads and writes of instance fields, which take three
bytes. -/
theorem shape_of_fieldWrite? {op : UInt8} {write : Bool} (h : fieldWrite? op = some write) :
    Walk.shape op = .fixed 3 := by
  unfold fieldWrite? at h
  split at h
  · next hop => rw [hop]; rfl
  · split at h
    · next hop => rw [hop]; rfl
    · cases h

theorem fieldWrite?_eq_some {op : UInt8} {write : Bool} :
    fieldWrite? op = some write ↔
      op = if write then Opcode.putfield.byte else Opcode.getfield.byte := by
  unfold fieldWrite?
  constructor
  · intro h
    split at h
    · next hop => cases h; exact hop
    · split at h
      · next hop => cases h; exact hop
      · cases h
  · rintro rfl
    cases write <;> rfl

/-- An instruction of a method's code reads or writes a field of the class that the plan
intercepts. -/
structure Intercepted (p : Plan) (pool : Pool) (code : Bytes) (pc : Nat) (op : UInt8)
    (field descriptor : String) (write : Bool) : Prop where
  opcode : fieldWrite? op = some write
  reference : pool.fieldRefAt (operandAt code.toArray pc) = .ok (p.className, field, descriptor)
  mapped : interceptedDescriptor? p field = some descriptor

theorem interceptedAt?_eq_some {pool : Pool} {code : Bytes} {pc : Nat} {op : UInt8}
    {field descriptor : String} {write : Bool} :
    interceptedAt? p pool code.toArray pc op = .ok (some (field, descriptor, write)) ↔
      Intercepted p pool code pc op field descriptor write := by
  unfold interceptedAt?
  split
  · next hnone =>
    constructor
    · intro h
      cases h
    · intro h
      rw [h.opcode] at hnone
      cases hnone
  · next write' hsome =>
    rw [bind_eq_ok]
    constructor
    · rintro ⟨⟨owner, field', descriptor'⟩, href, h⟩
      dsimp only at h
      split at h
      · next hown =>
        cases h
        obtain ⟨rfl, hattr⟩ := hown
        exact ⟨hsome, href, hattr⟩
      · cases h
    · intro h
      obtain rfl := Option.some.inj (hsome.symm.trans h.opcode)
      refine ⟨_, h.reference, ?_⟩
      dsimp only
      rw [if_pos ⟨rfl, h.mapped⟩]
      rfl

/-! ## Sites -/

/-- A method that is searched for sites: neither a constructor nor the static initializer, with a
code array in its first code attribute. -/
structure Searched (c : ClassFile) (m : Member) (name : String) (codeAttribute : Nat)
    (code : Bytes) : Prop where
  named : c.pool.utf8At m.name = .ok name
  ordinary : ¬(name = Names.constructor ∨ name = Names.staticInitializer)
  found : c.findAttribute? m.attributes Attribute.codeName = some codeAttribute
  read : Walk.readCode.onData ((m.attributes[codeAttribute]?).elim [] Attribute.info) = .ok code

/-- The method of a site, and what the site is there: a visited instruction that is intercepted, with
its place and its report. -/
structure SiteIn (p : Plan) (c : ClassFile) (m : Member) (s : Site) (name methodDescriptor : String)
    (code : Bytes) (op : UInt8) : Prop where
  searched : Searched c m name s.codeAttribute code
  visited : (s.access.pc, op) ∈ (Walk.ofCode code).visited
  intercepted : Intercepted p c.pool code s.access.pc op s.access.field s.descriptor s.access.write
  described : c.pool.utf8At m.descriptor = .ok methodDescriptor
  reported : s.access.method = name ++ methodDescriptor
  placed : s.offset = Walk.codeStart + s.access.pc

/-- What a site of a class is. -/
def IsSite (p : Plan) (c : ClassFile) (s : Site) : Prop :=
  ∃ m, c.methods[s.method]? = some m ∧ ∃ name methodDescriptor code op,
    SiteIn p c m s name methodDescriptor code op

theorem siteAt?_eq_some {m : Member} {name : String} {index codeAttribute : Nat} {code : Bytes}
    {pc : Nat} {op : UInt8} {s : Site} :
    siteAt? p c m name index codeAttribute code.toArray pc op = .ok (some s) ↔
      ∃ methodDescriptor, c.pool.utf8At m.descriptor = .ok methodDescriptor ∧
        Intercepted p c.pool code pc op s.access.field s.descriptor s.access.write ∧
        s.method = index ∧ s.codeAttribute = codeAttribute ∧ s.offset = Walk.codeStart + pc ∧
        s.access.method = name ++ methodDescriptor ∧ s.access.pc = pc := by
  unfold siteAt?
  rw [bind_eq_ok]
  constructor
  · rintro ⟨o, ho, h⟩
    cases o with
    | none => cases h
    | some x =>
      obtain ⟨field, descriptor, write⟩ := x
      obtain ⟨methodDescriptor, hdescriptor, h⟩ := bind_eq_ok.1 h
      cases h
      exact ⟨methodDescriptor, hdescriptor, interceptedAt?_eq_some.1 ho, rfl, rfl, rfl, rfl, rfl⟩
  · rintro ⟨methodDescriptor, hdescriptor, hint, rfl, rfl, hoffset, hmethod, rfl⟩
    refine ⟨_, interceptedAt?_eq_some.2 hint, ?_⟩
    refine bind_eq_ok.2 ⟨methodDescriptor, hdescriptor, ?_⟩
    rw [← hoffset, ← hmethod]
    rfl

/-- The search of one method either passes it over or finds a site for each intercepted instruction
of its code, in order. -/
theorem sitesOfMethod_eq_ok {m : Member} {index : Nat} {found : List Site}
    (h : sitesOfMethod p c m index = .ok found) :
    (found = [] ∧ ∀ name codeAttribute code, ¬Searched c m name codeAttribute code) ∨
      ∃ name codeAttribute code os, Searched c m name codeAttribute code ∧
        (Walk.ofCode code).fault = none ∧ found = os.filterMap id ∧
        List.Forall₂ (fun x o =>
          siteAt? p c m name index codeAttribute code.toArray x.1 x.2 = .ok o)
          (Walk.ofCode code).visited os := by
  unfold sitesOfMethod at h
  obtain ⟨name, hname, h⟩ := bind_eq_ok.1 h
  split at h
  · next hspecial =>
    cases h
    refine .inl ⟨rfl, fun name' _ _ hs => ?_⟩
    obtain rfl := Except.ok.inj (hname.symm.trans hs.named)
    exact hs.ordinary hspecial
  · next hordinary =>
    split at h
    · next hnone =>
      cases h
      refine .inl ⟨rfl, fun _ codeAttribute _ hs => ?_⟩
      rw [hs.found] at hnone
      cases hnone
    · next codeAttribute hfound =>
      obtain ⟨code, hcode, h⟩ := bind_eq_ok.1 h
      obtain ⟨sites, hsites, h⟩ := bind_eq_ok.1 h
      split at h
      · cases h
      · next hfault =>
        cases h
        obtain ⟨os, hos, rfl⟩ := filterMapM_eq_ok.1 hsites
        exact .inr ⟨name, codeAttribute, code, os, ⟨hname, hordinary, hfound, hcode⟩, hfault, rfl,
          hos⟩

/-- A method is searched in one way only. -/
theorem Searched.unique {m : Member} {name name' : String} {j j' : Nat} {code code' : Bytes}
    (h : Searched c m name j code) (h' : Searched c m name' j' code') :
    name = name' ∧ j = j' ∧ code = code' := by
  obtain rfl := Option.some.inj (h.found.symm.trans h'.found)
  exact ⟨Except.ok.inj (h.named.symm.trans h'.named), rfl,
    Except.ok.inj (h.read.symm.trans h'.read)⟩

/-- The search of one method finds its sites and no others. -/
theorem mem_sitesOfMethod_iff {m : Member} {index : Nat} {found : List Site}
    (h : sitesOfMethod p c m index = .ok found) {s : Site} :
    s ∈ found ↔ s.method = index ∧ ∃ name methodDescriptor code op,
      SiteIn p c m s name methodDescriptor code op := by
  rcases sitesOfMethod_eq_ok h with ⟨rfl, hnone⟩ | ⟨name, j, code, os, hs, -, rfl, hos⟩
  · constructor
    · intro hmem
      cases hmem
    · rintro ⟨-, name, methodDescriptor, code, op, hin⟩
      exact absurd hin.searched (hnone _ _ _)
  · rw [List.mem_filterMap]
    constructor
    · rintro ⟨o, ho, hso⟩
      obtain rfl : o = some s := hso
      obtain ⟨⟨pc, op⟩, hvisited, hat⟩ := exists_mem_of_forall₂ hos ho
      obtain ⟨methodDescriptor, hdescriptor, hint, hindex, rfl, hoffset, hmethod, rfl⟩ :=
        siteAt?_eq_some.1 hat
      exact ⟨hindex, name, methodDescriptor, code, op, hs, hvisited, hint, hdescriptor, hmethod,
        hoffset⟩
    · rintro ⟨hindex, name', methodDescriptor, code', op, hin⟩
      obtain ⟨rfl, hj, rfl⟩ := hs.unique hin.searched
      obtain ⟨k, hk, hget⟩ := List.mem_iff_getElem.1 hin.visited
      have hat := hos.get hk (by rw [← hos.length_eq]; exact hk)
      have hsite : siteAt? p c m name index j code.toArray s.access.pc op = .ok (some s) := by
        exact siteAt?_eq_some.2 ⟨methodDescriptor, hin.described, hin.intercepted, hindex, hj.symm,
          hin.placed, hin.reported, rfl⟩
      simp only [List.get_eq_getElem, hget] at hat
      exact ⟨some s, Except.ok.inj (hat.symm.trans hsite) ▸ List.getElem_mem _, rfl⟩

/-- What the search of a class finds, method by method. -/
theorem sites_eq_ok {found : List Site} (h : sites p c = .ok found) :
    ∃ parts, List.Forall₂ (fun x part => sitesOfMethod p c x.1 x.2 = .ok part) c.methods.zipIdx
      parts ∧ found = parts.flatten := by
  unfold sites at h
  obtain ⟨parts, hparts, h⟩ := bind_eq_ok.1 h
  cases h
  exact ⟨parts, mapM_eq_ok.1 hparts, rfl⟩

/-- The search of a class finds its sites and no others. -/
theorem mem_sites_iff {found : List Site} (h : sites p c = .ok found) {s : Site} :
    s ∈ found ↔ IsSite p c s := by
  obtain ⟨parts, hparts, rfl⟩ := sites_eq_ok h
  rw [List.mem_flatten]
  constructor
  · rintro ⟨part, hpart, hs⟩
    obtain ⟨⟨m, i⟩, hm, hfound⟩ := exists_mem_of_forall₂ hparts hpart
    obtain ⟨rfl, hin⟩ := (mem_sitesOfMethod_iff hfound).1 hs
    exact ⟨m, List.mem_zipIdx_iff_getElem?.1 hm, hin⟩
  · rintro ⟨m, hm, hin⟩
    have hmem : (m, s.method) ∈ c.methods.zipIdx := List.mem_zipIdx_iff_getElem?.2 hm
    obtain ⟨k, hk, hget⟩ := List.mem_iff_getElem.1 hmem
    have hfound := hparts.get hk (by rw [← hparts.length_eq]; exact hk)
    simp only [List.get_eq_getElem, hget] at hfound
    exact ⟨_, List.getElem_mem _, (mem_sitesOfMethod_iff hfound).2 ⟨rfl, hin⟩⟩

/-- The search succeeds only if the descriptor of every method with an intercepted instruction can be
read. -/
theorem described_of_sites {found : List Site} (h : sites p c = .ok found) {i j pc : Nat}
    {m : Member} {name : String} {code : Bytes} {op : UInt8} {field descriptor : String}
    {write : Bool} (hm : c.methods[i]? = some m) (hs : Searched c m name j code)
    (hvisited : (pc, op) ∈ (Walk.ofCode code).visited)
    (hint : Intercepted p c.pool code pc op field descriptor write) :
    ∃ methodDescriptor, c.pool.utf8At m.descriptor = .ok methodDescriptor := by
  obtain ⟨parts, hparts, rfl⟩ := sites_eq_ok h
  obtain ⟨part, -, hfound⟩ :=
    exists_mem_of_forall₂ hparts.flip (List.mem_zipIdx_iff_getElem?.2 hm : (m, i) ∈ _)
  rcases sitesOfMethod_eq_ok hfound with ⟨-, hnone⟩ | ⟨name', j', code', os, hs', -, -, hos⟩
  · exact absurd hs (hnone _ _ _)
  · obtain ⟨rfl, rfl, rfl⟩ := hs.unique hs'
    obtain ⟨o, -, hat⟩ := exists_mem_of_forall₂ hos.flip hvisited
    unfold siteAt? at hat
    rw [interceptedAt?_eq_some.2 hint] at hat
    obtain ⟨_, hsome, hat⟩ := bind_eq_ok.1 hat
    cases hsome
    obtain ⟨methodDescriptor, hdescriptor, -⟩ := bind_eq_ok.1 hat
    exact ⟨methodDescriptor, hdescriptor⟩

/-! ## The order of the sites -/

/-- One site comes before another: in an earlier method, or in the same code without a byte in
common. -/
def Before (s t : Site) : Prop :=
  s.method < t.method ∨
    s.method = t.method ∧ s.codeAttribute = t.codeAttribute ∧ s.offset + 3 ≤ t.offset

theorem pairwise_filterMap {α β : Type} {Q : α → α → Prop} {T : β → β → Prop}
    {R : α → Option β → Prop} {xs : List α} {os : List (Option β)} (h : List.Forall₂ R xs os)
    (hxs : xs.Pairwise Q) (hT : ∀ x y s t, Q x y → R x (some s) → R y (some t) → T s t) :
    (os.filterMap id).Pairwise T := by
  induction h with
  | nil => exact List.Pairwise.nil
  | @cons x o xs os hxo hrest ih =>
    obtain ⟨hx, hxs⟩ := List.pairwise_cons.1 hxs
    cases o with
    | none => exact ih hxs
    | some s =>
      refine List.pairwise_cons.2 ⟨fun t ht => ?_, ih hxs⟩
      obtain ⟨o, ho, rfl⟩ := List.mem_filterMap.1 ht
      obtain ⟨y, hy, hyt⟩ := exists_mem_of_forall₂ hrest ho
      exact hT x y s t (hx y hy) hxo hyt

theorem sitesOfMethod_pairwise {m : Member} {index : Nat} {found : List Site}
    (h : sitesOfMethod p c m index = .ok found) : found.Pairwise Before := by
  rcases sitesOfMethod_eq_ok h with ⟨rfl, -⟩ | ⟨name, j, code, os, -, -, rfl, hos⟩
  · exact List.Pairwise.nil
  · refine pairwise_filterMap hos (Walk.visited_pairwise 0 code) fun x y s t hxy hs ht => ?_
    obtain ⟨-, -, hint, hmethod, hattribute, hoffset, -⟩ := siteAt?_eq_some.1 hs
    obtain ⟨-, -, -, hmethod', hattribute', hoffset', -⟩ := siteAt?_eq_some.1 ht
    have hbehind := hxy.2 3 (shape_of_fieldWrite? hint.opcode)
    exact .inr ⟨hmethod.trans hmethod'.symm, hattribute.trans hattribute'.symm, by omega⟩

/-- The sites of a class come in order, and no two of them overlap. -/
theorem sites_pairwise {found : List Site} (h : sites p c = .ok found) :
    found.Pairwise Before := by
  obtain ⟨parts, hparts, rfl⟩ := sites_eq_ok h
  suffices hall : ∀ (ms : List Member) (k : Nat) (parts : List (List Site)),
      List.Forall₂ (fun x part => sitesOfMethod p c x.1 x.2 = .ok part) (ms.zipIdx k) parts →
        parts.flatten.Pairwise Before ∧ ∀ s ∈ parts.flatten, k ≤ s.method from
    (hall c.methods 0 parts hparts).1
  intro ms
  induction ms with
  | nil =>
    intro k parts hparts
    cases hparts
    exact ⟨List.Pairwise.nil, by simp⟩
  | cons m ms ih =>
    intro k parts hparts
    rw [List.zipIdx_cons] at hparts
    cases hparts with
    | @cons _ part _ parts hpart hrest =>
      obtain ⟨hpairwise, hlater⟩ := ih (k + 1) parts hrest
      have hhere : ∀ s ∈ part, s.method = k := fun s hs =>
        ((mem_sitesOfMethod_iff hpart).1 hs).1
      rw [List.flatten_cons]
      refine ⟨List.pairwise_append.2 ⟨sitesOfMethod_pairwise hpart, hpairwise, ?_⟩, ?_⟩
      · intro s hs t ht
        have := hhere s hs
        have := hlater t ht
        exact .inl (by omega)
      · intro s hs
        rcases List.mem_append.1 hs with hs | hs
        · exact Nat.le_of_eq (hhere s hs).symm
        · have := hlater s hs
          omega

end FieldAccess

end EntityLoom
