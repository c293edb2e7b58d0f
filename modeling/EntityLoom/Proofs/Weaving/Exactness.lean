import EntityLoom.Proofs.ClassFile.RoundTrip
import EntityLoom.Proofs.Model.Validated
import EntityLoom.Proofs.Weaving.Conservative

/-!
# Field accesses are routed exactly

`FieldAccess.redirectAll_exact` says of every class and every plan for a class of a validated model
what routing does where it succeeds.  The reported accesses are the reads and writes of the fields of
intercepted attributes, and no others.  Each becomes a call of the accessor that weaving the class
declares.  No walk over code takes another step than before, and no other byte changes.
-/

namespace EntityLoom

/-- The content of the attribute at place `j` of the method at place `i` holds the code. -/
def ClassFile.CodeAt (c : ClassFile) (i j : Nat) (code : Bytes) : Prop :=
  ∃ m a, c.methods[i]? = some m ∧ m.attributes[j]? = some a ∧
    Walk.readCode.onData a.info = .ok code

namespace FieldAccess

variable {p : Plan} {c d : ClassFile} {calls : List (Site × UInt16)}

/-! ## Code with calls put in -/

/-- Content that differs from other content at some places of the code array alone is read as code of
the same length, which differs at these places alone. -/
theorem readCode_congr {info info' code : Bytes} (h : Walk.readCode.onData info = .ok code)
    (hlen : info'.length = info.length)
    (hsame : ∀ k, k < Walk.codeStart ∨ Walk.codeStart + code.length ≤ k → info'[k]? = info[k]?) :
    ∃ code', Walk.readCode.onData info' = .ok code' ∧ code'.length = code.length ∧
      ∀ k, k < code.length → code'[k]? = info'[Walk.codeStart + k]? := by
  obtain ⟨front, back, hfront, rfl, hread⟩ := Walk.readCode_eq_ok h
  have hlen' : info'.length = Walk.codeStart + code.length + back.length := by
    rw [hlen, List.length_append, List.length_append, hfront]
    omega
  have htake : info'.take Walk.codeStart = front := by
    refine List.ext_getElem? fun k => ?_
    rw [List.getElem?_take]
    split
    · next hk => rw [hsame k (.inl hk), List.getElem?_append_left (by omega)]
    · rw [List.getElem?_eq_none (by omega)]
  have hdrop : info'.drop (Walk.codeStart + code.length) = back := by
    refine List.ext_getElem? fun k => ?_
    rw [List.getElem?_drop, hsame _ (.inr (by omega)), List.getElem?_append_right (by omega),
      List.getElem?_append_right (by omega)]
    congr 1
    omega
  have hcode : ((info'.drop Walk.codeStart).take code.length).length = code.length := by
    rw [List.length_take, List.length_drop, hlen']
    omega
  refine ⟨(info'.drop Walk.codeStart).take code.length, ?_, hcode, fun k hk => ?_⟩
  · have hsplit : info' = front ++ ((info'.drop Walk.codeStart).take code.length ++ back) := by
      rw [← htake, ← hdrop, ← List.drop_drop, List.take_append_drop, List.take_append_drop]
    conv => lhs; rw [hsplit]
    exact hread _ hcode
  · rw [List.getElem?_take, if_pos hk, List.getElem?_drop]

/-- A site in the code of a method. -/
theorem Routed.siteIn (h : Routed p c calls d) {i j : Nat} {code : Bytes} {m : Member}
    {a : Attribute} (hm : c.methods[i]? = some m) (ha : m.attributes[j]? = some a)
    (hread : Walk.readCode.onData a.info = .ok code) {x : Site × UInt16} (hx : x ∈ calls)
    (hin : x.1.In i j) :
    ∃ name methodDescriptor op, SiteIn p c m x.1 name methodDescriptor code op := by
  obtain ⟨rfl, rfl⟩ := hin
  obtain ⟨m', hm', name, methodDescriptor, code', op, hsite⟩ := (h.exact x.1).1 ⟨x.2, hx⟩
  obtain rfl := Option.some.inj (hm.symm.trans hm')
  obtain ⟨a', ha', hread'⟩ := hsite.searched.info_eq
  obtain rfl := Option.some.inj (ha.symm.trans ha')
  obtain rfl := Except.ok.inj (hread.symm.trans hread')
  exact ⟨name, methodDescriptor, op, hsite⟩

/-- The code of a routed class is the code before with the instruction at each site replaced by its
call. -/
theorem Routed.codeAt (h : Routed p c calls d) {i j : Nat} {code : Bytes}
    (hcode : c.CodeAt i j code) :
    ∃ code', d.CodeAt i j code' ∧
      Walk.Replaced (fun pc => ∃ x ∈ calls, x.1.In i j ∧ x.1.access.pc = pc) 0 code code' ∧
      ∀ x ∈ calls, x.1.In i j → ∀ k, k < 3 →
        code'[x.1.access.pc + k]? = (callBytes x.2)[k]? := by
  obtain ⟨m, a, hm, ha, hread⟩ := hcode
  have hwithin := h.within hm ha
  have hsite := fun x (hx : x ∈ calls) => h.siteIn hm ha hread hx
  obtain ⟨code', hread', hlen, hbytes⟩ :=
    readCode_congr hread (length_patchInfo hwithin) fun k hk => by
      refine getElem?_patchInfo_of_clear hwithin fun x hx hin => ?_
      obtain ⟨_, _, _, hs⟩ := hsite x hx hin
      have hinside := hs.within
      have hplaced := hs.placed
      omega
  have hcalls : ∀ x ∈ calls, x.1.In i j → ∀ k, k < 3 →
      code'[x.1.access.pc + k]? = (callBytes x.2)[k]? := by
    intro x hx hin k hk
    obtain ⟨_, _, _, hs⟩ := hsite x hx hin
    have hinside := hs.within
    rw [hbytes _ (by omega), ← getElem?_patchInfo_of_mem hwithin h.ordered hx hin hk, hs.placed]
    congr 1
    omega
  refine ⟨code', ⟨patchMember i calls m, { a with info := patchInfo i j calls a.info }, ?_,
    patchMember_attribute ha, hread'⟩, ⟨hlen, fun k hk => ?_, ?_⟩, hcalls⟩
  · rw [h.file, getElem?_patchAll, hm]
    rfl
  · by_cases hlt : k < code.length
    · obtain ⟨front, back, hfront, hinfo, -⟩ := Walk.readCode_eq_ok hread
      rw [hbytes k hlt, getElem?_patchInfo_of_clear hwithin, hinfo,
        List.getElem?_append_right (by omega), List.getElem?_append_left (by omega)]
      · congr 1
        omega
      · intro x hx hin hk'
        obtain ⟨_, _, _, hs⟩ := hsite x hx hin
        have hplaced := hs.placed
        exact hk _ ⟨x, hx, hin, rfl⟩ (by omega)
    · rw [List.getElem?_eq_none (by omega), List.getElem?_eq_none (by omega)]
  · rintro pc ⟨x, hx, hin, rfl⟩
    obtain ⟨_, _, op, hs⟩ := hsite x hx hin
    exact .inr ⟨Nat.zero_le _, op, Opcode.invokevirtual.byte, hs.visited,
      shape_of_fieldWrite? hs.intercepted.opcode, hcalls x hx hin 0 (by omega), rfl⟩

/-- The operand of a call is its slot. -/
theorem operandAt_of_callBytes {code : Bytes} {pc : Nat} {slot : UInt16}
    (h : ∀ k, k < 3 → code[pc + k]? = (callBytes slot)[k]?) :
    operandAt code.toArray pc = slot := by
  have h₁ := h 1 (by omega)
  have h₂ := h 2 (by omega)
  unfold operandAt
  rw [Array.getD_eq_getD_getElem?, Array.getD_eq_getD_getElem?, List.getElem?_toArray,
    List.getElem?_toArray, h₁, h₂]
  exact Bytes.word16_ofWord16 slot

/-- At each site of a routed class stands a call of its accessor. -/
theorem Routed.call (h : Routed p c calls d) {x : Site × UInt16} (hx : x ∈ calls) :
    ∃ code, d.CodeAt x.1.method x.1.codeAttribute code ∧
      (x.1.access.pc, Opcode.invokevirtual.byte) ∈ (Walk.ofCode code).visited ∧
      NamesAccessor p d.pool x.1 (operandAt code.toArray x.1.access.pc) := by
  obtain ⟨m, hm, name, methodDescriptor, code, op, hs⟩ := (h.exact x.1).1 ⟨x.2, hx⟩
  obtain ⟨a, ha, hread⟩ := hs.searched.info_eq
  obtain ⟨code', hcode', hreplaced, hcalls⟩ := h.codeAt ⟨m, a, hm, ha, hread⟩
  have hcall := hcalls x hx ⟨rfl, rfl⟩
  refine ⟨code', hcode', ?_, ?_⟩
  · have hpc : x.1.access.pc ∈ (Walk.ofCode code').visited.map Prod.fst := by
      unfold Walk.ofCode
      rw [(Walk.continueFrom_replaced hreplaced).1]
      exact List.mem_map_of_mem hs.visited
    obtain ⟨⟨pc', op'⟩, hvisited, rfl⟩ := List.mem_map.1 hpc
    have hop := (Walk.visited_inside hvisited).2.1
    have hfirst := hcall 0 (by omega)
    rw [Nat.sub_zero] at hop
    obtain rfl := Option.some.inj (hop.symm.trans hfirst)
    exact hvisited
  · rw [operandAt_of_callBytes hcall]
    exact h.names x hx

/-! ## Accesses of own attributes -/

/-- A field is intercepted as the attribute of its name, of which a validated class has one. -/
theorem interceptedDescriptor?_eq_some (hnames : (p.ownAttributes.map MappedAttribute.name).Nodup)
    {field descriptor : String} :
    interceptedDescriptor? p field = some descriptor ↔
      ∃ a ∈ p.ownAttributes, p.intercepts a = true ∧ a.name = field ∧ a.descriptor = descriptor := by
  unfold interceptedDescriptor?
  rw [Option.map_eq_some_iff]
  constructor
  · rintro ⟨a, ha, hdescriptor⟩
    have hmem := List.mem_of_find?_eq_some ha
    rw [List.mem_reverse, List.mem_filter] at hmem
    exact ⟨a, hmem.1, hmem.2, by simpa using List.find?_some ha, hdescriptor⟩
  · rintro ⟨a, ha, hi, hname, hdescriptor⟩
    have hmem : a ∈ (p.ownAttributes.filter p.intercepts).reverse := by
      rw [List.mem_reverse, List.mem_filter]
      exact ⟨ha, hi⟩
    cases hfound : (p.ownAttributes.filter p.intercepts).reverse.find? (·.name = field) with
    | none =>
      have hnot := List.find?_eq_none.1 hfound a hmem
      exact absurd (decide_eq_true hname) hnot
    | some b =>
      have hb := List.mem_of_find?_eq_some hfound
      rw [List.mem_reverse, List.mem_filter] at hb
      have hsame : b.name = a.name := by
        rw [hname]
        simpa using List.find?_some hfound
      obtain rfl := List.inj_on_of_nodup_map hnames hb.1 ha hsame
      exact ⟨b, rfl, hdescriptor⟩

/-- The instruction at `pc` in the code of the method at place `i` reads or writes the field of an
own attribute for which the plan intercepts, and the method is neither a constructor nor the static
initializer. -/
structure OwnAccess (p : Plan) (c : ClassFile) (i pc : Nat) (write : Bool) (a : MappedAttribute) :
    Prop where
  own : a ∈ p.ownAttributes
  intercepted : p.intercepts a = true
  instruction : ∃ m name j code, c.methods[i]? = some m ∧ Searched c m name j code ∧
    (pc, if write then Opcode.putfield.byte else Opcode.getfield.byte) ∈
      (Walk.ofCode code).visited ∧
    c.pool.fieldRefAt (operandAt code.toArray pc) = .ok (p.className, a.name, a.descriptor)

/-- What a site is in terms of the attributes of a class. -/
theorem SiteIn.ownAccess (hnames : (p.ownAttributes.map MappedAttribute.name).Nodup) {m : Member}
    {s : Site} {name methodDescriptor : String} {code : Bytes} {op : UInt8}
    (hm : c.methods[s.method]? = some m) (h : SiteIn p c m s name methodDescriptor code op) :
    ∃ a, OwnAccess p c s.method s.access.pc s.access.write a ∧ s.access.field = a.name ∧
      s.descriptor = a.descriptor := by
  obtain ⟨a, ha, hi, hname, hdescriptor⟩ :=
    (interceptedDescriptor?_eq_some hnames).1 h.intercepted.mapped
  have hvisited := h.visited
  rw [fieldWrite?_eq_some.1 h.intercepted.opcode] at hvisited
  refine ⟨a, ⟨ha, hi, m, name, _, code, hm, h.searched, hvisited, ?_⟩, hname.symm,
    hdescriptor.symm⟩
  rw [hname, hdescriptor]
  exact h.intercepted.reference

/-- Every access of an own attribute is a site. -/
theorem Routed.exists_site (h : Routed p c calls d)
    (hnames : (p.ownAttributes.map MappedAttribute.name).Nodup) {i pc : Nat} {write : Bool}
    {a : MappedAttribute} (ha : OwnAccess p c i pc write a) :
    ∃ x ∈ calls, x.1.method = i ∧ x.1.access.pc = pc := by
  obtain ⟨m, name, j, code, hm, hs, hvisited, href⟩ := ha.instruction
  have hint : Intercepted p c.pool code pc
      (if write then Opcode.putfield.byte else Opcode.getfield.byte) a.name a.descriptor write :=
    ⟨fieldWrite?_eq_some.2 rfl, href,
      (interceptedDescriptor?_eq_some hnames).2 ⟨a, ha.own, ha.intercepted, rfl, rfl⟩⟩
  obtain ⟨methodDescriptor, hdescriptor⟩ := h.described hm hs hvisited hint
  obtain ⟨slot, hslot⟩ := (h.exact
    { method := i, codeAttribute := j, offset := Walk.codeStart + pc, descriptor := a.descriptor
      access := ⟨name ++ methodDescriptor, pc, a.name, write⟩ }).2
    ⟨m, hm, name, methodDescriptor, code, _, hs, hvisited, hint, hdescriptor, rfl, rfl⟩
  exact ⟨_, hslot, rfl, rfl⟩

/-! ## Exactness -/

/-- The accesses are the exact report of routing the field accesses of `c`, which gives `d`, and are
at the given sites. -/
structure Exact (p : Plan) (c : ClassFile) (accesses : List FieldAccess) (d : ClassFile)
    (sites : List Site) : Prop where
  reported : accesses = sites.map Site.access
  /-- Each report names its place, and the attribute whose field is read or written there. -/
  sound : ∀ s ∈ sites, s.Located p.className c ∧
    ∃ a, OwnAccess p c s.method s.access.pc s.access.write a ∧ s.access.field = a.name ∧
      s.descriptor = a.descriptor
  exact : ∀ i pc, (∃ s ∈ sites, s.method = i ∧ s.access.pc = pc) ↔
    ∃ write a, OwnAccess p c i pc write a
  once : sites.Nodup
  /-- The walk over any code of a method takes the same steps before and after. -/
  boundaries : ∀ i j code, c.CodeAt i j code → ∃ code', d.CodeAt i j code' ∧
    (Walk.ofCode code').visited.map Prod.fst = (Walk.ofCode code).visited.map Prod.fst ∧
    (Walk.ofCode code').fault = (Walk.ofCode code).fault
  calls : ∀ s ∈ sites, ∃ code, d.CodeAt s.method s.codeAttribute code ∧
    (s.access.pc, Opcode.invokevirtual.byte) ∈ (Walk.ofCode code).visited ∧
    d.pool.memberRefAt (operandAt code.toArray s.access.pc) =
      .ok (p.className, s.accessor, s.accessorDescriptor)
  others : d.methods.length = c.methods.length ∧
    ∀ i m, c.methods[i]? = some m → ∃ n, d.methods[i]? = some n ∧ Member.Kept sites i m n
  /-- Weaving the class reports the same and declares the accessors. -/
  declared : ∀ existing file report, Names.woven ∉ existing →
    p.extend existing c = .ok (file, report) → report.redirected = accesses ∧
      ∀ s ∈ sites, ∃ n ∈ file.methods, file.pool.utf8At n.name = .ok s.accessor ∧
        file.pool.utf8At n.descriptor = .ok s.accessorDescriptor

/-- The accessor of a site is declared where the plan is carried out. -/
theorem Site.accessor_declared {s : Site} {a : MappedAttribute} {existing : List String}
    {file : ClassFile} {report : WeaveReport} {parts : Plan.Parts}
    (h : p.Carried existing c file report parts) (ha : a ∈ p.ownAttributes)
    (hi : p.intercepts a = true) (hfield : s.access.field = a.name)
    (hdescriptor : s.descriptor = a.descriptor) :
    ∃ n ∈ file.methods, file.pool.utf8At n.name = .ok s.accessor ∧
      file.pool.utf8At n.descriptor = .ok s.accessorDescriptor := by
  obtain ⟨hgetter, hsetter⟩ := Plan.accessors_mem ha hi
  unfold Site.accessor Site.accessorDescriptor
  rw [hfield, hdescriptor]
  cases s.access.write with
  | false =>
    obtain ⟨n, hn, hdeclares⟩ := h.declares_method hgetter
    exact ⟨n, hn, hdeclares.name, hdeclares.descriptor⟩
  | true =>
    obtain ⟨n, hn, hdeclares⟩ := h.declares_method hsetter
    exact ⟨n, hn, hdeclares.name, hdeclares.descriptor⟩

theorem before_irrefl (s : Site) : ¬Before s s := by
  rintro (h | ⟨-, -, h⟩) <;> omega

/-- Where the field accesses of a class are routed, exactly those of the fields of intercepted
attributes are. -/
theorem redirectAll_exact {classes : List MappedClass} {m : Model} {mapped : MappedClass}
    {context : Context} {superName : Option String} {interfaces : List String} {data : Bytes}
    {accesses : List FieldAccess} (hm : Model.ofClasses classes = .ok m)
    (hmapped : mapped ∈ m.classes)
    (hp : Plan.make mapped m context superName interfaces = .ok p)
    (hc : ClassFile.parse data = .ok c)
    (h : (redirectAll p).run.run c = (.ok accesses, d)) :
    ∃ sites, Exact p c accesses d sites := by
  have hnames : (p.ownAttributes.map MappedAttribute.name).Nodup := by
    have hall := (Model.validated_of_ofClasses hm).attributeNames mapped hmapped
    obtain ⟨-, rfl⟩ := Plan.make_eq_ok hp
    exact hall.sublist (List.filter_sublist.map _)
  obtain ⟨n, hpool⟩ := ClassFile.readUpTo_of_parse hc
  obtain ⟨calls, hrouted, hreported⟩ := redirectAll_eq_ok hpool.built h
  have hsites : ∀ s ∈ calls.map Prod.fst, ∃ x ∈ calls, x.1 = s := fun s => List.mem_map.1
  have hown : ∀ x ∈ calls, ∃ a, OwnAccess p c x.1.method x.1.access.pc x.1.access.write a ∧
      x.1.access.field = a.name ∧ x.1.descriptor = a.descriptor := by
    intro x hx
    obtain ⟨m, hm, _, _, _, _, hs⟩ := (hrouted.exact x.1).1 ⟨x.2, hx⟩
    exact hs.ownAccess hnames hm
  refine ⟨calls.map Prod.fst, ?_⟩
  constructor
  case reported =>
    rw [hreported, List.map_map]
    rfl
  case sound =>
    intro s hs
    obtain ⟨x, hx, rfl⟩ := hsites s hs
    exact ⟨((hrouted.exact x.1).1 ⟨x.2, hx⟩).located, hown x hx⟩
  case exact =>
    intro i pc
    constructor
    · rintro ⟨s, hs, rfl, rfl⟩
      obtain ⟨x, hx, rfl⟩ := hsites s hs
      obtain ⟨a, ha, -⟩ := hown x hx
      exact ⟨_, a, ha⟩
    · rintro ⟨write, a, ha⟩
      obtain ⟨x, hx, hi, hpc⟩ := hrouted.exists_site hnames ha
      exact ⟨x.1, List.mem_map_of_mem hx, hi, hpc⟩
  case once =>
    refine List.Pairwise.map _ (fun x y hxy heq => ?_) hrouted.ordered
    exact before_irrefl y.1 (heq ▸ hxy)
  case boundaries =>
    intro i j code hcode
    obtain ⟨code', hcode', hreplaced, -⟩ := hrouted.codeAt hcode
    exact ⟨code', hcode', Walk.continueFrom_replaced hreplaced⟩
  case calls =>
    intro s hs
    obtain ⟨x, hx, rfl⟩ := hsites s hs
    obtain ⟨code, hcode, hvisited, hcall⟩ := hrouted.call hx
    exact ⟨code, hcode, hvisited, hcall.2⟩
  case others =>
    have hmethods : d.methods = patchAll calls c.methods := by rw [hrouted.file]
    rw [hmethods]
    refine ⟨length_patchAll _ _, fun i m hm => ⟨patchMember i calls m, ?_, ?_⟩⟩
    · rw [getElem?_patchAll, hm]
      rfl
    · exact kept_patchMember fun j a ha => hrouted.within hm ha
  case declared =>
    intro existing file report hnew hextend
    obtain ⟨accesses', c₁, x, y, hagain, -, -, -, hreport⟩ := Plan.extend_steps hextend
    obtain ⟨-, parts, hcarried⟩ := Plan.extend_eq_ok hpool.built hnew hextend
    have hsame : accesses' = accesses :=
      Except.ok.inj (Prod.mk.inj (Eq.trans (Eq.symm hagain) h)).1
    refine ⟨by rw [hreport, hsame], fun s hs => ?_⟩
    obtain ⟨x, hx, rfl⟩ := hsites s hs
    obtain ⟨a, ha, hfield, hdescriptor⟩ := hown x hx
    exact Site.accessor_declared hcarried ha.own ha.intercepted hfield hdescriptor

/-- In the sample class one access is routed. -/
theorem redirectAll_exact_sample :
    ∃ p c d sites, ClassFile.parse Sample.data = .ok c ∧
      Exact p c [⟨"get()D", 1, "n", false⟩] d sites := by
  have hmodel : ∃ m, Model.ofClasses (Sample.classes "A") = .ok m ∧ m = Sample.model "A" := by
    decide +kernel
  have hrun : ∃ c, ClassFile.parse Sample.data = .ok c ∧
      ∃ p, Plan.make (Sample.mapped "A") (Sample.model "A") Context.default (some "B") [] = .ok p ∧
        ∃ accesses, ((redirectAll p).run.run c).1 = .ok accesses ∧
          accesses = [⟨"get()D", 1, "n", false⟩] := by decide +kernel
  obtain ⟨m, hm, rfl⟩ := hmodel
  obtain ⟨c, hc, p, hp, accesses, hredirect, rfl⟩ := hrun
  have hmem : Sample.mapped "A" ∈ (Sample.model "A").classes := List.mem_cons_self
  obtain ⟨sites, hexact⟩ := redirectAll_exact hm hmem hp hc (Prod.ext hredirect rfl)
  exact ⟨p, c, _, sites, hc, hexact⟩

end FieldAccess

end EntityLoom
