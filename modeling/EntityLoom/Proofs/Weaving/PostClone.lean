import EntityLoom.Proofs.Model.Ancestors
import EntityLoom.Proofs.Weaving.Holders
import EntityLoom.Proofs.Weaving.Lineage

/-!
# Finishing a shallow clone

The method that finishes a shallow clone, run on an object together with the methods of its
superclasses that it calls.
-/

namespace EntityLoom

open Machine Instruction

namespace Plan

/-- A state field, as code of the class refers to it. -/
def stateRef (p : Plan) (f : StateField) : MemberRef :=
  ⟨p.className, f.name, f.type.text⟩

end Plan

/-- The method by which a holder answers a copy of itself. -/
def Names.holderClone : MemberRef := Names.holderMethod "clone" Names.objectGetter

/-! ## Renewed objects -/

namespace Machine

variable {World : Type} {rt : Runtime World} {this : Nat} {s s₁ s' : Store World}
  {holders holders' cleared cleared' : List MemberRef} {events events' : List Event}

/-- What was called with which arguments, and what it answered. -/
def Event.outline (e : Event) : MemberRef × List Value × Option Value :=
  (e.target, e.args, e.result)

/-- Of an object some holders were replaced and some fields cleared.  The holders that there are were
asked for a copy once and in order, and nothing else was called. -/
structure Renewed (this : Nat) (holders cleared : List MemberRef) (s s' : Store World)
    (events : List Event) : Prop where
  copied : events.map Event.outline =
    (holders.filter fun ref => s.fields this ref ≠ .ref .null).map fun ref =>
      (Names.holderClone, [s.fields this ref], some (s'.fields this ref))
  absent : ∀ ref ∈ holders, s.fields this ref = .ref .null → s'.fields this ref = .ref .null
  null : ∀ ref ∈ cleared, s'.fields this ref = .ref .null
  kept : ∀ ref, ref ∉ holders → ref ∉ cleared → s'.fields this ref = s.fields this ref

theorem Renewed.refl : Renewed this [] [] s s [] :=
  ⟨rfl, by simp, by simp, fun _ _ _ => rfl⟩

/-- One renewal after another is a renewal, if they concern different fields. -/
theorem Renewed.append (h : Renewed this holders cleared s s₁ events)
    (h' : Renewed this holders' cleared' s₁ s' events') (hholders : holders.Disjoint holders')
    (hcleared : (holders ++ holders').Disjoint (cleared ++ cleared')) :
    Renewed this (holders ++ holders') (cleared ++ cleared') s s' (events ++ events') := by
  have hfirst : ∀ ref ∈ holders, s'.fields this ref = s₁.fields this ref := by
    intro ref hmem
    refine h'.kept ref (hholders hmem) fun hcl => ?_
    exact hcleared (List.mem_append_left _ hmem) (List.mem_append_right _ hcl)
  have hsecond : ∀ ref ∈ holders', s₁.fields this ref = s.fields this ref := by
    intro ref hmem
    refine h.kept ref (fun hold => hholders hold hmem) fun hcl => ?_
    exact hcleared (List.mem_append_right _ hmem) (List.mem_append_left _ hcl)
  constructor
  case copied =>
    have hfilter : (holders'.filter fun ref => s₁.fields this ref ≠ .ref .null) =
        holders'.filter fun ref => s.fields this ref ≠ .ref .null :=
      List.filter_congr fun ref hmem => by rw [hsecond ref hmem]
    rw [List.map_append, h.copied, h'.copied, hfilter, List.filter_append, List.map_append]
    congr 1
    · refine List.map_congr_left fun ref hmem => ?_
      rw [hfirst ref (List.mem_of_mem_filter hmem)]
    · refine List.map_congr_left fun ref hmem => ?_
      rw [hsecond ref (List.mem_of_mem_filter hmem)]
  case absent =>
    intro ref hmem hnull
    rcases List.mem_append.1 hmem with hmem | hmem
    · rw [hfirst ref hmem]
      exact h.absent ref hmem hnull
    · exact h'.absent ref hmem ((hsecond ref hmem).trans hnull)
  case null =>
    intro ref hmem
    by_cases hcl : ref ∈ cleared'
    · exact h'.null ref hcl
    · have hmem' := (List.mem_append.1 hmem).resolve_right hcl
      rw [h'.kept ref (fun hold => hcleared (List.mem_append_right _ hold) hmem) hcl]
      exact h.null ref hmem'
  case kept =>
    intro ref hholder hcl
    rw [List.mem_append, not_or] at hholder hcl
    rw [h'.kept ref hholder.2 hcl.2, h.kept ref hholder.1 hcl.1]

/-- A field that is cleared. -/
theorem Renewed.clear (ref : MemberRef) :
    Renewed this [] [ref] s (s.assign this ref (.ref .null)) [] := by
  refine ⟨rfl, by simp, by simp, fun other _ hother => ?_⟩
  rw [List.mem_singleton] at hother
  simp [hother]

/-- A holder that is not there. -/
theorem Renewed.skip {ref : MemberRef} (h : s.fields this ref = .ref .null) :
    Renewed this [ref] [] s s [] := by
  refine ⟨?_, by simp, by simp, fun _ _ _ => rfl⟩
  simp [h]

/-- A holder that is replaced by what it answers. -/
theorem Renewed.copy {ref : MemberRef} (v : Value) (snapshot : Nat → MemberRef → Value)
    (h : s.fields this ref ≠ .ref .null) (hkeep : s₁.fields this = s.fields this) :
    Renewed this [ref] [] s (s₁.assign this ref v)
      [⟨Names.holderClone, [s.fields this ref], some v, snapshot⟩] := by
  refine ⟨?_, ?_, by simp, fun other hother _ => ?_⟩
  · simp [h, Event.outline]
  · intro other hother hnull
    rw [List.mem_singleton.1 hother] at hnull
    exact absurd hnull h
  · rw [List.mem_singleton] at hother
    simp [hother, hkeep]

/-- Holders answer a copy of themselves or nothing, and leave the object alone. -/
def Runtime.CopiesHolders (rt : Runtime World) (this : Nat) : Prop :=
  ∀ r s, r ≠ .null → rt.isInstance r Names.holderInterface = true →
    rt.Answers .invokeinterface Names.holderClone [.ref r] s fun v? s' =>
      s'.fields this = s.fields this ∧ ∃ r', v? = some (.ref r') ∧
        (r' = .null ∨ rt.isInstance r' Names.holderInterface = true)

/-- A field of the object holds null or a holder. -/
def Runtime.HoldsHolder (rt : Runtime World) (this : Nat) (s : Store World) (ref : MemberRef) :
    Prop :=
  ∃ r, s.fields this ref = .ref r ∧ (r = .null ∨ rt.isInstance r Names.holderInterface = true)

end Machine

/-! ## The code of one class -/

namespace Plan

variable {World : Type} {rt : Runtime World} {this : Nat} {s : Store World} {p : Plan}
  {code rest : List Instruction} {locals : List (Option Value)}
  {Q : Option Value → Store World → List Event → Prop}

/-- Replacing the holder of an attribute, and what follows it. -/
theorem completes_cloneHolder {pre : List Instruction} {a : MappedAttribute} {skip : Label}
    (hcode : code = pre ++ (p.cloneHolder a skip ++ rest)) (hlabels : (boundLabels code).Nodup)
    (hthis : (locals[0]?).join = some (.ref (.object this))) (hcopies : rt.CopiesHolders this)
    (htyped : rt.HoldsHolder this s (rt.field (p.holderRef a)))
    (hrest : ∀ s' events, Renewed this [rt.field (p.holderRef a)] [] s s' events →
      rt.Completes ⟨code, rest, locals, []⟩ s' fun v? t events' => Q v? t (events ++ events')) :
    rt.Completes ⟨code, p.cloneHolder a skip ++ rest, locals, []⟩ s Q := by
  obtain ⟨r, hholder, hr⟩ := htyped
  have hsplit : ∃ start, code = start ++ mark skip :: rest := by
    refine ⟨pre ++ (p.cloneHolder a skip).dropLast, ?_⟩
    rw [hcode]
    simp [cloneHolder]
  obtain ⟨start, hstart⟩ := hsplit
  have hmark := dropWhile_ne_mark (hstart ▸ hlabels)
  rw [← hstart] at hmark
  have hfield : s.fields this (rt.field ⟨p.className, Names.holderField a.name,
      Names.holderInterfaceDesc⟩) = .ref r := hholder
  simp only [cloneHolder, List.cons_append, List.nil_append, Runtime.completes_aload]
  refine ⟨_, hthis, ?_⟩
  rw [Runtime.completes_getField, hfield]
  by_cases hnull : r = .null
  · have htest : test? .ifnull [.ref r] = some (true, []) := by simp [test?, hnull]
    rw [Runtime.completes_jump_of_true htest hmark, Runtime.completes_mark]
    exact hrest s [] (.skip (hnull ▸ hholder))
  · have htest : test? .ifnull [.ref r] = some (false, []) := by simp [test?, hnull]
    rw [Runtime.completes_jump_of_false htest]
    simp only [Runtime.completes_aload]
    refine ⟨_, hthis, _, hthis, ?_⟩
    rw [Runtime.completes_getField, hfield]
    have hargs : arguments? .invokeinterface Names.objectGetter [.ref r, .ref (.object this)] =
        some ([.ref r], [.ref (.object this)]) := by simp [arguments?]
    refine Runtime.Completes.answer hargs (.inr (by simpa using hnull))
      (hcopies r s hnull (hr.resolve_left hnull)) ?_
    rintro v? s' ⟨hkeep, r', rfl, hr'⟩
    rw [Option.toList_some, List.singleton_append, Runtime.completes_checkCast hr',
      Runtime.completes_putField, Runtime.completes_mark]
    have hpresent : s.fields this (rt.field (p.holderRef a)) ≠ .ref .null := by
      rw [hholder]
      simpa using hnull
    have hrenewed := Renewed.copy (.ref r') s.fields hpresent hkeep
    rw [hholder] at hrenewed
    exact hrest _ _ hrenewed

/-- Replacing the holders of some attributes, and what follows. -/
theorem completes_cloneHolders {pre : List Instruction} {xs : List (MappedAttribute × Nat)}
    (hcode : code = pre ++ (xs.flatMap (fun x => p.cloneHolder x.1 (UInt32.ofNat x.2)) ++ rest))
    (hlabels : (boundLabels code).Nodup)
    (hthis : (locals[0]?).join = some (.ref (.object this))) (hcopies : rt.CopiesHolders this)
    (hdistinct : (xs.map fun x => rt.field (p.holderRef x.1)).Nodup)
    (htyped : ∀ x ∈ xs, rt.HoldsHolder this s (rt.field (p.holderRef x.1)))
    (hrest : ∀ s' events, Renewed this (xs.map fun x => rt.field (p.holderRef x.1)) [] s s' events →
      rt.Completes ⟨code, rest, locals, []⟩ s' fun v? t events' => Q v? t (events ++ events')) :
    rt.Completes ⟨code, xs.flatMap (fun x => p.cloneHolder x.1 (UInt32.ofNat x.2)) ++ rest, locals,
      []⟩ s Q := by
  induction xs generalizing pre s Q with
  | nil => exact hrest s [] .refl
  | cons x xs ih =>
    obtain ⟨hnew, hdistinct⟩ := List.nodup_cons.1 hdistinct
    obtain ⟨hx, htyped⟩ := List.forall_mem_cons.1 htyped
    rw [List.flatMap_cons, List.append_assoc] at hcode ⊢
    have hnext : code = (pre ++ p.cloneHolder x.1 (UInt32.ofNat x.2)) ++
        (xs.flatMap (fun y => p.cloneHolder y.1 (UInt32.ofNat y.2)) ++ rest) := by
      rw [hcode, List.append_assoc]
    refine completes_cloneHolder hcode hlabels hthis hcopies hx fun s₁ events h => ?_
    refine ih hnext hdistinct ?_ ?_
    · -- The other holders are still there.
      intro y hy
      obtain ⟨r, hholder, hr⟩ := htyped y hy
      refine ⟨r, ?_, hr⟩
      rw [h.kept _ ?_ List.not_mem_nil, hholder]
      exact fun hsame => hnew (List.mem_map.2 ⟨y, hy, List.mem_singleton.1 hsame⟩)
    · intro s' events' h'
      have hboth := h.append h' (by simpa using hnew) (by simp)
      have hcompletes := hrest s' (events ++ events') hboth
      simpa only [List.append_assoc] using hcompletes

/-- Clearing state, and what follows. -/
theorem completes_clearStates {fs : List StateField}
    (hthis : (locals[0]?).join = some (.ref (.object this)))
    (hrest : ∀ s', Renewed this [] (fs.map fun f => rt.field (p.stateRef f)) s s' [] →
      rt.Completes ⟨code, rest, locals, []⟩ s' Q) :
    rt.Completes ⟨code, fs.flatMap p.clearState ++ rest, locals, []⟩ s Q := by
  induction fs generalizing s with
  | nil => exact hrest s .refl
  | cons f fs ih =>
    rw [List.flatMap_cons, List.append_assoc]
    simp only [clearState, List.cons_append, List.nil_append, Runtime.completes_aload]
    refine ⟨_, hthis, ?_⟩
    rw [Runtime.completes_aconstNull, Runtime.completes_putField]
    exact ih fun s' h => hrest s' ((Renewed.clear _).append h (by simp) (by simp))

/-- What the method does of what the superclass declares. -/
def inheritedClone (p : Plan) : List Instruction :=
  if p.superclassInternal then
    [aload 0, invokeSpecial p.superName Names.postClone Names.objectGetter, simple .pop]
  else []

/-- What the method does of what the class declares. -/
def ownClone (p : Plan) : List Instruction :=
  p.lazyAttributes.zipIdx.flatMap (fun (a, i) => p.cloneHolder a (UInt32.ofNat i)) ++
    (p.ownState.flatMap p.clearState ++ [aload 0, simple .areturn])

theorem postClone_body (p : Plan) : p.postClone.body = p.inheritedClone ++ p.ownClone := by
  unfold postClone inheritedClone ownClone
  simp only [List.append_assoc]

/-- The labels of an emitted method are bound once. -/
theorem nodup_boundLabels_postClone (hnames : (p.ownAttributes.map MappedAttribute.name).Nodup)
    {thisClass : String} (hemitted : p.postClone.IsEmitted thisClass) :
    (boundLabels p.postClone.body).Nodup := by
  obtain ⟨pool, operands, pool', hpool, hs⟩ := hemitted.operands
  simp only [postClone, List.append_assoc _ _ [aload 0, simple .areturn]] at hs ⊢
  refine nodup_boundLabels_cloneHolders hnames ?_ ?_ hpool hs
  · split <;> rfl
  · unfold ownState
    split <;> split <;> split <;> rfl

end Plan

namespace Machine.Runtime

variable {World : Type}

/-- The fields of the holders of a class. -/
def holders (rt : Runtime World) (p : Plan) : List MemberRef :=
  p.lazyAttributes.map fun a => rt.field (p.holderRef a)

/-- The fields that a class clears. -/
def cleared (rt : Runtime World) (p : Plan) : List MemberRef :=
  p.ownState.map fun f => rt.field (p.stateRef f)

end Machine.Runtime

namespace Plan

variable {World : Type} {rt : Runtime World} {this : Nat} {s : Store World} {p : Plan}
  {Q : Option Value → Store World → List Event → Prop}

/-- What the method does of what the class declares: it renews the object and answers it. -/
theorem completes_ownClone (hlabels : (boundLabels p.postClone.body).Nodup)
    (hcopies : rt.CopiesHolders this) (hdistinct : (rt.holders p).Nodup)
    (hdisjoint : (rt.holders p).Disjoint (rt.cleared p))
    (htyped : ∀ ref ∈ rt.holders p, rt.HoldsHolder this s ref)
    (hQ : ∀ s' events, Renewed this (rt.holders p) (rt.cleared p) s s' events →
      Q (some (.ref (.object this))) s' events) :
    rt.Completes ⟨p.postClone.body, p.ownClone, [some (.ref (.object this))], []⟩ s Q := by
  have hthis : (([some (.ref (.object this))] : List (Option Value))[0]?).join =
      some (.ref (.object this)) := rfl
  have hzip : p.lazyAttributes.zipIdx.map (fun x => rt.field (p.holderRef x.1)) = rt.holders p := by
    unfold Runtime.holders
    conv_rhs => rw [← List.zipIdx_map_fst 0 p.lazyAttributes, List.map_map]
    rfl
  refine completes_cloneHolders p.postClone_body hlabels hthis hcopies (hzip ▸ hdistinct)
    (fun x hx => ?_) fun s₁ events h => ?_
  · refine htyped _ ?_
    rw [← hzip]
    exact List.mem_map_of_mem hx
  · refine completes_clearStates hthis fun s' h' => ?_
    change Renewed this [] (rt.cleared p) s₁ s' [] at h'
    rw [hzip] at h
    simp only [Runtime.completes_aload]
    refine ⟨_, hthis, ?_⟩
    rw [Runtime.completes_areturn]
    refine hQ s' _ ?_
    have hboth := h.append h' (by simp) (by simpa using hdisjoint)
    simpa only [List.append_nil, List.nil_append] using hboth

theorem completes_postClone_iff :
    rt.Completes (.enter p.postClone.body [.ref (.object this)]) s Q ↔
      rt.Completes ⟨p.postClone.body, p.inheritedClone ++ p.ownClone,
        [some (.ref (.object this))], []⟩ s Q := by
  rw [← postClone_body]
  rfl

/-- State that belongs to one object alone, apart from the cache key. -/
def backReferences : List StateField := [.listener, .fetchGroup, .session, .primaryKey]

theorem mem_backReferences {f : StateField} (hf : f ∈ p.ownState) : f ∈ backReferences := by
  unfold ownState at hf
  unfold backReferences
  simp only [List.mem_append, List.mem_ite_nil_left, List.mem_ite_nil_right, List.mem_cons,
    List.not_mem_nil, or_false] at hf ⊢
  tauto

end Plan

namespace Plan

variable {p : Plan} {f : StateField} {g : FieldDecl}

/-- Only a plan with fetch groups adds the state of one. -/
theorem fetchGroups_of_mem (h : .field g ∈ p.members)
    (hname : g.name = StateField.fetchGroup.name ∨ g.name = StateField.session.name) :
    p.mapped.fetchGroups = true := by
  have hlast : g.name.toList.getLast? ≠ some 'h' := by
    rcases hname with hname | hname <;> rw [hname] <;> decide
  have hother : ∀ f ∈ [StateField.primaryKey, .cacheKey, .listener, .relationships, .href, .links],
      f.name ≠ g.name := by
    rcases hname with hname | hname <;> rw [hname] <;> decide +kernel
  -- Every other kind of member has fields of other names.
  rcases mem_members.1 h with ⟨-, h⟩ | ⟨a, -, h⟩ | ⟨-, h⟩ | ⟨hg, -⟩ | ⟨-, h⟩
  · obtain ⟨f, hf, hsame⟩ := exists_state _ p.fieldNames_internalMembers h
    rw [List.mem_ite_nil_right] at hf
    exact absurd hsame (hother f (List.mem_append_left [_, _, _, _] hf.2))
  · have hmem := MemberDecl.mem_fieldsOf.2 h
    rw [fieldsOf_attributeMembers, List.mem_ite_nil_right] at hmem
    have hholder : Names.holderField a.name = g.name :=
      congrArg FieldDecl.name (List.mem_singleton.1 hmem.2).symm
    exact absurd hholder (Names.holderField_ne hlast a.name)
  · obtain ⟨f, hf, hsame⟩ := exists_state [.listener] rfl h
    exact absurd hsame (hother f (List.mem_singleton.1 hf ▸ by simp))
  · exact hg.1
  · obtain ⟨f, hf, hsame⟩ := exists_state [.relationships, .href, .links] rfl h
    exact absurd hsame (hother f (List.mem_append_right [_, _, _] hf))

/-- A field that a plan provides for state of one object is cleared by its class. -/
theorem mem_ownState_of_provides (hf : f ∈ backReferences)
    (h : p.Provides (.field (p.stateRef f))) : f ∈ p.ownState := by
  obtain ⟨g, hg, hname, -⟩ := h
  unfold ownState
  simp only [backReferences, List.mem_cons, List.not_mem_nil, or_false] at hf
  rcases hf with rfl | rfl | rfl | rfl
  · have hlistener : g.name ∈ listenerNames := by
      rw [hname]
      exact List.mem_cons_self
    have howns := ownsListener_of_mem (d := .field g) hg hlistener
    unfold ownsListener at howns
    simp [(Bool.and_eq_true_iff.1 howns).1]
  · simp [fetchGroups_of_mem hg (.inl hname)]
  · simp [fetchGroups_of_mem hg (.inr hname)]
  · simp [((fieldPlace hg).primaryKey hname).2.2]

end Plan

theorem Model.Validated.internal_of_mem {m : Model} (hm : m.Validated) {c : MappedClass}
    (hc : c ∈ m.classes) (hinternal : c.internal = true) : ∀ d ∈ m.lineage c, d.internal = true :=
  hm.inherited (fun d hd parent hparent => (hm.capabilities d hd parent hparent).1) hc hinternal

/-! ## The classes of an object -/

variable {World : Type}

/-- The classes of a lineage are woven.  The methods that finish a clone were emitted, a call to the
superclass arrives at the one of the superclass, and a reference to a field of a class is to the field
that the class or else its superclass declares. -/
structure Machine.Runtime.Clones (rt : Runtime World) (context : Context) (m : Model)
    (c : MappedClass) (data : MappedClass → Bytes) (input output : MappedClass → ClassFile)
    (plan : MappedClass → Plan) : Prop where
  woven : context.WovenLineage m c data input output
  planned : ∀ d ∈ m.lineage c, ∃ existing,
    Context.PlanOf context m data input output d existing (plan d)
  emitted : ∀ d ∈ m.lineage c, (plan d).postClone.IsEmitted d.name
  inherited : ∀ d ∈ m.lineage c, ∀ e, m.superclassOf? d = some e → ∀ args,
    rt.body? .invokespecial ⟨(plan d).superName, Names.postClone, Names.objectGetter⟩ args =
      some (plan e).postClone.body
  declared : ∀ d ∈ m.lineage c, ∀ name descriptor,
    (output d).Declares (.field ⟨d.name, name, descriptor⟩) →
      rt.field ⟨d.name, name, descriptor⟩ = ⟨d.name, name, descriptor⟩
  undeclared : ∀ d ∈ m.lineage c, ∀ e, m.superclassOf? d = some e → ∀ name descriptor,
    ¬(output d).Declares (.field ⟨d.name, name, descriptor⟩) →
      rt.field ⟨d.name, name, descriptor⟩ = rt.field ⟨e.name, name, descriptor⟩

namespace Machine.Runtime

/-- The fields of the holders that the classes of an object declare, those of the root first. -/
def lineageHolders (rt : Runtime World) (m : Model) (plan : MappedClass → Plan) (c : MappedClass) :
    List MemberRef :=
  (m.lineage c).reverse.flatMap fun d => rt.holders (plan d)

/-- The fields that the classes of an object clear. -/
def lineageCleared (rt : Runtime World) (m : Model) (plan : MappedClass → Plan) (c : MappedClass) :
    List MemberRef :=
  (m.lineage c).reverse.flatMap fun d => rt.cleared (plan d)

namespace Clones

variable {rt : Runtime World} {context : Context} {m : Model} {c d e : MappedClass}
  {data : MappedClass → Bytes} {input output : MappedClass → ClassFile}
  {plan : MappedClass → Plan} {ref : MemberRef} {f : StateField} {a : MappedAttribute}

theorem mapped_eq (h : rt.Clones context m c data input output plan) (hd : d ∈ m.lineage c) :
    (plan d).mapped = d := by
  obtain ⟨existing, hp⟩ := h.planned d hd
  exact hp.mapped

theorem className_eq (h : rt.Clones context m c data input output plan) (hd : d ∈ m.lineage c) :
    (plan d).className = d.name := by
  unfold Plan.className
  rw [h.mapped_eq hd]

theorem stateRef_eq (h : rt.Clones context m c data input output plan) (hd : d ∈ m.lineage c)
    (f : StateField) : (plan d).stateRef f = ⟨d.name, f.name, f.type.text⟩ := by
  unfold Plan.stateRef
  rw [h.className_eq hd]

/-- What holds for a class holds for its ancestors. -/
theorem of_mem (h : rt.Clones context m c data input output plan) (hm : m.Validated)
    (hc : c ∈ m.classes) (hd : d ∈ m.lineage c) :
    rt.Clones context m d data input output plan := by
  have hsub := (hm.lineage_closed hc d hd).2
  exact
    { woven := h.woven.of_mem hm hc hd
      planned := fun e he => h.planned e (hsub e he)
      emitted := fun e he => h.emitted e (hsub e he)
      inherited := fun e he => h.inherited e (hsub e he)
      declared := fun e he => h.declared e (hsub e he)
      undeclared := fun e he => h.undeclared e (hsub e he) }

/-! ### Fields -/

/-- The field of a holder is one of the class itself. -/
theorem holder_eq (h : rt.Clones context m c data input output plan) (hd : d ∈ m.lineage c)
    (ha : a ∈ (plan d).lazyAttributes) :
    rt.field ((plan d).holderRef a) = (plan d).holderRef a := by
  obtain ⟨existing, hp⟩ := h.planned d hd
  have hdeclares := hp.declares (Plan.provides_field (Plan.holderField_mem ha) d.name)
  have heq := h.declared d hd _ _ hdeclares
  unfold Plan.holderRef
  rw [h.className_eq hd]
  exact heq

theorem mem_lineageHolders (h : rt.Clones context m c data input output plan) :
    ref ∈ rt.lineageHolders m plan c ↔
      ∃ d ∈ m.lineage c, ∃ a ∈ (plan d).lazyAttributes, ref = (plan d).holderRef a := by
  unfold lineageHolders holders
  simp only [List.mem_flatMap, List.mem_reverse, List.mem_map]
  constructor
  · rintro ⟨d, hd, a, ha, rfl⟩
    exact ⟨d, hd, a, ha, h.holder_eq hd ha⟩
  · rintro ⟨d, hd, a, ha, rfl⟩
    exact ⟨d, hd, a, ha, h.holder_eq hd ha⟩

/-- A reference to a field that a class of the lineage declares is to the first such field. -/
theorem exists_declared (h : rt.Clones context m c data input output plan) (hm : m.Validated)
    (hc : c ∈ m.classes) {name descriptor : String}
    (hdeclared : ∃ d ∈ m.lineage c, (output d).Declares (.field ⟨c.name, name, descriptor⟩)) :
    ∃ d ∈ m.lineage c, (output d).Declares (.field ⟨d.name, name, descriptor⟩) ∧
      rt.field ⟨c.name, name, descriptor⟩ = ⟨d.name, name, descriptor⟩ := by
  revert h hdeclared
  refine hm.induction (fun c hc hroot => ?_) (fun c hc e he hparent ih => ?_) hc
  · rintro h ⟨d, hd, hdeclares⟩
    rw [Model.lineage_of_root hroot, List.mem_singleton] at hd
    subst hd
    exact ⟨d, m.mem_lineage_self d, hdeclares, h.declared d (m.mem_lineage_self d) _ _ hdeclares⟩
  · rintro h ⟨d, hd, hdeclares⟩
    have hlineage := hm.lineage_of_superclass hc hparent
    by_cases hself : (output c).Declares (.field ⟨c.name, name, descriptor⟩)
    · exact ⟨c, m.mem_lineage_self c, hself, h.declared c (m.mem_lineage_self c) _ _ hself⟩
    · rw [hlineage] at hd
      rcases List.mem_cons.1 hd with rfl | hd
      · exact absurd hdeclares hself
      have hmem := List.mem_cons_of_mem c (m.mem_lineage_self e)
      have hsuper := h.of_mem hm hc (d := e) (hlineage ▸ hmem)
      obtain ⟨d', hd', hdeclares', hfield⟩ := ih hsuper ⟨d, hd, hdeclares⟩
      refine ⟨d', hlineage ▸ List.mem_cons_of_mem _ hd', hdeclares', ?_⟩
      rw [h.undeclared c (m.mem_lineage_self c) e hparent _ _ hself, hfield]

/-- What is cleared is a field that a class of the lineage declares for state of one object. -/
theorem of_mem_lineageCleared (h : rt.Clones context m c data input output plan) (hm : m.Validated)
    (hc : c ∈ m.classes) (hinternal : c.internal = true)
    (huniform : ∀ d ∈ m.lineage c, d.embeddable = c.embeddable)
    (href : ref ∈ rt.lineageCleared m plan c) :
    ∃ d ∈ m.lineage c, ∃ f ∈ Plan.backReferences, ref = (plan d).stateRef f ∧
      (output d).Declares (.field ref) := by
  unfold lineageCleared cleared at href
  simp only [List.mem_flatMap, List.mem_reverse, List.mem_map] at href
  obtain ⟨d, hd, f, hf, rfl⟩ := href
  obtain ⟨existing, hp⟩ := h.planned d hd
  obtain ⟨hdmem, hsub⟩ := hm.lineage_closed hc d hd
  have hself := h.of_mem hm hc hd
  have hdeclared : ∃ e ∈ m.lineage d,
      (output e).Declares (.field ⟨d.name, f.name, f.type.text⟩) := by
    rcases hself.woven.declared_or_primaryKey hm hdmem hp hf with hdeclared | ⟨rfl, hentity⟩
    · exact hdeclared
    · have hresolves := (hself.woven.primaryKey_resolves_iff hm hdmem
        (hm.internal_of_mem hc hinternal d hd)).2 fun hroot => by
          have hrootmem := hsub _ (hm.rootOf_spec hdmem).1
          rw [huniform _ hrootmem, ← huniform d hd, hentity] at hroot
          cases hroot
      simpa [Context.Resolves, Reference.primaryKey, Reference.ref] using hresolves
  obtain ⟨e, he, hdeclares, hfield⟩ := hself.exists_declared hm hdmem hdeclared
  rw [h.stateRef_eq hd, hfield]
  exact ⟨e, hsub e he, f, Plan.mem_backReferences hf, (h.stateRef_eq (hsub e he) f).symm, hdeclares⟩

/-- What the plan of a class provides for state of one object is cleared. -/
theorem mem_lineageCleared (h : rt.Clones context m c data input output plan)
    (hd : d ∈ m.lineage c) (hf : f ∈ Plan.backReferences)
    (hprovides : (plan d).Provides (.field ((plan d).stateRef f))) :
    (plan d).stateRef f ∈ rt.lineageCleared m plan c := by
  obtain ⟨existing, hp⟩ := h.planned d hd
  have hdeclares := hp.declares hprovides
  rw [h.stateRef_eq hd] at hdeclares
  refine List.mem_flatMap.2 ⟨d, List.mem_reverse.2 hd, List.mem_map.2
    ⟨f, Plan.mem_ownState_of_provides hf hprovides, ?_⟩⟩
  rw [h.stateRef_eq hd]
  exact h.declared d hd _ _ hdeclares

/-- Holders are not cleared. -/
theorem disjoint_lineage (h : rt.Clones context m c data input output plan) (hm : m.Validated)
    (hc : c ∈ m.classes) (hinternal : c.internal = true)
    (huniform : ∀ d ∈ m.lineage c, d.embeddable = c.embeddable) :
    (rt.lineageHolders m plan c).Disjoint (rt.lineageCleared m plan c) := by
  have hlast : ∀ f ∈ Plan.backReferences, f.name.toList.getLast? ≠ some 'h' := by decide +kernel
  intro ref hholder hcleared
  obtain ⟨d, -, a, -, rfl⟩ := h.mem_lineageHolders.1 hholder
  obtain ⟨e, -, f, hf, hsame, -⟩ := h.of_mem_lineageCleared hm hc hinternal huniform hcleared
  exact Names.holderField_ne (hlast f hf) a.name (congrArg MemberRef.name hsame)

/-- The holders of a class are not those of its superclasses. -/
theorem disjoint_holders (h : rt.Clones context m c data input output plan) (hm : m.Validated)
    (hc : c ∈ m.classes) (hparent : m.superclassOf? c = some e) :
    (rt.lineageHolders m plan e).Disjoint (rt.holders (plan c)) := by
  have hlineage := hm.lineage_of_superclass hc hparent
  have he : e ∈ m.lineage c := hlineage ▸ List.mem_cons_of_mem _ (m.mem_lineage_self e)
  intro ref hold hown
  obtain ⟨d, hd, a, -, rfl⟩ := (h.of_mem hm hc he).mem_lineageHolders.1 hold
  obtain ⟨b, hb, hsame⟩ := List.mem_map.1 hown
  have hd' : d ∈ m.lineage c := hlineage ▸ List.mem_cons_of_mem _ hd
  rw [h.holder_eq (m.mem_lineage_self c) hb] at hsame
  have hname := congrArg MemberRef.owner hsame
  unfold Plan.holderRef at hname
  dsimp only at hname
  rw [h.className_eq (m.mem_lineage_self c), h.className_eq hd'] at hname
  -- Classes of one name are one class, and no class is its own ancestor.
  obtain rfl : c = d :=
    List.inj_on_of_nodup_map hm.classNames hc (hm.lineage_closed hc d hd').1 hname
  have hnodup := (hm.completeWalk hc).nodup
  change (m.lineage c).Nodup at hnodup
  rw [hlineage] at hnodup
  exact (List.nodup_cons.1 hnodup).1 hd

theorem nodup_holders (h : rt.Clones context m c data input output plan) (hm : m.Validated)
    (hc : c ∈ m.classes) (hd : d ∈ m.lineage c) : (rt.holders (plan d)).Nodup := by
  have hnames : ((plan d).lazyAttributes.map MappedAttribute.name).Nodup := by
    unfold Plan.lazyAttributes Plan.ownAttributes
    rw [h.mapped_eq hd]
    exact (hm.attributeNames d (hm.lineage_closed hc d hd).1).sublist
      ((List.filter_sublist.trans List.filter_sublist).map _)
  unfold holders
  rw [List.map_congr_left fun a ha => h.holder_eq hd ha]
  refine List.Nodup.of_map MemberRef.name ?_
  rw [List.map_map]
  have hmap := hnames.map (f := Names.holderField) fun _ _ => Names.holderField_inj.1
  rwa [List.map_map] at hmap

/-! ### Running the method -/

theorem lineageHolders_of_superclass (rt : Runtime World) (plan : MappedClass → Plan)
    (hm : m.Validated) (hc : c ∈ m.classes) (hparent : m.superclassOf? c = some e) :
    rt.lineageHolders m plan c = rt.lineageHolders m plan e ++ rt.holders (plan c) := by
  unfold lineageHolders
  rw [hm.lineage_of_superclass hc hparent, List.reverse_cons, List.flatMap_append]
  simp

theorem lineageCleared_of_superclass (rt : Runtime World) (plan : MappedClass → Plan)
    (hm : m.Validated) (hc : c ∈ m.classes) (hparent : m.superclassOf? c = some e) :
    rt.lineageCleared m plan c = rt.lineageCleared m plan e ++ rt.cleared (plan c) := by
  unfold lineageCleared
  rw [hm.lineage_of_superclass hc hparent, List.reverse_cons, List.flatMap_append]
  simp

theorem superclassInternal_eq (h : rt.Clones context m c data input output plan) :
    (plan c).superclassInternal = (m.superclassOf? c).any MappedClass.internal := by
  obtain ⟨existing, hp⟩ := h.planned c (m.mem_lineage_self c)
  obtain ⟨superName, -, hmake⟩ := hp.planned.planned
  obtain ⟨-, hplan⟩ := Plan.make_eq_ok hmake
  rw [hplan]

theorem nodup_boundLabels (h : rt.Clones context m c data input output plan) (hm : m.Validated)
    (hc : c ∈ m.classes) : (boundLabels (plan c).postClone.body).Nodup := by
  refine Plan.nodup_boundLabels_postClone ?_ (h.emitted c (m.mem_lineage_self c))
  unfold Plan.ownAttributes
  rw [h.mapped_eq (m.mem_lineage_self c)]
  exact (hm.attributeNames c hc).sublist (List.filter_sublist.map _)

variable {this : Nat} {s : Store World}

/-- The method renews the object, the fields of the superclasses first, and answers it. -/
theorem completes_postClone (hm : m.Validated) (hc : c ∈ m.classes) (hinternal : c.internal = true)
    (huniform : ∀ d ∈ m.lineage c, d.embeddable = c.embeddable)
    (h : rt.Clones context m c data input output plan) (hcopies : rt.CopiesHolders this)
    (htyped : ∀ ref ∈ rt.lineageHolders m plan c, rt.HoldsHolder this s ref) :
    rt.Completes (.enter (plan c).postClone.body [.ref (.object this)]) s fun v? s' events =>
      v? = some (.ref (.object this)) ∧
        Renewed this (rt.lineageHolders m plan c) (rt.lineageCleared m plan c) s s' events := by
  revert hinternal huniform h htyped
  refine hm.induction (fun c hc hroot => ?_) (fun c hc e he hparent ih => ?_) hc
  · intro hinternal huniform h htyped
    have hlineage := Model.lineage_of_root (m := m) hroot
    have hnone : m.superclassOf? c = none := by
      unfold Model.superclassOf?
      rw [hroot]
      rfl
    have hinherited : (plan c).inheritedClone = [] := by
      simp [Plan.inheritedClone, h.superclassInternal_eq, hnone]
    have hholders : rt.lineageHolders m plan c = rt.holders (plan c) := by
      simp [lineageHolders, hlineage]
    have hcleared : rt.lineageCleared m plan c = rt.cleared (plan c) := by
      simp [lineageCleared, hlineage]
    have hdisjoint := h.disjoint_lineage hm hc hinternal huniform
    rw [hholders, hcleared] at hdisjoint ⊢
    rw [hholders] at htyped
    rw [Plan.completes_postClone_iff, hinherited, List.nil_append]
    exact Plan.completes_ownClone (h.nodup_boundLabels hm hc) hcopies
      (h.nodup_holders hm hc (m.mem_lineage_self c)) hdisjoint htyped
      fun s' events hrenewed => ⟨rfl, hrenewed⟩
  · intro hinternal huniform h htyped
    have hsub : ∀ d ∈ m.lineage e, d ∈ m.lineage c := fun d hd => by
      rw [hm.lineage_of_superclass hc hparent]
      exact List.mem_cons_of_mem _ hd
    have hemem := hsub e (m.mem_lineage_self e)
    have heinternal := hm.internal_of_mem hc hinternal e hemem
    have hinherited : (plan c).inheritedClone = [aload 0,
        invokeSpecial (plan c).superName Names.postClone Names.objectGetter, simple .pop] := by
      simp [Plan.inheritedClone, h.superclassInternal_eq, hparent, heinternal]
    have hdisjoint := h.disjoint_lineage hm hc hinternal huniform
    rw [lineageHolders_of_superclass rt plan hm hc hparent] at htyped hdisjoint ⊢
    rw [lineageCleared_of_superclass rt plan hm hc hparent] at hdisjoint ⊢
    have hold := h.disjoint_holders hm hc hparent
    have hsuper := ih heinternal (fun d hd => (huniform d (hsub d hd)).trans (huniform e hemem).symm)
      (h.of_mem hm hc hemem) fun ref href => htyped ref (List.mem_append_left _ href)
    have hargs : arguments? .invokespecial Names.objectGetter [.ref (.object this)] =
        some ([.ref (.object this)], []) := by simp [arguments?]
    rw [Plan.completes_postClone_iff, hinherited]
    simp only [List.cons_append, List.nil_append, Runtime.completes_aload]
    refine ⟨_, rfl, Runtime.Completes.invoke hargs (.inr (by simp)) ?_⟩
    rw [Runtime.invokes_of_body (h.inherited c (m.mem_lineage_self c) e hparent _)]
    refine hsuper.mono ?_
    rintro v? s₁ events ⟨rfl, hrenewed⟩
    rw [Option.toList_some, List.singleton_append, Runtime.completes_pop]
    refine Plan.completes_ownClone (h.nodup_boundLabels hm hc) hcopies
      (h.nodup_holders hm hc (m.mem_lineage_self c)) ?_ (fun ref href => ?_) fun s' events' hown => ?_
    · exact fun ref hholder hcleared =>
        hdisjoint (List.mem_append_right _ hholder) (List.mem_append_right _ hcleared)
    · -- The superclasses left the holders of the class as they were.
      obtain ⟨r, hr, htype⟩ := htyped ref (List.mem_append_right _ href)
      refine ⟨r, ?_, htype⟩
      rw [hrenewed.kept ref (fun hmem => hold hmem href) fun hcleared =>
        hdisjoint (List.mem_append_right _ href) (List.mem_append_left _ hcleared), hr]
    · exact ⟨rfl, hrenewed.append hown hold hdisjoint⟩

end Clones

end Machine.Runtime

/-! ## What a clone shares -/

/-- The fields of the holders that the classes of an object declare, those of the root first. -/
def Model.holderRefs (m : Model) (plan : MappedClass → Plan) (c : MappedClass) : List MemberRef :=
  (m.lineage c).reverse.flatMap fun d => (plan d).lazyAttributes.map (plan d).holderRef

namespace Machine

/-- The clone keeps none of the holders of the original, and none of the state of one object that the
plans of its classes provide, but for the cache key.  Each holder that there is answers its own copy,
in order, and nothing else is called. -/
structure CloneOutcome (m : Model) (plan : MappedClass → Plan) (output : MappedClass → ClassFile)
    (c : MappedClass) (this : Nat) (s : Store World) (v? : Option Value) (s' : Store World)
    (events : List Event) : Prop where
  answer : v? = some (.ref (.object this))
  copied : events.map Event.outline =
    ((m.holderRefs plan c).filter fun ref => s.fields this ref ≠ .ref .null).map fun ref =>
      (Names.holderClone, [s.fields this ref], some (s'.fields this ref))
  absent : ∀ ref ∈ m.holderRefs plan c,
    s.fields this ref = .ref .null → s'.fields this ref = .ref .null
  null : ∀ d ∈ m.lineage c, ∀ f ∈ Plan.backReferences,
    (plan d).Provides (.field ((plan d).stateRef f)) →
      s'.fields this ((plan d).stateRef f) = .ref .null
  kept : ∀ ref, ref ∉ m.holderRefs plan c →
    (∀ d ∈ m.lineage c, ∀ f ∈ Plan.backReferences, ref = (plan d).stateRef f →
      ¬(output d).Declares (.field ref)) → s'.fields this ref = s.fields this ref
  cacheKey : ∀ d ∈ m.lineage c, s'.fields this ((plan d).stateRef .cacheKey) =
    s.fields this ((plan d).stateRef .cacheKey)

namespace Runtime.Clones

variable {rt : Runtime World} {context : Context} {m : Model} {c : MappedClass}
  {data : MappedClass → Bytes} {input output : MappedClass → ClassFile}
  {plan : MappedClass → Plan} {this : Nat} {s : Store World}

/-- References to holders are to the fields of the classes that declare them. -/
theorem lineageHolders_eq (h : rt.Clones context m c data input output plan) :
    rt.lineageHolders m plan c = m.holderRefs plan c := by
  unfold lineageHolders Model.holderRefs
  refine List.flatMap_congr fun d hd => List.map_congr_left fun a ha => ?_
  exact h.holder_eq (List.mem_reverse.1 hd) ha

/-- Finishing a shallow clone of an object of a class for internal use, whose hierarchy is one of
embeddables or has none, replaces the holders of all its classes and clears the listener, the fetch
group, the session and the primary key.  Everything else is kept, the cache key too. -/
theorem postClone_renews {classes : List MappedClass} (hmodel : Model.ofClasses classes = .ok m)
    (hc : c ∈ m.classes) (hinternal : c.internal = true)
    (huniform : ∀ d ∈ m.lineage c, d.embeddable = c.embeddable)
    (h : rt.Clones context m c data input output plan) (hcopies : rt.CopiesHolders this)
    (htyped : ∀ ref ∈ m.holderRefs plan c, rt.HoldsHolder this s ref) :
    rt.Completes (.enter (plan c).postClone.body [.ref (.object this)]) s
      (CloneOutcome m plan output c this s) := by
  have hm := Model.validated_of_ofClasses hmodel
  have hholders := h.lineageHolders_eq
  have hcleared : ∀ ref ∈ rt.lineageCleared m plan c, ∃ d ∈ m.lineage c,
      ∃ f ∈ Plan.backReferences, ref = (plan d).stateRef f ∧ (output d).Declares (.field ref) :=
    fun _ href => h.of_mem_lineageCleared hm hc hinternal huniform href
  refine (completes_postClone hm hc hinternal huniform h hcopies (hholders ▸ htyped)).mono ?_
  rintro v? s' events ⟨hanswer, hrenewed⟩
  rw [hholders] at hrenewed
  have hkept : ∀ ref, ref ∉ m.holderRefs plan c →
      (∀ d ∈ m.lineage c, ∀ f ∈ Plan.backReferences, ref = (plan d).stateRef f →
        ¬(output d).Declares (.field ref)) → s'.fields this ref = s.fields this ref := by
    intro ref hnot hother
    refine hrenewed.kept ref hnot fun href => ?_
    obtain ⟨d, hd, f, hf, hsame, hdeclares⟩ := hcleared ref href
    exact hother d hd f hf hsame hdeclares
  constructor
  case answer => exact hanswer
  case copied => exact hrenewed.copied
  case absent => exact hrenewed.absent
  case null =>
    intro d hd f hf hprovides
    exact hrenewed.null _ (h.mem_lineageCleared hd hf hprovides)
  case kept => exact hkept
  case cacheKey =>
    have hlast : StateField.cacheKey.name.toList.getLast? ≠ some 'h' := by decide
    have hname : ∀ f ∈ Plan.backReferences, StateField.cacheKey.name ≠ f.name := by decide +kernel
    intro d hd
    refine hkept _ (fun hmem => ?_) fun e _ f hf hsame => ?_
    · rw [← hholders] at hmem
      obtain ⟨e, -, a, -, hsame⟩ := h.mem_lineageHolders.1 hmem
      exact Names.holderField_ne hlast a.name (congrArg MemberRef.name hsame).symm
    · exact absurd (congrArg MemberRef.name hsame) (hname f hf)

end Runtime.Clones

end Machine

/-! ## A sample hierarchy -/

namespace Sample

/-- An entity with a lazy attribute that has accessors alone, and its subclass. -/
def clonedRoot : MappedClass :=
  { name := "R", internal := true, valueHolders := true
    attributes := [{ name := "x", type := .object "T", hasField := false, getter := some "g"
                     setter := some "h", valueHolders := true }] }

def clonedChild : MappedClass := { name := "S", superclass := some "R", internal := true }

def clonedFamily : Model := ⟨[clonedRoot, clonedChild]⟩

def clonedPlan (d : MappedClass) : Plan :=
  { mapped := d, superName := d.superclass.getD Names.object, changeTracking := false
    superclassTracksChanges := false, superclassInternal := d.superclass.isSome
    superclassConstructorOptimization := false, xmlTransient := Context.default.xmlTransient }

def clonedFile (d : MappedClass) : ClassFile :=
  match Context.default.extend clonedFamily (bareFile d).toBytes with
  | .ok (some (file, _)) => file
  | _ => bareFile d

open Classical in
/-- References to fields that the child does not declare are to those of the root, and a call of the
child's superclass arrives there. -/
noncomputable def clonedRuntime : Machine.Runtime Unit where
  body? _ r _ :=
    if r = ⟨"R", Names.postClone, Names.objectGetter⟩ then
      some (clonedPlan clonedRoot).postClone.body
    else none
  call? _ args s :=
    match args with
    | [.ref (.object id)] => some (some (.ref (.object (id + 100))), s)
    | _ => none
  field r :=
    if r.owner = "S" ∧ ¬(clonedFile clonedChild).Declares (.field r) then { r with owner := "R" }
    else r
  isInstance r _ :=
    match r with
    | .object _ => true
    | _ => false
  new? _ _ := none

/-- All fields of all objects are set. -/
def clonedStore : Store Unit where
  fields _ _ := .ref (.object 1)
  world := ()

theorem clonedRuntime_copiesHolders : clonedRuntime.CopiesHolders 0 := by
  have hother : Names.holderClone ≠ ⟨"R", Names.postClone, Names.objectGetter⟩ := by decide
  intro r s _ hinstance
  cases r with
  | object id =>
    have hbody : clonedRuntime.body? .invokeinterface Names.holderClone [.ref (.object id)] = none := by
      simp [clonedRuntime, hother]
    exact ⟨hbody, _, _, rfl, rfl, .object (id + 100), rfl, .inr rfl⟩
  | null => cases hinstance
  | string text => cases hinstance

theorem lineage_clonedChild : clonedFamily.lineage clonedChild = [clonedChild, clonedRoot] := by
  decide

theorem clonedFamily_woven :
    Context.default.WovenLineage clonedFamily clonedChild (fun c => (bareFile c).toBytes) bareFile
      clonedFile := by
  refine bare_woven (fun d o report h => ?_) (by decide +kernel) (by decide +kernel)
    (by decide +kernel) (by decide +kernel)
  unfold clonedFile
  rw [h]

theorem clonedRuntime_clones (hm : clonedFamily.Validated) :
    clonedRuntime.Clones Context.default clonedFamily clonedChild (fun c => (bareFile c).toBytes)
      bareFile clonedFile clonedPlan := by
  have hmem : ∀ d ∈ clonedFamily.lineage clonedChild, d = clonedChild ∨ d = clonedRoot := by
    rw [lineage_clonedChild]
    simp
  constructor
  case woven => exact clonedFamily_woven
  case planned =>
    have hmake : ∀ d ∈ [clonedChild, clonedRoot], ∃ superName,
        (bareFile d).superName = .ok superName ∧
          Plan.make d clonedFamily Context.default superName [] = .ok (clonedPlan d) := by
      decide +kernel
    intro d hd
    obtain ⟨existing, p, hp⟩ := clonedFamily_woven.exists_plan hm (by decide) hd
    obtain ⟨superName, hsuper, hplan⟩ := hp.planned.planned
    obtain ⟨superName', hsuper', hplan'⟩ := hmake d (lineage_clonedChild ▸ hd)
    obtain rfl := Except.ok.inj (hsuper.symm.trans hsuper')
    obtain rfl : existing = [] := Except.ok.inj (hp.planned.interfaces.symm.trans rfl)
    obtain rfl := Except.ok.inj (hplan.symm.trans hplan')
    exact ⟨[], hp⟩
  case emitted =>
    have hemits : ∀ d ∈ [clonedChild, clonedRoot],
        emits (clonedPlan d).postClone d.name = true := by
      decide +kernel
    rw [lineage_clonedChild]
    exact fun d hd => isEmitted_of_emits (hemits d hd)
  case inherited =>
    have hparent : ∀ d ∈ [clonedChild, clonedRoot], ∀ e ∈ clonedFamily.superclassOf? d,
        e = clonedRoot ∧ (clonedPlan d).superName = "R" := by decide +kernel
    rw [lineage_clonedChild]
    intro d hd e he args
    obtain ⟨rfl, hsuper⟩ := hparent d hd e he
    simp [clonedRuntime, hsuper]
  case declared =>
    have hroot : clonedRoot.name ≠ "S" := by decide
    intro d hd name descriptor hdeclares
    unfold clonedRuntime
    refine if_neg ?_
    rintro ⟨howner, hnot⟩
    rcases hmem d hd with rfl | rfl
    · exact hnot hdeclares
    · exact hroot howner
  case undeclared =>
    have hroot : clonedRoot.name ≠ "S" := by decide
    have hchild : clonedFamily.superclassOf? clonedChild = some clonedRoot := by decide
    have hnone : clonedFamily.superclassOf? clonedRoot = none := by decide
    intro d hd e he name descriptor hnot
    rcases hmem d hd with rfl | rfl
    · obtain rfl := Option.some.inj (hchild.symm.trans he)
      unfold clonedRuntime
      dsimp only
      rw [if_pos ⟨rfl, hnot⟩, if_neg fun h => hroot h.1]
      rfl
    · rw [hnone] at he
      cases he

end Sample

/-- The clone of an object of the child has its own holder and no primary key, but the cache key of the
original. -/
theorem Machine.Runtime.Clones.postClone_renews_sample :
    Sample.clonedRuntime.Completes
      (.enter (Sample.clonedPlan Sample.clonedChild).postClone.body [.ref (.object 0)])
      Sample.clonedStore fun v? s' events =>
        v? = some (.ref (.object 0)) ∧
        events.map Event.outline = [(Names.holderClone, [.ref (.object 1)],
          some (s'.fields 0 ⟨"R", "_persistence_x_vh", Names.holderInterfaceDesc⟩))] ∧
        s'.fields 0 ⟨"R", "_persistence_primaryKey", "Ljava/lang/Object;"⟩ = .ref .null ∧
        s'.fields 0 ((Sample.clonedPlan Sample.clonedRoot).stateRef .cacheKey) = .ref (.object 1) := by
  have hmodel : ∃ m, Model.ofClasses [Sample.clonedRoot, Sample.clonedChild] = .ok m ∧
      m = Sample.clonedFamily := by decide +kernel
  obtain ⟨m, hm, rfl⟩ := hmodel
  have hclones := Sample.clonedRuntime_clones (Model.validated_of_ofClasses hm)
  have hcompletes := postClone_renews hm (by decide) rfl (by decide) hclones
    Sample.clonedRuntime_copiesHolders (s := Sample.clonedStore)
    fun ref _ => ⟨.object 1, rfl, .inr rfl⟩
  have hroot : Sample.clonedRoot ∈ Sample.clonedFamily.lineage Sample.clonedChild := by decide
  refine hcompletes.mono fun v? s' events h => ⟨h.answer, h.copied, ?_, h.cacheKey _ hroot⟩
  exact h.null _ hroot .primaryKey (by decide) (Plan.provides_primaryKey rfl rfl rfl _)

end EntityLoom
