import EntityLoom.Model.Basic
import EntityLoom.Proofs.Outcomes
import Mathlib.Data.List.Nodup
import Mathlib.Data.List.Perm.Subperm

/-!
# Validated models

`Model.Validated` collects what the checks of a model promise, and `Model.ofClasses_eq_ok` says that
exactly the models that have it are accepted.  The check of circles is passed where no walk up comes
to a name twice, so that such a walk is shorter than the list of classes and ends before it meets its
bound (`Validated.length_ancestors_lt`).  In such a model the ancestors of a class are its superclass
and the ancestors of that (`Validated.ancestors_of_superclass`), and what holds of roots and passes
from a superclass to its subclasses holds of every class (`Validated.induction`).
-/

namespace EntityLoom.Model

variable {m : Model} {c parent : MappedClass}

/-- What the checks of a model promise. -/
structure Validated (m : Model) : Prop where
  classNames : (m.classes.map MappedClass.name).Nodup
  attributeNames : ∀ c ∈ m.classes, (c.attributes.map MappedAttribute.name).Nodup
  holders : ∀ c ∈ m.classes, ∀ a ∈ c.attributes, a.valueHolders →
    a.type.isPrimitive = false ∧ (a.isOwn → a.isReachable)
  superclass : ∀ c ∈ m.classes, ∀ s, c.superclass = some s → (m.get? s).isSome
  /-- No walk up from a class comes to a name twice. -/
  acyclic : ∀ c ∈ m.classes, ∀ n, ((c :: m.superclasses n c).map MappedClass.name).Nodup
  capabilities : ∀ c ∈ m.classes, ∀ parent, m.superclassOf? c = some parent →
    (c.internal → parent.internal) ∧ (c.fetchGroups → parent.fetchGroups) ∧ (c.rest → parent.rest)
  owners : ∀ c ∈ m.classes, ∀ a ∈ c.ownAttributes, ∀ ancestor ∈ m.ancestors c,
    ancestor.ownsAttribute a.name = false

/-! ## The checks -/

/-- Names that are new and then differ are those that differ from each other and are new. -/
theorem nodup_cons_notMem_iff {α : Type} {key : α → String} {x : α} {xs : List α}
    {seen : List String} (hx : key x ∉ seen) :
    ((x :: xs).map key).Nodup ∧ (∀ y ∈ x :: xs, key y ∉ seen) ↔
      (xs.map key).Nodup ∧ ∀ y ∈ xs, key y ∉ key x :: seen := by
  rw [List.map_cons, List.nodup_cons, List.forall_mem_cons]
  constructor
  · rintro ⟨⟨hnew, hnodup⟩, -, hunseen⟩
    refine ⟨hnodup, fun y hy hmem => ?_⟩
    rcases List.mem_cons.1 hmem with hsame | hseen
    · exact hnew (hsame ▸ List.mem_map_of_mem hy)
    · exact hunseen y hy hseen
  · rintro ⟨hnodup, hunseen⟩
    refine ⟨⟨fun hmem => ?_, hnodup⟩, hx, fun y hy hseen => ?_⟩
    · obtain ⟨y, hy, hname⟩ := List.mem_map.1 hmem
      exact hunseen y hy (hname ▸ List.mem_cons_self)
    · exact hunseen y hy (List.mem_cons_of_mem _ hseen)

theorem checkNames_eq_ok {seen : List String} {cs : List MappedClass} :
    checkNames seen cs = .ok () ↔
      (cs.map MappedClass.name).Nodup ∧ ∀ c ∈ cs, c.name ∉ seen := by
  induction cs generalizing seen with
  | nil => simp [checkNames]
  | cons c cs ih =>
    unfold checkNames
    by_cases hc : c.name ∈ seen
    · rw [if_pos hc]
      exact iff_of_false (by simp) fun h => h.2 c List.mem_cons_self hc
    · rw [if_neg hc, ih, nodup_cons_notMem_iff hc]

theorem checkAttributes_eq_ok {seen : List String} {as : List MappedAttribute} :
    checkAttributes c seen as = .ok () ↔
      ((as.map MappedAttribute.name).Nodup ∧ ∀ a ∈ as, a.name ∉ seen) ∧
        ∀ a ∈ as, a.valueHolders → a.type.isPrimitive = false ∧ (a.isOwn → a.isReachable) := by
  induction as generalizing seen with
  | nil => simp [checkAttributes]
  | cons a as ih =>
    unfold checkAttributes
    by_cases ha : a.name ∈ seen
    · rw [if_pos ha]
      exact iff_of_false (by simp) fun h => h.1.2 a List.mem_cons_self ha
    · rw [if_neg ha, nodup_cons_notMem_iff ha, List.forall_mem_cons]
      by_cases hprimitive : a.valueHolders && a.type.isPrimitive
      · rw [if_pos hprimitive]
        obtain ⟨hlazy, hprimitive⟩ := Bool.and_eq_true_iff.1 hprimitive
        refine iff_of_false (by simp) fun h => ?_
        rw [(h.2.1 hlazy).1] at hprimitive
        cases hprimitive
      · rw [if_neg hprimitive]
        by_cases hreach : a.valueHolders && a.isOwn && !a.isReachable
        · rw [if_pos hreach]
          simp only [Bool.and_eq_true, Bool.not_eq_true'] at hreach
          obtain ⟨⟨hlazy, hown⟩, hreach⟩ := hreach
          refine iff_of_false (by simp) fun h => ?_
          rw [(h.2.1 hlazy).2 hown] at hreach
          cases hreach
        · rw [if_neg hreach, ih]
          have hsound : a.valueHolders → a.type.isPrimitive = false ∧ (a.isOwn → a.isReachable) := by
            intro hlazy
            rw [hlazy] at hprimitive hreach
            exact ⟨by simpa using hprimitive, fun hown => by simpa [hown] using hreach⟩
          exact and_congr_right fun _ => (and_iff_right hsound).symm

theorem checkSuperclass_eq_ok :
    m.checkSuperclass c = .ok () ↔ ∀ s, c.superclass = some s → (m.get? s).isSome := by
  unfold checkSuperclass
  cases c.superclass with
  | none => simp
  | some s => by_cases hs : (m.get? s).isSome <;> simp [hs]

/-- A walk ends in front of the names visited exactly if it comes to none of them, and to no name
twice, however far it goes. -/
theorem walkEnds_iff {visited : List String} :
    m.walkEnds visited c = true ↔ ∀ n, ((m.superclasses n c).map MappedClass.name).Nodup ∧
      ∀ d ∈ m.superclasses n c, d.name ∉ visited := by
  induction visited, c using walkEnds.induct m with
  | case1 visited c hroot =>
    rw [walkEnds, hroot]
    simp [superclasses_of_none hroot]
  | case2 visited c parent hparent hseen =>
    have hfirst : parent ∈ m.superclasses 1 c := by
      rw [superclasses_of_some hparent]
      exact List.mem_cons_self
    rw [walkEnds, hparent]
    dsimp only
    rw [dif_pos hseen]
    exact iff_of_false (by simp) fun h => (h 1).2 parent hfirst hseen
  | case3 visited c parent hparent hnew ih =>
    rw [walkEnds, hparent]
    dsimp only
    rw [dif_neg hnew, ih]
    -- A walk from the class is one step, and then one from the superclass.
    constructor
    · intro h n
      cases n with
      | zero => simp [superclasses]
      | succ n =>
        rw [superclasses_of_some hparent]
        exact (nodup_cons_notMem_iff hnew).2 (h n)
    · intro h n
      have hnext := h (n + 1)
      rw [superclasses_of_some hparent] at hnext
      exact (nodup_cons_notMem_iff hnew).1 hnext

theorem checkAcyclic_eq_ok :
    m.checkAcyclic c = .ok () ↔
      ∀ n, ((c :: m.superclasses n c).map MappedClass.name).Nodup := by
  have hself : ∀ n, ((c :: m.superclasses n c).map MappedClass.name).Nodup ↔
      ((m.superclasses n c).map MappedClass.name).Nodup ∧
        ∀ d ∈ m.superclasses n c, d.name ∉ [c.name] := by
    intro n
    rw [← nodup_cons_notMem_iff List.not_mem_nil]
    simp
  unfold checkAcyclic
  simp only [hself, ← walkEnds_iff]
  cases m.walkEnds [c.name] c <;> simp

theorem checkCapability_eq_ok {capability : Capability} {has : MappedClass → Bool} {u : Unit} :
    checkCapability c parent capability has = .ok u ↔ (has c → has parent) := by
  unfold checkCapability
  by_cases hc : has c <;> by_cases hparent : has parent <;> simp [hc, hparent]

theorem checkCapabilities_eq_ok :
    m.checkCapabilities c = .ok () ↔ ∀ parent, m.superclassOf? c = some parent →
      (c.internal → parent.internal) ∧ (c.fetchGroups → parent.fetchGroups) ∧
        (c.rest → parent.rest) := by
  unfold checkCapabilities
  cases m.superclassOf? c with
  | none => simp
  | some parent => simp [bind_eq_ok, checkCapability_eq_ok]

theorem checkAttributeOwner_eq_ok {a : MappedAttribute} :
    m.checkAttributeOwner c a = .ok () ↔
      ∀ ancestor ∈ m.ancestors c, ancestor.ownsAttribute a.name = false := by
  unfold checkAttributeOwner
  cases hfound : (m.ancestors c).find? (·.ownsAttribute a.name) with
  | none => simpa using hfound
  | some ancestor =>
    have howns : ancestor.ownsAttribute a.name = true := by simpa using List.find?_some hfound
    refine iff_of_false (by simp) fun h => ?_
    rw [h ancestor (List.mem_of_find?_eq_some hfound)] at howns
    cases howns

/-- A model whose class names differ passes the other checks exactly if it is validated. -/
theorem check_eq_ok (hnames : (m.classes.map MappedClass.name).Nodup) :
    m.check = .ok () ↔ m.Validated := by
  unfold check
  simp only [check_bind_eq_ok, forM_eq_ok, checkAttributes_eq_ok, checkSuperclass_eq_ok,
    checkAcyclic_eq_ok, checkCapabilities_eq_ok, checkAttributeOwner_eq_ok]
  constructor
  · rintro ⟨hfirst, hacyclic, hsecond⟩
    constructor
    case classNames => exact hnames
    case attributeNames => exact fun c hc => (hfirst c hc).1.1.1
    case holders => exact fun c hc => (hfirst c hc).1.2
    case superclass => exact fun c hc => (hfirst c hc).2
    case acyclic => exact hacyclic
    case capabilities => exact fun c hc => (hsecond c hc).1
    case owners => exact fun c hc => (hsecond c hc).2
  · intro h
    refine ⟨fun c hc => ⟨⟨⟨h.attributeNames c hc, fun _ _ => List.not_mem_nil⟩, h.holders c hc⟩,
      h.superclass c hc⟩, h.acyclic, fun c hc => ⟨h.capabilities c hc, h.owners c hc⟩⟩

/-- A model holds the classes it is made of, normalized, and is accepted exactly if it is
validated. -/
theorem ofClasses_eq_ok {classes : List MappedClass} :
    ofClasses classes = .ok m ↔ m = ⟨classes.map MappedClass.normalized⟩ ∧ m.Validated := by
  unfold ofClasses
  simp only [check_bind_eq_ok, checkNames_eq_ok]
  constructor
  · rintro ⟨⟨hnames, -⟩, hcheck, h⟩
    cases h
    exact ⟨rfl, (check_eq_ok hnames).1 hcheck⟩
  · rintro ⟨rfl, h⟩
    exact ⟨⟨h.classNames, fun _ _ => List.not_mem_nil⟩, (check_eq_ok h.classNames).2 h, rfl⟩

/-- A model that is accepted has what its checks promise. -/
theorem validated_of_ofClasses {classes : List MappedClass} (h : ofClasses classes = .ok m) :
    m.Validated :=
  (ofClasses_eq_ok.1 h).2

/-! ## The hierarchy -/

/-- What is looked up by a key that no other item has is found. -/
theorem find?_eq_some_of_nodup {α : Type} {key : α → String} {xs : List α}
    (hkeys : (xs.map key).Nodup) {x : α} (hx : x ∈ xs) :
    xs.find? (fun y => key y = key x) = some x := by
  cases hfound : xs.find? (fun y => key y = key x) with
  | none => exact absurd (decide_eq_true rfl) (List.find?_eq_none.1 hfound x hx)
  | some y =>
    have hkey : key y = key x := by simpa using List.find?_some hfound
    rw [List.inj_on_of_nodup_map hkeys (List.mem_of_find?_eq_some hfound) hx hkey]

/-- The class that a validated model has under the name of one of its classes is that class. -/
theorem Validated.get?_name (h : m.Validated) (hc : c ∈ m.classes) : m.get? c.name = some c :=
  find?_eq_some_of_nodup h.classNames hc

theorem Validated.ownsAttribute_of_mem (h : m.Validated) (hc : c ∈ m.classes)
    {a : MappedAttribute} (ha : a ∈ c.ownAttributes) : c.ownsAttribute a.name = true := by
  obtain ⟨hmem, hown⟩ := List.mem_filter.1 ha
  have hfound : c.attribute? a.name = some a :=
    find?_eq_some_of_nodup (h.attributeNames c hc) hmem
  unfold MappedClass.ownsAttribute
  rw [hfound]
  exact hown

/-- A class of a validated model is a root, or its superclass is in the model. -/
theorem Validated.root_or_superclass (h : m.Validated) (hc : c ∈ m.classes) :
    c.superclass = none ∨ ∃ parent, m.superclassOf? c = some parent := by
  cases hs : c.superclass with
  | none => exact .inl rfl
  | some s =>
    obtain ⟨parent, hparent⟩ := Option.isSome_iff_exists.1 (h.superclass c hc s hs)
    exact .inr ⟨parent, superclassOf?_eq_some.2 ⟨s, hs, hparent⟩⟩

/-- A walk up from a class of a model stays in the model. -/
theorem walk_subset (hc : c ∈ m.classes) (n : Nat) : c :: m.superclasses n c ⊆ m.classes := by
  induction n generalizing c with
  | zero => simpa [superclasses] using hc
  | succ n ih =>
    rw [superclasses]
    split
    · simpa using hc
    · next parent hparent => exact List.cons_subset.2 ⟨hc, ih (mem_of_superclassOf? hparent)⟩

/-- A walk that does not come to a name twice has fewer steps than there are classes. -/
theorem length_superclasses_lt (hc : c ∈ m.classes) {n : Nat}
    (hnames : ((c :: m.superclasses n c).map MappedClass.name).Nodup) :
    (m.superclasses n c).length < m.classes.length := by
  have hle := (hnames.of_map.subperm (walk_subset hc n)).length_le
  rwa [List.length_cons] at hle

/-- The walk to the ancestors of a class of a validated model does not meet its bound. -/
theorem Validated.length_ancestors_lt (h : m.Validated) (hc : c ∈ m.classes) :
    (m.ancestors c).length < m.classes.length :=
  length_superclasses_lt hc (h.acyclic c hc _)

/-- A walk that ended early goes no further with more steps. -/
theorem superclasses_of_length_lt {n : Nat} (h : (m.superclasses n c).length < n) :
    m.superclasses (n + 1) c = m.superclasses n c := by
  induction n generalizing c with
  | zero => exact absurd h (Nat.not_lt_zero _)
  | succ n ih =>
    cases hparent : m.superclassOf? c with
    | none => rw [superclasses_of_none hparent, superclasses_of_none hparent]
    | some parent =>
      rw [superclasses_of_some hparent, List.length_cons] at h
      rw [superclasses_of_some hparent, superclasses_of_some hparent, ih (by omega)]

theorem ancestors_of_superclass_none (h : c.superclass = none) : m.ancestors c = [] := by
  have hnone : m.superclassOf? c = none := by
    unfold superclassOf?
    rw [h]
    rfl
  exact superclasses_of_none hnone _

/-- The ancestors of a class are its superclass and the ancestors of that. -/
theorem Validated.ancestors_of_superclass (h : m.Validated) (hc : c ∈ m.classes)
    (hparent : m.superclassOf? c = some parent) : m.ancestors c = parent :: m.ancestors parent := by
  have hshort := h.length_ancestors_lt hc
  unfold ancestors at hshort ⊢
  obtain ⟨n, hn⟩ : ∃ n, m.classes.length = n + 1 :=
    ⟨m.classes.length - 1, by have := List.length_pos_of_mem hc; omega⟩
  rw [hn] at hshort ⊢
  rw [superclasses_of_some hparent] at hshort ⊢
  rw [superclasses_of_length_lt]
  rw [List.length_cons] at hshort
  omega

/-- What holds of roots and passes from a superclass to its subclasses holds of every class. -/
@[elab_as_elim] theorem Validated.induction (h : m.Validated) {P : MappedClass → Prop}
    (root : ∀ c ∈ m.classes, c.superclass = none → P c)
    (child : ∀ c ∈ m.classes, ∀ parent ∈ m.classes, m.superclassOf? c = some parent →
      P parent → P c) (hc : c ∈ m.classes) : P c := by
  induction hlen : (m.ancestors c).length generalizing c with
  | zero =>
    rcases h.root_or_superclass hc with hroot | ⟨parent, hparent⟩
    · exact root c hc hroot
    · rw [h.ancestors_of_superclass hc hparent] at hlen
      cases hlen
  | succ n ih =>
    rcases h.root_or_superclass hc with hroot | ⟨parent, hparent⟩
    · exact root c hc hroot
    · rw [h.ancestors_of_superclass hc hparent] at hlen
      have hmem := mem_of_superclassOf? hparent
      exact child c hc parent hmem hparent (ih hmem (Nat.succ.inj hlen))

/-! ## Lineages -/

/-- A class and its ancestors, the class first and the root last. -/
def lineage (m : Model) (c : MappedClass) : List MappedClass := c :: m.ancestors c

/-- The root of the hierarchy of a class. -/
def rootOf (m : Model) (c : MappedClass) : MappedClass := (m.ancestors c).getLastD c

theorem mem_lineage_self (m : Model) (c : MappedClass) : c ∈ m.lineage c := List.mem_cons_self

theorem lineage_of_root (h : c.superclass = none) : m.lineage c = [c] := by
  unfold lineage
  rw [ancestors_of_superclass_none h]

theorem Validated.lineage_of_superclass (h : m.Validated) (hc : c ∈ m.classes)
    (hparent : m.superclassOf? c = some parent) : m.lineage c = c :: m.lineage parent := by
  unfold lineage
  rw [h.ancestors_of_superclass hc hparent]

variable {d e : MappedClass}

/-- The classes of a lineage are classes of the model, and their lineages are parts of it. -/
theorem Validated.lineage_closed (h : m.Validated) (hc : c ∈ m.classes) :
    ∀ d ∈ m.lineage c, d ∈ m.classes ∧ ∀ e ∈ m.lineage d, e ∈ m.lineage c := by
  refine h.induction (fun c hc hroot => ?_) (fun c hc parent _ hparent ih => ?_) hc
  · rw [lineage_of_root hroot]
    intro d hd
    obtain rfl := List.mem_singleton.1 hd
    rw [lineage_of_root hroot]
    exact ⟨hc, fun e he => he⟩
  · intro d hd
    rw [h.lineage_of_superclass hc hparent] at hd ⊢
    rcases List.mem_cons.1 hd with rfl | hd
    · rw [h.lineage_of_superclass hc hparent]
      exact ⟨hc, fun e he => he⟩
    · obtain ⟨hmem, hsub⟩ := ih d hd
      exact ⟨hmem, fun e he => List.mem_cons_of_mem _ (hsub e he)⟩

/-- What each class passes on to its superclass holds in the whole lineage. -/
theorem Validated.inherited (h : m.Validated) {P : MappedClass → Prop}
    (hup : ∀ c ∈ m.classes, ∀ parent, m.superclassOf? c = some parent → P c → P parent)
    (hc : c ∈ m.classes) (hP : P c) : ∀ d ∈ m.lineage c, P d := by
  suffices hall : P c → ∀ d ∈ m.lineage c, P d from hall hP
  refine h.induction (fun c hc hroot => ?_) (fun c hc parent _ hparent ih => ?_) hc
  · rw [lineage_of_root hroot]
    intro hP d hd
    exact List.mem_singleton.1 hd ▸ hP
  · rw [h.lineage_of_superclass hc hparent]
    intro hP d hd
    rcases List.mem_cons.1 hd with rfl | hd
    · exact hP
    · exact ih (hup c hc parent hparent hP) d hd

/-- The root is the one class of a lineage without a mapped superclass. -/
theorem Validated.rootOf_spec (h : m.Validated) (hc : c ∈ m.classes) :
    m.rootOf c ∈ m.lineage c ∧ (m.rootOf c).superclass = none ∧
      ∀ d ∈ m.lineage c, d.superclass = none → d = m.rootOf c := by
  refine h.induction (fun c hc hroot => ?_) (fun c hc parent _ hparent ih => ?_) hc
  · have hself : m.rootOf c = c := by
      unfold rootOf
      rw [ancestors_of_superclass_none hroot]
      rfl
    rw [lineage_of_root hroot, hself]
    exact ⟨List.mem_cons_self, hroot, fun d hd _ => List.mem_singleton.1 hd⟩
  · have hsame : m.rootOf c = m.rootOf parent := by
      unfold rootOf
      rw [h.ancestors_of_superclass hc hparent, List.getLastD_cons]
    obtain ⟨hmem, hroot, hunique⟩ := ih
    rw [h.lineage_of_superclass hc hparent, hsame]
    refine ⟨List.mem_cons_of_mem _ hmem, hroot, fun d hd hd' => ?_⟩
    rcases List.mem_cons.1 hd with rfl | hd
    · obtain ⟨s, hs, -⟩ := superclassOf?_eq_some.1 hparent
      rw [hd'] at hs
      cases hs
    · exact hunique d hd hd'

/-- Of two classes of a lineage one is an ancestor of the other. -/
theorem Validated.lineage_total (h : m.Validated) (hc : c ∈ m.classes) :
    ∀ d ∈ m.lineage c, ∀ e ∈ m.lineage c, d = e ∨ e ∈ m.ancestors d ∨ d ∈ m.ancestors e := by
  refine h.induction (fun c hc hroot => ?_) (fun c hc parent _ hparent ih => ?_) hc
  · rw [lineage_of_root hroot]
    intro d hd e he
    exact .inl ((List.mem_singleton.1 hd).trans (List.mem_singleton.1 he).symm)
  · have habove : m.ancestors c = m.lineage parent := h.ancestors_of_superclass hc hparent
    rw [h.lineage_of_superclass hc hparent]
    intro d hd e he
    rcases List.mem_cons.1 hd with rfl | hd'
    · rcases List.mem_cons.1 he with rfl | he'
      · exact .inl rfl
      · exact .inr (.inl (habove ▸ he'))
    · rcases List.mem_cons.1 he with rfl | he'
      · exact .inr (.inr (habove ▸ hd'))
      · exact ih d hd' e he'

/-- No two classes of a lineage have an attribute of the same name. -/
theorem Validated.ownAttributes_disjoint (h : m.Validated) (hc : c ∈ m.classes)
    (hd : d ∈ m.lineage c) (he : e ∈ m.lineage c) (hne : d ≠ e) {a b : MappedAttribute}
    (ha : a ∈ d.ownAttributes) (hb : b ∈ e.ownAttributes) : a.name ≠ b.name := by
  have hd' := (h.lineage_closed hc d hd).1
  have he' := (h.lineage_closed hc e he).1
  intro hname
  rcases h.lineage_total hc d hd e he with rfl | habove | habove
  · exact hne rfl
  · have hfree := h.owners d hd' a ha e habove
    rw [hname, h.ownsAttribute_of_mem he' hb] at hfree
    cases hfree
  · have hfree := h.owners e he' b hb d habove
    rw [← hname, h.ownsAttribute_of_mem hd' ha] at hfree
    cases hfree

/-! ## The first class that tracks changes -/

variable {t : MappedClass}

/-- The topmost class of a lineage that is to track changes. -/
def topTracker? (m : Model) (c : MappedClass) : Option MappedClass :=
  (m.lineage c).reverse.find? MappedClass.changeTracking

theorem ancestorTracksChanges_eq_false :
    m.ancestorTracksChanges c = false ↔ ∀ d ∈ m.ancestors c, d.changeTracking = false := by
  unfold ancestorTracksChanges
  simp

theorem topTracker?_eq_none :
    m.topTracker? c = none ↔ ∀ d ∈ m.lineage c, d.changeTracking = false := by
  unfold topTracker?
  simp

/-- Above a class that is to track changes, or in it, there is a topmost one. -/
theorem exists_topTracker (h : c.changeTracking = true) : ∃ t, m.topTracker? c = some t := by
  cases htop : m.topTracker? c with
  | some t => exact ⟨t, rfl⟩
  | none =>
    have hnone := topTracker?_eq_none.1 htop c (mem_lineage_self m c)
    rw [h] at hnone
    cases hnone

theorem mem_of_topTracker? (h : m.topTracker? c = some t) :
    t ∈ m.lineage c ∧ t.changeTracking = true := by
  unfold topTracker? at h
  exact ⟨List.mem_reverse.1 (List.mem_of_find?_eq_some h), List.find?_some h⟩

/-- No class above the topmost one that tracks changes does so. -/
theorem Validated.ancestorTracksChanges_topTracker (h : m.Validated) (hc : c ∈ m.classes)
    (ht : m.topTracker? c = some t) : m.ancestorTracksChanges t = false := by
  suffices hall : m.topTracker? c = some t → m.ancestorTracksChanges t = false from hall ht
  refine h.induction (fun c hc hroot => ?_) (fun c hc parent _ hparent ih => ?_) hc
  · intro ht
    have hmem := (mem_of_topTracker? ht).1
    rw [lineage_of_root hroot] at hmem
    obtain rfl := List.mem_singleton.1 hmem
    unfold ancestorTracksChanges
    rw [ancestors_of_superclass_none hroot]
    rfl
  · -- The search goes through the lineage of the superclass first.
    have hstep : m.topTracker? c =
        (m.topTracker? parent).or ([c].find? MappedClass.changeTracking) := by
      unfold topTracker?
      rw [h.lineage_of_superclass hc hparent, List.reverse_cons, List.find?_append]
    rw [hstep]
    intro ht
    cases htop : m.topTracker? parent with
    | some u =>
      rw [htop] at ht
      exact ih (htop.trans ht)
    | none =>
      rw [htop] at ht
      obtain rfl := List.mem_singleton.1 (List.mem_of_find?_eq_some ht)
      rw [ancestorTracksChanges_eq_false, h.ancestors_of_superclass hc hparent]
      exact topTracker?_eq_none.1 htop

/-- The topmost class of a lineage that tracks changes is the one that has none above it. -/
theorem Validated.topTracker?_eq_some (h : m.Validated) (hc : c ∈ m.classes) :
    m.topTracker? c = some t ↔
      t ∈ m.lineage c ∧ t.changeTracking = true ∧ m.ancestorTracksChanges t = false := by
  constructor
  · intro ht
    obtain ⟨hmem, htracks⟩ := mem_of_topTracker? ht
    exact ⟨hmem, htracks, h.ancestorTracksChanges_topTracker hc ht⟩
  · rintro ⟨hmem, htracks, hfirst⟩
    cases htop : m.topTracker? c with
    | none =>
      have hnone := topTracker?_eq_none.1 htop t hmem
      rw [htracks] at hnone
      cases hnone
    | some u =>
      obtain ⟨humem, hutracks⟩ := mem_of_topTracker? htop
      have hufirst := h.ancestorTracksChanges_topTracker hc htop
      rw [ancestorTracksChanges_eq_false] at hfirst hufirst
      -- Of two different ones each would be the first, but one is above the other.
      rcases h.lineage_total hc t hmem u humem with rfl | habove | habove
      · rfl
      · rw [hfirst u habove] at hutracks
        cases hutracks
      · rw [hufirst t habove] at htracks
        cases htracks

/-- A lineage has the first class that tracks changes in common with those of its classes that have
one. -/
theorem Validated.topTracker?_of_mem (h : m.Validated) (hc : c ∈ m.classes) (hd : d ∈ m.lineage c)
    (ht : m.topTracker? d = some t) : m.topTracker? c = some t := by
  obtain ⟨hd', hsub⟩ := h.lineage_closed hc d hd
  obtain ⟨hmem, htracks, hfirst⟩ := (h.topTracker?_eq_some hd').1 ht
  exact (h.topTracker?_eq_some hc).2 ⟨hsub t hmem, htracks, hfirst⟩

end EntityLoom.Model
