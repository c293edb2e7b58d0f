import EntityLoom.Proofs.Model.Validated
import Mathlib.Data.List.Chain
import Mathlib.Logic.Relation

/-!
# The walk to the ancestors

Which class is the superclass of another is said here by names alone (`SuperclassIn`), and the proper
ancestors of a class are the classes that chains of superclasses lead to (`AncestorIn`).  A model
walks up such a chain, but no further than it has classes, since the superclasses of a model that was
not checked may go in a circle.

Where no class is its own ancestor the bound is never met: a walk visits no class twice
(`nodup_superclasses`), so it is shorter than the list of classes.  `ancestors_complete` says what
that makes of the walk in every model that is accepted, and that capabilities go all the way up.
-/

namespace EntityLoom.Model

variable {m : Model} {cs : List MappedClass} {a c parent : MappedClass}

/-- One class is the superclass of another among the given classes. -/
def SuperclassIn (cs : List MappedClass) (c parent : MappedClass) : Prop :=
  parent ∈ cs ∧ c.superclass = some parent.name

/-- One class is an ancestor of another among the given classes: its superclass, or an ancestor of
that. -/
def AncestorIn (cs : List MappedClass) : MappedClass → MappedClass → Prop :=
  Relation.TransGen (SuperclassIn cs)

theorem AncestorIn.mem (h : AncestorIn cs c a) : a ∈ cs := by
  obtain ⟨_, -, hstep⟩ := Relation.TransGen.tail'_iff.1 h
  exact hstep.1

theorem not_ancestorIn_of_root (hroot : c.superclass = none) : ¬AncestorIn cs c a := by
  intro h
  obtain ⟨parent, ⟨-, hparent⟩, -⟩ := Relation.TransGen.head'_iff.1 h
  rw [hroot] at hparent
  cases hparent

/-- The ancestors of a class are its only superclass and the ancestors of that. -/
theorem ancestorIn_iff (hparent : ∀ p, SuperclassIn cs c p ↔ p = parent) :
    AncestorIn cs c a ↔ a = parent ∨ AncestorIn cs parent a := by
  unfold AncestorIn
  simp only [Relation.TransGen.head'_iff (a := c), hparent, exists_eq_left,
    Relation.reflTransGen_iff_eq_or_transGen]

/-! ## Superclasses by name -/

theorem get?_eq_some_iff (hnames : (m.classes.map MappedClass.name).Nodup) {name : String} :
    m.get? name = some c ↔ c ∈ m.classes ∧ c.name = name := by
  refine ⟨mem_of_get?, ?_⟩
  rintro ⟨hc, rfl⟩
  exact find?_eq_some_of_nodup hnames hc

/-- In a model whose class names differ the superclass that is found is the one that is named. -/
theorem superclassOf?_eq_some_iff (hnames : (m.classes.map MappedClass.name).Nodup) :
    m.superclassOf? c = some parent ↔ SuperclassIn m.classes c parent := by
  rw [superclassOf?_eq_some]
  simp only [get?_eq_some_iff hnames]
  constructor
  · rintro ⟨_, hs, hparent, rfl⟩
    exact ⟨hparent, hs⟩
  · exact fun ⟨hparent, hs⟩ => ⟨_, hs, hparent, rfl⟩

/-! ## Walks -/

/-- Each class of a walk is the superclass of the one before it. -/
theorem isChain_superclasses (m : Model) (n : Nat) (c : MappedClass) :
    (c :: m.superclasses n c).IsChain fun d parent => m.superclassOf? d = some parent := by
  induction n generalizing c with
  | zero => exact .singleton c
  | succ n ih =>
    rw [superclasses]
    cases hparent : m.superclassOf? c with
    | none => exact .singleton c
    | some parent => exact .cons_cons hparent (ih parent)

/-- A walk comes to ancestors only, and from each class of it to ancestors of that. -/
theorem pairwise_superclasses (hnames : (m.classes.map MappedClass.name).Nodup) (n : Nat)
    (c : MappedClass) : (c :: m.superclasses n c).Pairwise (AncestorIn m.classes) := by
  have hchain : (c :: m.superclasses n c).IsChain (AncestorIn m.classes) :=
    (isChain_superclasses m n c).imp fun _ _ hstep =>
      .single ((superclassOf?_eq_some_iff hnames).1 hstep)
  have : IsTrans MappedClass (AncestorIn m.classes) := ⟨fun _ _ _ => Relation.TransGen.trans⟩
  exact hchain.pairwise

theorem ancestorIn_of_mem_superclasses (hnames : (m.classes.map MappedClass.name).Nodup) {n : Nat}
    (h : a ∈ m.superclasses n c) : AncestorIn m.classes c a :=
  (List.pairwise_cons.1 (pairwise_superclasses hnames n c)).1 a h

/-- Where no class is its own ancestor, no walk comes to a class twice. -/
theorem nodup_superclasses (hnames : (m.classes.map MappedClass.name).Nodup)
    (hacyclic : ∀ d, ¬AncestorIn m.classes d d) (n : Nat) (c : MappedClass) :
    (c :: m.superclasses n c).Nodup := by
  refine (pairwise_superclasses hnames n c).imp fun {d e} habove => ?_
  rintro rfl
  exact hacyclic d habove

/-- A walk that ended early is the same with any higher bound. -/
theorem superclasses_eq_of_le {n k : Nat} (h : (m.superclasses n c).length < n) (hk : n ≤ k) :
    m.superclasses k c = m.superclasses n c := by
  induction k, hk using Nat.le_induction with
  | base => rfl
  | succ k hk ih =>
    rw [superclasses_of_length_lt, ih]
    rw [ih]
    omega

/-! ## Validated models -/

/-- No class of a validated model is its own ancestor. -/
theorem Validated.not_ancestorIn_self (h : m.Validated) (c : MappedClass) :
    ¬AncestorIn m.classes c c := by
  intro hself
  have hc := hself.mem
  revert hself
  refine h.induction (fun c hc hroot => not_ancestorIn_of_root hroot)
    (fun c hc parent _ hparent ih => ?_) hc
  intro hself
  obtain ⟨p, hstep, hback⟩ := Relation.TransGen.head'_iff.1 hself
  obtain rfl : p = parent := by
    rw [(superclassOf?_eq_some_iff h.classNames).2 hstep] at hparent
    exact Option.some.inj hparent
  -- The circle through the class is one through its superclass too.
  exact ih (.tail' hback hstep)

/-- The walk of a validated model finds the ancestors of a class and no other classes. -/
theorem Validated.mem_ancestors (h : m.Validated) (hc : c ∈ m.classes) :
    a ∈ m.ancestors c ↔ AncestorIn m.classes c a := by
  refine h.induction (fun c hc hroot => ?_) (fun c hc parent _ hparent ih => ?_) hc
  · rw [ancestors_of_superclass_none hroot]
    exact iff_of_false List.not_mem_nil (not_ancestorIn_of_root hroot)
  · have honly : ∀ p, SuperclassIn m.classes c p ↔ p = parent := by
      intro p
      rw [← superclassOf?_eq_some_iff h.classNames, hparent, Option.some.injEq, eq_comm]
    rw [h.ancestors_of_superclass hc hparent, List.mem_cons, ancestorIn_iff honly, ih]

/-- A walk from a class to its ancestors is complete: it goes from each class to its superclass, comes
to every ancestor and to no class twice, and ends at a root. -/
structure CompleteWalk (cs : List MappedClass) (c : MappedClass) (walk : List MappedClass) :
    Prop where
  linked : (c :: walk).IsChain (SuperclassIn cs)
  mem_iff : ∀ a, a ∈ walk ↔ AncestorIn cs c a
  nodup : (c :: walk).Nodup
  root : (walk.getLastD c).isRoot = true

theorem Validated.completeWalk (h : m.Validated) (hc : c ∈ m.classes) :
    CompleteWalk m.classes c (m.ancestors c) := by
  constructor
  case linked =>
    exact (isChain_superclasses m _ c).imp fun _ _ hstep =>
      (superclassOf?_eq_some_iff h.classNames).1 hstep
  case mem_iff => exact fun a => h.mem_ancestors hc
  case nodup => exact nodup_superclasses h.classNames h.not_ancestorIn_self _ c
  case root =>
    have hroot := (h.rootOf_spec hc).2.1
    unfold MappedClass.isRoot
    exact Option.isNone_iff_eq_none.2 hroot

/-- What a class passes on to its superclass all its ancestors have. -/
theorem Validated.ancestors_have (h : m.Validated) (hc : c ∈ m.classes) {has : MappedClass → Bool}
    (hup : ∀ d ∈ m.classes, ∀ parent, m.superclassOf? d = some parent → has d → has parent) :
    has c → ∀ a ∈ m.ancestors c, has a :=
  fun hhas a ha => h.inherited hup hc hhas a (List.mem_cons_of_mem c ha)

/-- In every model that is accepted the walk from a class of it is complete.  It ends before it meets
its bound, and no higher bound makes it longer.  A class that has internal support, fetch groups or
REST support has it in common with all its ancestors. -/
theorem ancestors_complete {classes : List MappedClass} (hmodel : ofClasses classes = .ok m)
    (hc : c ∈ m.classes) :
    CompleteWalk m.classes c (m.ancestors c) ∧
      (m.ancestors c).length < m.classes.length ∧
      (∀ n, m.classes.length ≤ n → m.superclasses n c = m.ancestors c) ∧
      (c.internal → ∀ a ∈ m.ancestors c, a.internal) ∧
      (c.fetchGroups → ∀ a ∈ m.ancestors c, a.fetchGroups) ∧
      (c.rest → ∀ a ∈ m.ancestors c, a.rest) := by
  have hm := validated_of_ofClasses hmodel
  have hbound := hm.length_ancestors_lt hc
  refine ⟨hm.completeWalk hc, hbound, fun n hn => superclasses_eq_of_le hbound hn, ?_, ?_, ?_⟩
  · exact hm.ancestors_have hc fun d hd parent hparent => (hm.capabilities d hd parent hparent).1
  · exact hm.ancestors_have hc fun d hd parent hparent => (hm.capabilities d hd parent hparent).2.1
  · exact hm.ancestors_have hc fun d hd parent hparent => (hm.capabilities d hd parent hparent).2.2

/-! ## A sample hierarchy -/

namespace Sample

def root : MappedClass :=
  { name := "a/Root", internal := true, fetchGroups := true, rest := true }

def middle : MappedClass :=
  { name := "a/Middle", superclass := some "a/Root", internal := true, rest := true }

def leaf : MappedClass :=
  { name := "a/Leaf", superclass := some "a/Middle", rest := true }

/-- Three classes as an application gives them: with dots, the lowest one first, and the root with the
superclass of all classes. -/
def threeLevels : List MappedClass :=
  [{ leaf with name := "a.Leaf", superclass := some "a.Middle" },
    { middle with name := "a.Middle", superclass := some "a.Root" },
    { root with name := "a.Root", superclass := some "java.lang.Object" }]

end Sample

/-- The lowest of three classes has the two others above it, and they have its REST support. -/
theorem ancestors_complete_threeLevels :
    ∃ m, ofClasses Sample.threeLevels = .ok m ∧
      CompleteWalk m.classes Sample.leaf [Sample.middle, Sample.root] ∧
      AncestorIn m.classes Sample.leaf Sample.root ∧
      m.superclasses 1000 Sample.leaf = [Sample.middle, Sample.root] ∧
      Sample.middle.rest ∧ Sample.root.rest := by
  have hmodel : ∃ m, ofClasses Sample.threeLevels = .ok m ∧
      m = ⟨[Sample.leaf, Sample.middle, Sample.root]⟩ := by decide +kernel
  obtain ⟨m, hm, rfl⟩ := hmodel
  obtain ⟨hwalk, -, hbound, -, -, hrest⟩ := ancestors_complete hm (c := Sample.leaf) (by decide)
  have hancestors : Model.ancestors ⟨[Sample.leaf, Sample.middle, Sample.root]⟩ Sample.leaf =
      [Sample.middle, Sample.root] := by decide
  rw [hancestors] at hwalk hbound hrest
  refine ⟨_, hm, hwalk, (hwalk.mem_iff _).1 (by decide), hbound 1000 (by decide), ?_, ?_⟩
  · exact hrest rfl _ (by decide)
  · exact hrest rfl _ (by decide)

end EntityLoom.Model
