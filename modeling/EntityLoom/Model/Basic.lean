import EntityLoom.Model.Mapping
import EntityLoom.Model.ModelError

/-!
# Models

A model is the set of mapped classes of an application.  Superclasses are found by name.  This file
holds the walk from a class to its ancestors and the checks that a model passes before it is used:
names, holders and superclasses of each class, then cycles, then what a class must share with its
ancestors.  The first fault in that order is the one reported.
-/

namespace EntityLoom

/-- The mapped classes of an application. -/
structure Model where
  classes : List MappedClass
  deriving DecidableEq, Repr

namespace Model

instance : EmptyCollection Model := ⟨⟨[]⟩⟩

instance : Inhabited Model := ⟨⟨[]⟩⟩

/-- The class of the given name. -/
def get? (m : Model) (name : String) : Option MappedClass :=
  m.classes.find? (·.name = name)

/-- The mapped superclass of a class. -/
def superclassOf? (m : Model) (c : MappedClass) : Option MappedClass :=
  c.superclass.bind m.get?

/-- The first `n` superclasses of a class, nearest first. -/
def superclasses (m : Model) : Nat → MappedClass → List MappedClass
  | 0, _ => []
  | n + 1, c =>
    match m.superclassOf? c with
    | none => []
    | some parent => parent :: m.superclasses n parent

section

variable {m : Model} {c parent : MappedClass}

theorem mem_of_get? {name : String} (h : m.get? name = some c) : c ∈ m.classes ∧ c.name = name := by
  unfold get? at h
  exact ⟨List.mem_of_find?_eq_some h, by simpa using List.find?_some h⟩

theorem superclassOf?_eq_some :
    m.superclassOf? c = some parent ↔ ∃ s, c.superclass = some s ∧ m.get? s = some parent := by
  unfold superclassOf?
  rw [Option.bind_eq_some_iff]

theorem mem_of_superclassOf? (h : m.superclassOf? c = some parent) : parent ∈ m.classes := by
  obtain ⟨s, -, hs⟩ := superclassOf?_eq_some.1 h
  exact (mem_of_get? hs).1

theorem superclasses_of_none (h : m.superclassOf? c = none) (n : Nat) :
    m.superclasses n c = [] := by
  cases n with
  | zero => rfl
  | succ n => rw [superclasses, h]

theorem superclasses_of_some (h : m.superclassOf? c = some parent) (n : Nat) :
    m.superclasses (n + 1) c = parent :: m.superclasses n parent := by
  rw [superclasses, h]

end

/-- The ancestors of a class, nearest first.  The walk goes no further than the model has
classes. -/
def ancestors (m : Model) (c : MappedClass) : List MappedClass :=
  m.superclasses m.classes.length c

/-- Whether an ancestor of a class tracks changes. -/
def ancestorTracksChanges (m : Model) (c : MappedClass) : Bool :=
  (m.ancestors c).any MappedClass.changeTracking

/-! ## Checks -/

/-- Checks the attributes of a class from the next one on; `seen` holds the names before it. -/
def checkAttributes (c : MappedClass) (seen : List String) :
    List MappedAttribute → Except ModelError Unit
  | [] => .ok ()
  | a :: rest =>
    if a.name ∈ seen then .error (.duplicateAttributeName c.name a.name)
    else if a.valueHolders && a.type.isPrimitive then
      .error (.primitiveValueHolder c.name a.name a.descriptor)
    else if a.valueHolders && a.isOwn && !a.isReachable then
      .error (.unreachableValueHolder c.name a.name)
    else checkAttributes c (a.name :: seen) rest

/-- Checks that the superclass of a class is in the model. -/
def checkSuperclass (m : Model) (c : MappedClass) : Except ModelError Unit :=
  match c.superclass with
  | none => .ok ()
  | some s => if (m.get? s).isSome then .ok () else .error (.missingSuperclass c.name s)

/-- The classes whose names are not among those visited. -/
def unvisited (m : Model) (visited : List String) : List MappedClass :=
  m.classes.filter (·.name ∉ visited)

/-- A visit to a class leaves fewer to be visited. -/
theorem length_unvisited_lt {m : Model} {visited : List String} {c : MappedClass}
    (hc : c ∈ m.classes) (hnew : c.name ∉ visited) :
    (m.unvisited (c.name :: visited)).length < (m.unvisited visited).length := by
  have hrest : m.unvisited (c.name :: visited) =
      (m.unvisited visited).filter (·.name ≠ c.name) := by
    unfold unvisited
    rw [List.filter_filter]
    refine List.filter_congr fun d _ => ?_
    simp
  rw [hrest, List.length_filter_lt_length_iff_exists]
  refine ⟨c, ?_, by simp⟩
  unfold unvisited
  rw [List.mem_filter]
  exact ⟨hc, decide_eq_true hnew⟩

/-- Whether the walk up from a class ends before it comes to a name that was visited. -/
def walkEnds (m : Model) (visited : List String) (c : MappedClass) : Bool :=
  match _hparent : m.superclassOf? c with
  | none => true
  | some parent =>
    if _hnew : parent.name ∈ visited then false else m.walkEnds (parent.name :: visited) parent
termination_by (m.unvisited visited).length
decreasing_by exact length_unvisited_lt (mem_of_superclassOf? _hparent) _hnew

/-- Checks that the walk up from a class does not come to a name twice. -/
def checkAcyclic (m : Model) (c : MappedClass) : Except ModelError Unit :=
  if m.walkEnds [c.name] c then .ok () else .error (.cyclicHierarchy c.name)

/-- Checks that a capability of a class is one of its superclass too. -/
def checkCapability (c parent : MappedClass) (capability : Capability)
    (has : MappedClass → Bool) : Except ModelError Unit :=
  if has c && !has parent then .error (.capabilityNotInherited c.name capability parent.name)
  else .ok ()

/-- Checks the capabilities of a class against its superclass. -/
def checkCapabilities (m : Model) (c : MappedClass) : Except ModelError Unit :=
  match m.superclassOf? c with
  | none => .ok ()
  | some parent => do
    checkCapability c parent .internal MappedClass.internal
    checkCapability c parent .fetchGroups MappedClass.fetchGroups
    checkCapability c parent .rest MappedClass.rest

/-- Checks that no ancestor declares an attribute of a class too. -/
def checkAttributeOwner (m : Model) (c : MappedClass) (a : MappedAttribute) :
    Except ModelError Unit :=
  match (m.ancestors c).find? (·.ownsAttribute a.name) with
  | none => .ok ()
  | some ancestor => .error (.duplicateAttribute c.name a.name ancestor.name)

/-- Checks a model whose class names differ. -/
def check (m : Model) : Except ModelError Unit := do
  m.classes.forM fun c => do
    checkAttributes c [] c.attributes
    m.checkSuperclass c
  m.classes.forM m.checkAcyclic
  m.classes.forM fun c => do
    m.checkCapabilities c
    c.ownAttributes.forM (m.checkAttributeOwner c)

/-- Checks that class names differ from the next class on; `seen` holds the names before it. -/
def checkNames (seen : List String) : List MappedClass → Except ModelError Unit
  | [] => .ok ()
  | c :: rest =>
    if c.name ∈ seen then .error (.duplicateClass c.name) else checkNames (c.name :: seen) rest

/-- The model of the given classes, which are normalized first. -/
def ofClasses (classes : List MappedClass) : Except ModelError Model := do
  let m : Model := ⟨classes.map MappedClass.normalized⟩
  checkNames [] m.classes
  m.check
  return m

end Model

end EntityLoom
