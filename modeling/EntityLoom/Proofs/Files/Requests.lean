import EntityLoom.Files.Tree
import EntityLoom.RunError
import EntityLoom.Proofs.Outcomes

/-!
# What requests do to a tree of files

Where a path leads is decided by its parts alone (`FileTree.place`); the directories on the way only
decide whether it leads there at all.  So what a request does can be said in terms of places: a
request that is met changes the content at one place or moves it to another, one that is not met
changes nothing, and no request takes a directory away (`FileTree.Becomes`).

Steps that look at files and change none are `ReadsOnly`, whether they succeed or not.
-/

namespace EntityLoom

open Function (update)

namespace FileTree

variable {t t' t'' : FileTree} {p : Path} {here there : Location} {g g' : Location → Option Bytes}

/-! ## Places -/

/-- The content of the file at a place. -/
def file? (t : FileTree) (here : Location) : Option Bytes :=
  (t.node? here).bind fun
    | .file data _ => some data
    | .directory => none

/-- The place that the parts of a path lead to. -/
def place (t : FileTree) (p : Path) : Location :=
  p.parts.foldl step (t.start p)

theorem node?_nil (t : FileTree) : t.node? [] = some .directory := rfl

theorem find?_filter_ne (nodes : List (Location × FileNode)) :
    (nodes.filter (·.1 ≠ here)).find? (·.1 = there) =
      if there = here then none else nodes.find? (·.1 = there) := by
  rw [List.find?_filter]
  split
  · next heq =>
    subst heq
    exact List.find?_eq_none.2 fun x _ => by simp
  · next hne =>
    congr 1
    funext x
    by_cases hx : x.1 = there
    · simp [hx, hne]
    · simp [hx]

theorem node?_put (hne : here ≠ []) (node : FileNode) :
    (t.put here node).node? there = if there = here then some node else t.node? there := by
  unfold node? put
  by_cases h : there = []
  · rw [if_pos h, if_pos h, if_neg]
    rintro rfl
    exact hne h
  · rw [if_neg h, if_neg h]
    by_cases heq : there = here
    · rw [if_pos heq, heq]
      simp
    · rw [if_neg heq, List.find?_cons_of_neg (by simpa using Ne.symm heq), find?_filter_ne,
        if_neg heq]

theorem node?_erase (hne : here ≠ []) :
    (t.erase here).node? there = if there = here then none else t.node? there := by
  unfold node? erase
  by_cases h : there = []
  · rw [if_pos h, if_pos h, if_neg]
    rintro rfl
    exact hne h
  · rw [if_neg h, if_neg h, find?_filter_ne]
    split <;> rfl

theorem ne_nil_of_node? (h : t.node? here ≠ some .directory) : here ≠ [] :=
  fun heq => h (heq ▸ t.node?_nil)

theorem file?_eq_some {data : Bytes} :
    t.file? here = some data ↔ ∃ modified, t.node? here = some (.file data modified) := by
  unfold file?
  rcases t.node? here with _ | (⟨d, modified⟩ | _) <;> simp

theorem follow?_eq_foldl {parts : List String} (h : t.follow? here parts = some there) :
    there = parts.foldl step here := by
  induction parts generalizing here with
  | nil => exact (Option.some.inj h).symm
  | cons part rest ih =>
    unfold follow? at h
    split at h
    · exact ih h
    · cases h

/-- A path leads nowhere but to its place. -/
theorem eq_place_of_locate? (h : t.locate? p = some here) : here = t.place p := by
  unfold locate? at h
  split at h
  · cases h
  · exact follow?_eq_foldl h

/-- What is read at a path is the content at its place. -/
theorem read?_eq_some {data : Bytes} (hlocate : t.locate? p = some (t.place p))
    (hfile : t.file? (t.place p) = some data) : t.read? p = some data := by
  unfold read? lookup?
  rw [hlocate]
  exact hfile

/-! ## What becomes of a tree -/

/-- A tree that stays one with the same directories, and maybe more, while its files become the
given ones. -/
structure Becomes (t t' : FileTree) (files : Location → Option Bytes) : Prop where
  workingDirectory : t'.workingDirectory = t.workingDirectory
  directories : ∀ here, t.node? here = some .directory → t'.node? here = some .directory
  files : ∀ here, t'.file? here = files here

theorem Becomes.refl (t : FileTree) : t.Becomes t t.file? :=
  ⟨rfl, fun _ h => h, fun _ => rfl⟩

theorem Becomes.trans (h : t.Becomes t' g) (h' : t'.Becomes t'' g') : t.Becomes t'' g' :=
  ⟨h'.workingDirectory.trans h.workingDirectory,
    fun here hd => h'.directories here (h.directories here hd), h'.files⟩

theorem Becomes.files_eq (h : t.Becomes t' g) : t'.file? = g :=
  funext h.files

/-- The same change of files can be told in other words. -/
theorem Becomes.congr (h : t.Becomes t' g) (hg : ∀ here, g here = g' here) : t.Becomes t' g' :=
  ⟨h.workingDirectory, h.directories, fun here => (h.files here).trans (hg here)⟩

theorem Becomes.start (h : t.Becomes t' g) (p : Path) : t'.start p = t.start p := by
  unfold FileTree.start
  rw [h.workingDirectory]

theorem Becomes.place (h : t.Becomes t' g) (p : Path) : t'.place p = t.place p := by
  unfold FileTree.place
  rw [h.start]

theorem Becomes.follow? (h : t.Becomes t' g) {parts : List String}
    (hp : t.follow? here parts = some there) : t'.follow? here parts = some there := by
  induction parts generalizing here with
  | nil => exact hp
  | cons part rest ih =>
    unfold FileTree.follow? at hp ⊢
    split at hp
    · next hd =>
      rw [if_pos (h.directories _ hd)]
      exact ih hp
    · cases hp

/-- A path that leads somewhere goes on to do so. -/
theorem Becomes.locate? (h : t.Becomes t' g) (hp : t.locate? p = some here) :
    t'.locate? p = some here := by
  unfold FileTree.locate? at hp ⊢
  split at hp
  · cases hp
  · next htext =>
    rw [if_neg htext, h.start]
    exact h.follow? hp

/-- Something is put where there is no directory. -/
theorem becomes_put (hd : t.node? here ≠ some .directory) (node : FileNode) (clock : Nat) :
    t.Becomes { t.put here node with clock }
      (update t.file? here
        ((some node).bind fun | .file data _ => some data | .directory => none)) := by
  have hput := fun there => @node?_put t here there (ne_nil_of_node? hd) node
  refine ⟨rfl, fun there hthere => ?_, fun there => ?_⟩
  · refine (hput there).trans ?_
    rw [if_neg]
    · exact hthere
    · rintro rfl
      exact hd hthere
  · change ((t.put here node).node? there).bind _ = _
    rw [hput, Function.update_apply]
    split <;> rfl

/-- What is no directory is taken away. -/
theorem becomes_erase (hd : t.node? here ≠ some .directory) :
    t.Becomes (t.erase here) (update t.file? here none) := by
  have herase := fun there => @node?_erase t here there (ne_nil_of_node? hd)
  refine ⟨rfl, fun there hthere => ?_, fun there => ?_⟩
  · rw [herase, if_neg]
    · exact hthere
    · rintro rfl
      exact hd hthere
  · unfold file?
    rw [herase, Function.update_apply]
    split <;> rfl

/-! ## Requests -/

/-- Directories are made where there is nothing. -/
theorem becomes_makeFrom (t : FileTree) (here : Location) (parts : List String) :
    t.Becomes (t.makeFrom here parts).2 t.file? := by
  induction parts generalizing t here with
  | nil => exact .refl t
  | cons part rest ih =>
    unfold makeFrom
    dsimp only
    split
    · exact ih t _
    · exact .refl t
    · next hnone =>
      have hd : t.node? (step here part) ≠ some .directory := by simp [hnone]
      have hput := becomes_put hd .directory t.clock
      refine hput.trans ((ih _ _).congr fun there => ?_)
      rw [hput.files, Function.update_apply]
      split
      · next heq =>
        unfold file?
        rw [heq, hnone]
        rfl
      · rfl

theorem becomes_makeDirectories (t : FileTree) (p : Path) :
    t.Becomes (t.makeDirectories p).2 t.file? := by
  unfold makeDirectories
  split
  · exact .refl t
  · exact becomes_makeFrom t _ _

theorem create_eq_true (h : t.create p = (true, t')) :
    t.locate? p = some (t.place p) ∧ t.Becomes t' (update t.file? (t.place p) (some [])) := by
  unfold create at h
  split at h
  · simp at h
  · next here hlocate =>
    obtain rfl := eq_place_of_locate? hlocate
    split at h
    · simp at h
    · next hd =>
      obtain ⟨-, rfl⟩ := Prod.mk.inj h
      exact ⟨hlocate, becomes_put hd _ _⟩

theorem create_eq_false (h : t.create p = (false, t')) : t' = t := by
  unfold create at h
  split at h
  · exact (Prod.mk.inj h).2.symm
  · split at h
    · exact (Prod.mk.inj h).2.symm
    · simp at h

/-- A file that is there can be written. -/
theorem write_of_file {given : Bytes} (hlocate : t.locate? p = some (t.place p))
    (hfile : t.file? (t.place p) = some given) (data : Bytes) :
    ∃ t', t.write p data = (true, t') ∧ t.Becomes t' (update t.file? (t.place p) (some data)) := by
  obtain ⟨modified, hnode⟩ := file?_eq_some.1 hfile
  have hd : t.node? (t.place p) ≠ some .directory := by simp [hnode]
  refine ⟨t.putFile (t.place p) data, ?_, becomes_put hd _ _⟩
  unfold write
  simp only [hlocate, hnode]

/-- A file that was created can be written. -/
theorem write_of_create (h : t.create p = (true, t')) (data : Bytes) :
    ∃ t'', t'.write p data = (true, t'') ∧ t''.locate? p = some (t.place p) ∧
      t.Becomes t'' (update t.file? (t.place p) (some data)) := by
  obtain ⟨hlocate, hcreated⟩ := create_eq_true h
  have hlocate' := hcreated.locate? hlocate
  have hfile : t'.file? (t'.place p) = some [] := by
    rw [hcreated.files, hcreated.place, Function.update_self]
  obtain ⟨t'', hwrite, hwritten⟩ :=
    write_of_file (hlocate'.trans (congrArg some (hcreated.place p).symm)) hfile data
  refine ⟨t'', hwrite, hwritten.locate? hlocate', hcreated.trans (hwritten.congr fun here => ?_)⟩
  rw [hcreated.files_eq, hcreated.place, Function.update_idem]

/-- What a move that succeeds did. -/
theorem rename_eq_true {source target : Path} (h : t.rename source target = (true, t')) :
    t.locate? target = some (t.place target) ∧ ∃ data, t.file? (t.place source) = some data ∧
      t.Becomes t'
        (update (update t.file? (t.place source) none) (t.place target) (some data)) := by
  unfold rename at h
  split at h
  · next here there hsource htarget =>
    obtain rfl := eq_place_of_locate? hsource
    obtain rfl := eq_place_of_locate? htarget
    split at h
    · simp at h
    · next data modified hnode hnode' =>
      obtain ⟨-, rfl⟩ := Prod.mk.inj h
      have hd : t.node? (t.place source) ≠ some .directory := by simp [hnode]
      have herase := becomes_erase hd
      have hd' : (t.erase (t.place source)).node? (t.place target) ≠ some .directory := by
        rw [node?_erase (ne_nil_of_node? hd)]
        split
        · simp
        · exact hnode'
      refine ⟨htarget, data, file?_eq_some.2 ⟨modified, hnode⟩, ?_⟩
      have hput := becomes_put hd' (.file data modified) t.clock
      exact herase.trans (hput.congr fun there => by rw [herase.files_eq]; rfl)
    · simp at h
  · simp at h

/-- What keeps a file that is there from being moved: a directory in its way. -/
theorem rename_eq_false {source target : Path} (h : t.rename source target = (false, t')) :
    t' = t ∧ ∀ data, t.locate? source = some (t.place source) →
      t.locate? target = some (t.place target) → t.file? (t.place source) = some data →
      t.node? (t.place target) = some .directory := by
  unfold rename at h
  split at h
  · next here there hsource htarget =>
    obtain rfl := eq_place_of_locate? hsource
    obtain rfl := eq_place_of_locate? htarget
    split at h
    · next hdirectory => exact ⟨(Prod.mk.inj h).2.symm, fun _ _ _ _ => hdirectory⟩
    · simp at h
    · next hfile _ =>
      refine ⟨(Prod.mk.inj h).2.symm, fun data _ _ hdata => ?_⟩
      obtain ⟨modified, hnode⟩ := file?_eq_some.1 hdata
      exact absurd hnode (hfile data modified)
  · next hnone =>
    exact ⟨(Prod.mk.inj h).2.symm, fun _ hs ht _ => absurd ht (hnone _ _ hs)⟩

/-- After a request to remove the file at a place there is none. -/
theorem becomes_remove (hlocate : t.locate? p = some (t.place p)) :
    t.Becomes (t.remove p).2 (update t.file? (t.place p) none) := by
  unfold remove
  simp only [hlocate]
  split
  · next hnode => exact becomes_erase (by simp [hnode])
  · next hnot =>
    refine (Becomes.refl t).congr fun there => ?_
    rw [Function.update_apply]
    split
    · next heq =>
      rw [heq]
      by_contra hsome
      obtain ⟨data, hdata⟩ := Option.ne_none_iff_exists'.1 hsome
      obtain ⟨modified, hnode⟩ := file?_eq_some.1 hdata
      exact hnot data modified hnode
    · rfl

end FileTree

/-! ## Requests as steps -/

section Steps

variable {α β : Type}

/-- What a step of a run did, when it succeeded: it took the answer of a request. -/
theorem succeeds_request {x : StateM FileTree α} {t t' : FileTree} {a : α} :
    Succeeds (ExceptT.lift x : Attempt (StateM FileTree) α) t a t' ↔ x.run t = (a, t') := by
  change ((.ok (x t).1, (x t).2) : Except RunError α × FileTree) = (.ok a, t') ↔ x t = (a, t')
  constructor
  · intro h
    obtain ⟨ha, rfl⟩ := Prod.mk.inj h
    obtain rfl := Except.ok.inj ha
    rfl
  · intro h
    rw [h]

theorem not_fails_request {x : StateM FileTree α} {t t' : FileTree} {e : RunError} :
    ¬Fails (ExceptT.lift x : Attempt (StateM FileTree) α) t e t' := by
  intro h
  cases h

/-- A step that leaves the tree as it is, whether it succeeds or not. -/
def ReadsOnly (x : Attempt (StateM FileTree) α) : Prop :=
  ∀ t, (x.run.run t).2 = t

theorem ReadsOnly.pure (a : α) : ReadsOnly (pure a) := fun _ => rfl

theorem ReadsOnly.throw (e : RunError) : ReadsOnly (throw e : Attempt (StateM FileTree) α) :=
  fun _ => rfl

theorem ReadsOnly.bind {x : Attempt (StateM FileTree) α} {k : α → Attempt (StateM FileTree) β}
    (hx : ReadsOnly x) (hk : ∀ a, ReadsOnly (k a)) : ReadsOnly (x >>= k) := by
  intro t
  have hx := hx t
  rw [bind_run]
  rcases h : x.run.run t with ⟨e | a, t₁⟩
  · rw [h] at hx
    exact hx
  · rw [h] at hx
    obtain rfl : t₁ = t := hx
    exact hk a t₁

theorem ReadsOnly.mapM {k : α → Attempt (StateM FileTree) β} (hk : ∀ a, ReadsOnly (k a))
    (xs : List α) : ReadsOnly (xs.mapM k) := by
  induction xs with
  | nil => exact .pure []
  | cons x xs ih =>
    rw [List.mapM_cons]
    exact (hk x).bind fun b => ih.bind fun bs => .pure (b :: bs)

theorem ReadsOnly.of_succeeds {x : Attempt (StateM FileTree) α} {t t' : FileTree} {a : α}
    (hx : ReadsOnly x) (h : Succeeds x t a t') : t' = t := by
  have hx := hx t
  rw [h] at hx
  exact hx

theorem ReadsOnly.of_fails {x : Attempt (StateM FileTree) α} {t t' : FileTree} {e : RunError}
    (hx : ReadsOnly x) (h : Fails x t e t') : t' = t := by
  have hx := hx t
  rw [h] at hx
  exact hx

theorem readsOnly_status? (p : Path) :
    ReadsOnly (FileStore.status? p : Attempt (StateM FileTree) _) := fun _ => rfl

theorem readsOnly_read? (p : Path) :
    ReadsOnly (FileStore.read? p : Attempt (StateM FileTree) _) := fun _ => rfl

/-- A request to read is answered with the content, and changes nothing. -/
theorem succeeds_read? {p : Path} {data? : Option Bytes} {t t' : FileTree} :
    Succeeds (FileStore.read? p : Attempt (StateM FileTree) _) t data? t' ↔
      data? = t.read? p ∧ t' = t := by
  refine succeeds_request.trans ⟨fun h => ?_, fun ⟨hdata, ht⟩ => hdata ▸ ht ▸ rfl⟩
  obtain ⟨rfl, rfl⟩ := Prod.mk.inj h
  exact ⟨rfl, rfl⟩

theorem readsOnly_canonical? (p : Path) :
    ReadsOnly (FileStore.canonical? p : Attempt (StateM FileTree) _) := fun _ => rfl

theorem readsOnly_filesBelow (p : Path) :
    ReadsOnly (FileStore.filesBelow p : Attempt (StateM FileTree) _) := fun _ => rfl

end Steps

end EntityLoom
