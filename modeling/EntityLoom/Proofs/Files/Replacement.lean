import EntityLoom.Proofs.Files.Places

/-!
# What replacing files leaves behind

Several files are replaced in two rounds: all are staged, and then all are moved.  A fault in the
first round is made good, but for a file that stood at a staging place before: the content of every
staging place that was filled is gone, and every other file is as it was
(`Files.fails_stageAll`).  A fault in the second round is not made good.  What was moved before it
stays moved, and what was to be moved after it stays staged (`Files.Interrupted`).

The only cause for a fault in the second round is a directory at the place of a target.
-/

namespace EntityLoom

open Function (update)

variable {t t' t'' : FileTree} {target : Path} {data : Bytes} {e : RunError} {u : Unit}

/-! ## Steps that catch faults -/

section Faults

variable {α : Type} {x : Attempt (StateM FileTree) α} {k : RunError → Attempt (StateM FileTree) α}

theorem tryCatch_run :
    (tryCatch x k).run.run t =
      match x.run.run t with
      | (.ok a, t') => (.ok a, t')
      | (.error e, t') => (k e).run.run t' := by
  change (ExceptT.tryCatch x k).run.run t = _
  unfold ExceptT.tryCatch
  rw [ExceptT.run_mk, StateT.run_bind]
  change x.run.run t >>= _ = _
  rcases x.run.run t with ⟨e | a, t'⟩ <;> rfl

theorem succeeds_tryCatch {a : α} (hk : ∀ e t a t', ¬Succeeds (k e) t a t') :
    Succeeds (tryCatch x k) t a t' ↔ Succeeds x t a t' := by
  unfold Succeeds
  rw [tryCatch_run]
  rcases h : x.run.run t with ⟨e | b, t₁⟩
  · refine ⟨fun h' => absurd h' (hk e t₁ a t'), fun h' => ?_⟩
    cases h'
  · rfl

theorem fails_tryCatch :
    Fails (tryCatch x k) t e t'' ↔ ∃ e₁ t₁, Fails x t e₁ t₁ ∧ Fails (k e₁) t₁ e t'' := by
  unfold Fails
  rw [tryCatch_run]
  rcases x.run.run t with ⟨e₁ | b, t₁⟩
  · refine ⟨fun h => ⟨e₁, t₁, rfl, h⟩, ?_⟩
    rintro ⟨_, _, h₁, h⟩
    cases h₁
    exact h
  · refine ⟨fun h => ?_, ?_⟩
    · cases h
    · rintro ⟨_, _, h₁, -⟩
      cases h₁

theorem fails_forM {α : Type} {k : α → Attempt (StateM FileTree) PUnit} {x : α} {xs : List α} :
    Fails ((x :: xs).forM k) t e t'' ↔
      Fails (k x) t e t'' ∨ ∃ u t', Succeeds (k x) t u t' ∧ Fails (xs.forM k) t' e t'' :=
  fails_bind

theorem succeeds_forM {α : Type} {k : α → Attempt (StateM FileTree) PUnit} {x : α} {xs : List α}
    {u : PUnit} :
    Succeeds ((x :: xs).forM k) t u t'' ↔
      ∃ u' t', Succeeds (k x) t u' t' ∧ Succeeds (xs.forM k) t' u t'' :=
  succeeds_bind

end Faults

/-! ## Staging -/

/-- The files of a tree but for some places. -/
def FileTree.filesBut (t : FileTree) (places : List Location) (here : Location) : Option Bytes :=
  if here ∈ places then none else t.file? here

/-- The files of a tree with the content for some targets at their staging places. -/
def FileTree.filesStaged (t : FileTree) (files : List (Path × Bytes)) : Location → Option Bytes :=
  files.foldl (fun g x => update g (t.stagingPlace x.1) (some x.2)) t.file?

namespace Files

open FileTree

theorem succeeds_makeParent (h : Succeeds (makeParent target) t u t') : t.Becomes t' t.file? := by
  unfold makeParent at h
  split at h
  · obtain ⟨-, rfl⟩ := succeeds_pure.1 h
    exact .refl t
  · next parent _ =>
    obtain ⟨made, t₁, hmake, h⟩ := succeeds_bind.1 h
    have hbecomes := becomes_makeDirectories t parent
    rw [show t.makeDirectories parent = (made, t₁) from succeeds_request.1 hmake] at hbecomes
    split at h
    · obtain ⟨-, rfl⟩ := succeeds_pure.1 h
      exact hbecomes
    · exact absurd h not_succeeds_throw

theorem fails_makeParent (h : Fails (makeParent target) t e t') :
    (∀ x, e ≠ .replacement x) ∧ t.Becomes t' t.file? := by
  unfold makeParent at h
  split at h
  · cases h
  · next parent _ =>
    rcases fails_bind.1 h with h | ⟨made, t₁, hmake, h⟩
    · exact absurd h not_fails_request
    have hbecomes := becomes_makeDirectories t parent
    rw [show t.makeDirectories parent = (made, t₁) from succeeds_request.1 hmake] at hbecomes
    split at h
    · cases h
    · obtain ⟨rfl, rfl⟩ := fails_throw.1 h
      exact ⟨fun x => by simp, hbecomes⟩

/-- Content that was staged is at the staging place. -/
theorem succeeds_stage (h : Succeeds (stage target data) t u t') :
    t'.locate? (stagingPath target) = some (t.stagingPlace target) ∧
      t.Becomes t' (update t.file? (t.stagingPlace target) (some data)) := by
  unfold stage at h
  obtain ⟨_, t₁, hparent, h⟩ := succeeds_bind.1 h
  obtain ⟨created, t₂, hcreate, h⟩ := succeeds_bind.1 h
  have hparent := succeeds_makeParent hparent
  have hcreate : t₁.create (stagingPath target) = (created, t₂) := succeeds_request.1 hcreate
  cases created with
  | false => exact absurd (succeeds_bind.1 h) fun ⟨_, _, h, _⟩ => not_succeeds_throw h
  | true =>
    rw [if_pos rfl] at h
    obtain ⟨t₃, hwrite, hlocate, hstaged⟩ := write_of_create hcreate data
    obtain ⟨written, t₄, hwrite', h⟩ := succeeds_bind.1 h
    have hwrite' : t₂.write (stagingPath target) data = (written, t₄) := succeeds_request.1 hwrite'
    obtain ⟨rfl, rfl⟩ := Prod.mk.inj (hwrite.symm.trans hwrite')
    obtain ⟨-, rfl⟩ := succeeds_pure.1 h
    rw [hparent.files_eq, hparent.place] at hstaged
    rw [hparent.place] at hlocate
    exact ⟨hlocate, hparent.trans hstaged⟩

/-- Content that cannot be staged leaves no file behind. -/
theorem fails_stage (h : Fails (stage target data) t e t') :
    (∀ x, e ≠ .replacement x) ∧ t.Becomes t' t.file? := by
  unfold stage at h
  rcases fails_bind.1 h with h | ⟨_, t₁, hparent, h⟩
  · exact fails_makeParent h
  have hparent := succeeds_makeParent hparent
  rcases fails_bind.1 h with h | ⟨created, t₂, hcreate, hrest⟩
  · exact absurd h not_fails_request
  have hcreate : t₁.create (stagingPath target) = (created, t₂) := succeeds_request.1 hcreate
  cases created with
  | false =>
    rw [if_neg (by decide)] at hrest
    obtain rfl := create_eq_false hcreate
    rcases fails_bind.1 hrest with hthrow | ⟨_, _, hthrow, -⟩
    · obtain ⟨rfl, rfl⟩ := fails_throw.1 hthrow
      exact ⟨fun x => by simp, hparent⟩
    · exact absurd hthrow not_succeeds_throw
  | true =>
    -- What was created can be written, so nothing fails behind it.
    exfalso
    rw [if_pos rfl] at hrest
    obtain ⟨t₃, hwrite, -⟩ := write_of_create hcreate data
    rcases fails_bind.1 hrest with h | ⟨written, t₄, hwrite', h⟩
    · exact not_fails_request h
    have hwrite' : t₂.write (stagingPath target) data = (written, t₄) := succeeds_request.1 hwrite'
    obtain rfl := (Prod.mk.inj (hwrite.symm.trans hwrite')).1
    cases h

/-- Where the staging paths lead somewhere, there is no content at the places afterwards. -/
theorem succeeds_unstage {targets : List Path}
    (hlocated : ∀ x ∈ targets, t.locate? (stagingPath x) = some (t.stagingPlace x))
    (h : Succeeds (unstage targets) t u t') :
    t.Becomes t' (t.filesBut (targets.map t.stagingPlace)) := by
  induction targets generalizing t with
  | nil =>
    obtain ⟨-, rfl⟩ := succeeds_pure.1 h
    exact .refl t
  | cons target rest ih =>
    unfold unstage at h
    obtain ⟨_, t₁, hfirst, h⟩ := succeeds_forM.1 h
    obtain ⟨removed, t₂, hremove, hpure⟩ := succeeds_bind.1 hfirst
    obtain ⟨-, rfl⟩ := succeeds_pure.1 hpure
    have hlocate := hlocated target List.mem_cons_self
    have hbecomes : t.Becomes t₂ (update t.file? (t.stagingPlace target) none) := by
      have hremove : t.remove (stagingPath target) = (removed, t₂) := succeeds_request.1 hremove
      have hbecomes := becomes_remove hlocate
      rwa [hremove] at hbecomes
    have hrest := ih (fun x hx => by
      rw [hbecomes.stagingPlace]
      exact hbecomes.locate? (hlocated x (List.mem_cons_of_mem _ hx))) h
    refine hbecomes.trans (hrest.congr fun here => ?_)
    have hplaces : rest.map t₂.stagingPlace = rest.map t.stagingPlace :=
      List.map_congr_left fun x _ => hbecomes.stagingPlace x
    unfold filesBut
    rw [hplaces, hbecomes.files, Function.update_apply, List.map_cons]
    by_cases hrest : here ∈ rest.map t.stagingPlace
    · rw [if_pos hrest, if_pos (List.mem_cons_of_mem _ hrest)]
    · rw [if_neg hrest]
      by_cases hhere : here = t.stagingPlace target
      · rw [if_pos hhere, if_pos (List.mem_cons.2 (.inl hhere))]
      · rw [if_neg hhere, if_neg fun h => (List.mem_cons.1 h).elim hhere hrest]

theorem not_fails_unstage {targets : List Path} : ¬Fails (unstage targets) t e t' := by
  induction targets generalizing t with
  | nil =>
    intro h
    cases h
  | cons target rest ih =>
    intro h
    rcases fails_forM.1 h with h | ⟨_, t₁, -, h⟩
    · rcases fails_bind.1 h with h | ⟨_, _, -, h⟩
      · exact not_fails_request h
      · cases h
    · exact ih h

/-- What is staged in the tree that comes after another, said of that one. -/
theorem filesStaged_eq {g : Location → Option Bytes} (h : t.Becomes t' g)
    (files : List (Path × Bytes)) :
    t'.filesStaged files =
      files.foldl (fun g x => update g (t.stagingPlace x.1) (some x.2)) g := by
  unfold filesStaged
  rw [h.files_eq]
  congr 1
  funext g x
  rw [h.stagingPlace]

/-- Where all files are staged, each is at its staging place. -/
theorem succeeds_stageAll {staged : List Path} {files : List (Path × Bytes)}
    (h : Succeeds (stageAll staged files) t u t') :
    t.Becomes t' (t.filesStaged files) ∧
      ∀ x ∈ files, t'.locate? (stagingPath x.1) = some (t.stagingPlace x.1) := by
  induction files generalizing t staged with
  | nil =>
    obtain ⟨-, rfl⟩ := succeeds_pure.1 h
    exact ⟨.refl t, fun _ hx => (by cases hx)⟩
  | cons file rest ih =>
    obtain ⟨target, data⟩ := file
    obtain ⟨_, t₁, hfirst, hrest⟩ := succeeds_bind.1 h
    have hstage : Succeeds (stage target data) t _ t₁ :=
      (succeeds_tryCatch fun e t a t' hfault => by
        obtain ⟨_, _, -, hthrow⟩ := succeeds_bind.1 hfault
        exact not_succeeds_throw hthrow).1 hfirst
    obtain ⟨hlocate, hstaged⟩ := succeeds_stage hstage
    obtain ⟨hbecomes, hlocated⟩ := ih hrest
    refine ⟨hstaged.trans (hbecomes.congr fun here => ?_), List.forall_mem_cons.2 ⟨?_, ?_⟩⟩
    · rw [filesStaged_eq hstaged]
      rfl
    · exact hbecomes.locate? hlocate
    · intro x hx
      rw [← hstaged.stagingPlace]
      exact hlocated x hx

/-- Where not all files can be staged, the content of the staging places that were filled is gone,
and nothing else has changed. -/
theorem fails_stageAll {staged : List Path} {files : List (Path × Bytes)}
    (hlocated : ∀ x ∈ staged, t.locate? (stagingPath x) = some (t.stagingPlace x))
    (h : Fails (stageAll staged files) t e t') :
    (∀ x, e ≠ .replacement x) ∧ ∃ more, more <+: files.map Prod.fst ∧
      t.Becomes t' (t.filesBut ((staged ++ more).map t.stagingPlace)) := by
  induction files generalizing t staged with
  | nil => cases h
  | cons file rest ih =>
    obtain ⟨target, data⟩ := file
    rcases fails_bind.1 h with hfirst | ⟨_, t₁, hfirst, hrest⟩
    · obtain ⟨e₁, t₁, hstage, hfault⟩ := fails_tryCatch.1 hfirst
      obtain ⟨hcause, hkept⟩ := fails_stage hstage
      rcases fails_bind.1 hfault with hunstage | ⟨_, t₂, hunstage, hthrow⟩
      · exact absurd hunstage not_fails_unstage
      obtain ⟨rfl, rfl⟩ := fails_throw.1 hthrow
      have hgone := succeeds_unstage (fun x hx => by
        rw [hkept.stagingPlace]
        exact hkept.locate? (hlocated x hx)) hunstage
      refine ⟨hcause, [], List.nil_prefix, hkept.trans (hgone.congr fun here => ?_)⟩
      unfold filesBut
      rw [List.append_nil, hkept.files, List.map_congr_left fun x _ => hkept.stagingPlace x]
    · have hstage : Succeeds (stage target data) t _ t₁ :=
        (succeeds_tryCatch fun e t a t' hfault => by
          obtain ⟨_, _, -, hthrow⟩ := succeeds_bind.1 hfault
          exact not_succeeds_throw hthrow).1 hfirst
      obtain ⟨hlocate, hstaged⟩ := succeeds_stage hstage
      have hlocated₁ : ∀ x ∈ staged ++ [target],
          t₁.locate? (stagingPath x) = some (t₁.stagingPlace x) := by
        intro x hx
        rw [hstaged.stagingPlace]
        rcases List.mem_append.1 hx with hx | hx
        · exact hstaged.locate? (hlocated x hx)
        · obtain rfl := List.mem_singleton.1 hx
          exact hlocate
      obtain ⟨hcause, more, hmore, hbecomes⟩ := ih hlocated₁ hrest
      refine ⟨hcause, target :: more, List.cons_prefix_cons.2 ⟨rfl, hmore⟩,
        hstaged.trans (hbecomes.congr fun here => ?_)⟩
      unfold filesBut
      rw [List.append_assoc, List.singleton_append,
        List.map_congr_left fun x _ => hstaged.stagingPlace x]
      split
      · rfl
      · next hnot =>
        rw [hstaged.files, Function.update_of_ne]
        rintro rfl
        exact hnot (List.mem_map_of_mem (by simp))

/-! ## Moving -/

theorem succeeds_commit (h : Succeeds (commit target) t u t') :
    t.locate? target = some (t.place target) ∧
      ∃ data, t.file? (t.stagingPlace target) = some data ∧
        t.Becomes t' (update (update t.file? (t.stagingPlace target) none) (t.place target)
          (some data)) := by
  unfold commit at h
  obtain ⟨renamed, t₁, hrename, h⟩ := succeeds_bind.1 h
  have hrename : t.rename (stagingPath target) target = (renamed, t₁) := succeeds_request.1 hrename
  cases renamed with
  | false => exact absurd h not_succeeds_throw
  | true =>
    obtain ⟨-, rfl⟩ := succeeds_pure.1 h
    exact rename_eq_true hrename

/-- What was staged can be moved unless a directory is in its way. -/
theorem fails_commit (h : Fails (commit target) t e t') :
    e = .replacement target ∧ t' = t ∧
      ∀ data, t.locate? (stagingPath target) = some (t.stagingPlace target) →
        t.locate? target = some (t.place target) →
        t.file? (t.stagingPlace target) = some data →
        t.node? (t.place target) = some .directory := by
  unfold commit at h
  rcases fails_bind.1 h with h | ⟨renamed, t₁, hrename, h⟩
  · exact absurd h not_fails_request
  have hrename : t.rename (stagingPath target) target = (renamed, t₁) := succeeds_request.1 hrename
  cases renamed with
  | true => cases h
  | false =>
    obtain ⟨rfl, rfl⟩ := fails_throw.1 h
    obtain ⟨rfl, hdirectory⟩ := rename_eq_false hrename
    exact ⟨rfl, rfl, hdirectory⟩

end Files

/-! ## Replacing -/

namespace FileTree

/-- The places of targets and where their content is staged are all different. -/
def Apart (t : FileTree) (files : List (Path × Bytes)) : Prop :=
  (files.flatMap fun x => [t.place x.1, t.stagingPlace x.1]).Nodup

/-- The place of a target, where its content is staged, and those of other targets. -/
theorem Apart.cons {x : Path × Bytes} {rest : List (Path × Bytes)} (h : t.Apart (x :: rest)) :
    t.Apart rest ∧ t.place x.1 ≠ t.stagingPlace x.1 ∧
      ∀ y ∈ rest, t.place y.1 ≠ t.place x.1 ∧ t.place y.1 ≠ t.stagingPlace x.1 ∧
        t.stagingPlace y.1 ≠ t.place x.1 ∧ t.stagingPlace y.1 ≠ t.stagingPlace x.1 := by
  unfold Apart at h ⊢
  rw [List.flatMap_cons, List.nodup_append] at h
  obtain ⟨hx, hrest, hapart⟩ := h
  have hmem : ∀ y ∈ rest, ∀ place ∈ [t.place y.1, t.stagingPlace y.1],
      ∀ place' ∈ [t.place x.1, t.stagingPlace x.1], place ≠ place' := fun y hy place hplace place'
      hplace' => (hapart place' hplace' place (List.mem_flatMap.2 ⟨y, hy, hplace⟩)).symm
  refine ⟨hrest, by simpa using hx, fun y hy => ⟨?_, ?_, ?_, ?_⟩⟩ <;>
    exact hmem y hy _ (by simp) _ (by simp)

theorem Becomes.apart {g : Location → Option Bytes} (h : t.Becomes t' g)
    {files : List (Path × Bytes)} : t'.Apart files ↔ t.Apart files := by
  unfold Apart
  simp only [h.place, h.stagingPlace]

/-- Files of which some were moved into place when a fault ended the replacement, while the rest
stays staged. -/
structure Interrupted (t t' : FileTree) (moved rest : List (Path × Bytes)) : Prop where
  replaced : ∀ x ∈ moved, t'.file? (t.place x.1) = some x.2
  emptied : ∀ x ∈ moved, t'.file? (t.stagingPlace x.1) = none
  staged : ∀ x ∈ rest, t'.file? (t.stagingPlace x.1) = some x.2
  others : ∀ here, (∀ x ∈ moved, here ≠ t.place x.1) →
    (∀ x ∈ moved ++ rest, here ≠ t.stagingPlace x.1) → t'.file? here = t.file? here

/-- A file that is moved before the others. -/
theorem Interrupted.cons {t₁ : FileTree} {x : Path × Bytes} {moved rest : List (Path × Bytes)}
    (h : t₁.Interrupted t' moved rest) (happart : t.Apart (x :: (moved ++ rest)))
    (hmoved : t.Becomes t₁ (update (update t.file? (t.stagingPlace x.1) none) (t.place x.1)
      (some x.2))) : t.Interrupted t' (x :: moved) rest := by
  obtain ⟨-, hne, haway⟩ := happart.cons
  have hmem : ∀ y ∈ moved, y ∈ moved ++ rest := fun y hy => List.mem_append_left _ hy
  have hothers := h.others
  simp only [hmoved.place, hmoved.stagingPlace] at hothers
  have hplace : t'.file? (t.place x.1) = some x.2 := by
    rw [hothers _ (fun y hy => (haway y (hmem y hy)).1.symm) fun y hy => (haway y hy).2.2.1.symm,
      hmoved.files, Function.update_self]
  have hstaging : t'.file? (t.stagingPlace x.1) = none := by
    rw [hothers _ (fun y hy => (haway y (hmem y hy)).2.1.symm) fun y hy => (haway y hy).2.2.2.symm,
      hmoved.files, Function.update_of_ne hne.symm, Function.update_self]
  refine ⟨List.forall_mem_cons.2 ⟨hplace, fun y hy => ?_⟩,
    List.forall_mem_cons.2 ⟨hstaging, fun y hy => ?_⟩, fun y hy => ?_,
    fun here htargets hstagings => ?_⟩
  · exact hmoved.place y.1 ▸ h.replaced y hy
  · exact hmoved.stagingPlace y.1 ▸ h.emptied y hy
  · exact hmoved.stagingPlace y.1 ▸ h.staged y hy
  · obtain ⟨hx, htargets⟩ := List.forall_mem_cons.1 htargets
    obtain ⟨hxs, hstagings⟩ := List.forall_mem_cons.1 hstagings
    rw [hothers here htargets hstagings, hmoved.files, Function.update_of_ne hx,
      Function.update_of_ne hxs]

/-- What was staged before is no other file. -/
theorem Interrupted.of_staged {t₁ : FileTree} {moved rest : List (Path × Bytes)}
    {g : Location → Option Bytes} (h : t₁.Interrupted t' moved rest) (hstaged : t.Becomes t₁ g)
    (hothers : ∀ here, (∀ x ∈ moved ++ rest, here ≠ t.stagingPlace x.1) → g here = t.file? here) :
    t.Interrupted t' moved rest := by
  refine ⟨fun x hx => ?_, fun x hx => ?_, fun x hx => ?_, fun here htargets hstagings => ?_⟩
  · exact hstaged.place x.1 ▸ h.replaced x hx
  · exact hstaged.stagingPlace x.1 ▸ h.emptied x hx
  · exact hstaged.stagingPlace x.1 ▸ h.staged x hx
  · have hsame := h.others here
    simp only [hstaged.place, hstaged.stagingPlace] at hsame
    rw [hsame htargets hstagings, hstaged.files, hothers here hstagings]

/-- Content that is staged at places apart is at its own place each. -/
theorem filesStaged_apply {files : List (Path × Bytes)} (h : t.Apart files)
    {g : Location → Option Bytes} :
    (∀ x ∈ files, files.foldl (fun g y => update g (t.stagingPlace y.1) (some y.2)) g
      (t.stagingPlace x.1) = some x.2) ∧
    ∀ here, (∀ x ∈ files, here ≠ t.stagingPlace x.1) →
      files.foldl (fun g x => update g (t.stagingPlace x.1) (some x.2)) g here = g here := by
  induction files generalizing g with
  | nil => exact ⟨fun _ hx => (by cases hx), fun _ _ => rfl⟩
  | cons x rest ih =>
    obtain ⟨hrest, -, hapart⟩ := h.cons
    refine ⟨?_, fun here hhere => ?_⟩
    · refine List.forall_mem_cons.2 ⟨?_, fun y hy => (ih hrest).1 y hy⟩
      rw [List.foldl_cons, (ih hrest).2 _ fun y hy => ((hapart y hy).2.2.2).symm,
        Function.update_self]
    · obtain ⟨hx, hothers⟩ := List.forall_mem_cons.1 hhere
      rw [List.foldl_cons, (ih hrest).2 here hothers, Function.update_of_ne hx]

end FileTree

namespace Files

open FileTree

theorem exists_of_fails_commits {files : List (Path × Bytes)}
    (h : Fails (files.forM fun x => commit x.1) t e t') : ∃ x ∈ files, e = .replacement x.1 := by
  induction files generalizing t with
  | nil => cases h
  | cons x rest ih =>
    rcases fails_forM.1 h with hfirst | ⟨_, t₁, -, hmore⟩
    · exact ⟨x, List.mem_cons_self, (fails_commit hfirst).1⟩
    · obtain ⟨y, hy, hcause⟩ := ih hmore
      exact ⟨y, List.mem_cons_of_mem _ hy, hcause⟩

/-- A fault while staged files are moved: what was moved stays so, and the rest stays staged. -/
theorem fails_commits {files : List (Path × Bytes)} (hapart : t.Apart files)
    (hstaged : ∀ x ∈ files, t.file? (t.stagingPlace x.1) = some x.2)
    (hlocated : ∀ x ∈ files, t.locate? (stagingPath x.1) = some (t.stagingPlace x.1) ∧
      t.locate? x.1 = some (t.place x.1))
    (h : Fails (files.forM fun x => commit x.1) t e t') :
    ∃ moved target data rest, files = moved ++ (target, data) :: rest ∧
      e = .replacement target ∧ t'.node? (t.place target) = some .directory ∧
      t.Interrupted t' moved ((target, data) :: rest) := by
  induction files generalizing t with
  | nil => cases h
  | cons x rest ih =>
    obtain ⟨hx, hrest⟩ := List.forall_mem_cons.1 hstaged
    obtain ⟨⟨hxs, hxt⟩, hlocated⟩ := List.forall_mem_cons.1 hlocated
    obtain ⟨hrestApart, hne, haway⟩ := hapart.cons
    rcases fails_forM.1 h with hfirst | ⟨_, t₁, hfirst, hmore⟩
    · obtain ⟨rfl, rfl, hdirectory⟩ := fails_commit hfirst
      refine ⟨[], x.1, x.2, rest, rfl, rfl, hdirectory _ hxs hxt hx, ?_⟩
      exact ⟨fun _ h => (by cases h), fun _ h => (by cases h), hstaged, fun _ _ _ => rfl⟩
    · obtain ⟨-, data, hdata, hmoved⟩ := succeeds_commit hfirst
      obtain rfl := Option.some.inj (hdata.symm.trans hx)
      have hstaged₁ : ∀ y ∈ rest, t₁.file? (t₁.stagingPlace y.1) = some y.2 := by
        intro y hy
        obtain ⟨-, -, htarget, hstaging⟩ := haway y hy
        rw [hmoved.stagingPlace, hmoved.files, Function.update_of_ne htarget,
          Function.update_of_ne hstaging]
        exact hrest y hy
      have hlocated₁ : ∀ y ∈ rest, t₁.locate? (stagingPath y.1) = some (t₁.stagingPlace y.1) ∧
          t₁.locate? y.1 = some (t₁.place y.1) := by
        intro y hy
        rw [hmoved.stagingPlace, hmoved.place]
        exact ⟨hmoved.locate? (hlocated y hy).1, hmoved.locate? (hlocated y hy).2⟩
      obtain ⟨moved, target, data, rest, rfl, rfl, hdirectory, hrun⟩ :=
        ih (hmoved.apart.2 hrestApart) hstaged₁ hlocated₁ hmore
      rw [hmoved.place] at hdirectory
      exact ⟨x :: moved, target, data, rest, rfl, rfl, hdirectory, hrun.cons hapart hmoved⟩

/-- A file that was replaced has the new content, and nothing is left where that was staged. -/
theorem succeeds_replace (h : Succeeds (replace target data) t u t') :
    t'.read? target = some data ∧
      t.Becomes t' (update (update t.file? (t.stagingPlace target) none) (t.place target)
        (some data)) := by
  obtain ⟨_, t₁, hstage, hcommit⟩ := succeeds_bind.1 h
  obtain ⟨-, hstaged⟩ := succeeds_stage hstage
  obtain ⟨hlocate, data', hdata, hmoved⟩ := succeeds_commit hcommit
  have hsame : data' = data := by
    rw [hstaged.stagingPlace, hstaged.files, Function.update_self] at hdata
    exact (Option.some.inj hdata).symm
  rw [hsame, hstaged.files_eq, hstaged.stagingPlace, hstaged.place, Function.update_idem] at hmoved
  refine ⟨read?_eq_some ?_ ?_, hstaged.trans hmoved⟩
  · rw [hmoved.place]
    exact hmoved.locate? hlocate
  · rw [hmoved.place, hstaged.place, hmoved.files, Function.update_self]

/-- A fault while files are replaced, at places that are apart and where a target can be reached if
its content can be staged. -/
theorem fails_replaceAll {files : List (Path × Bytes)} (h : Fails (replaceAll files) t e t') :
    ((∀ x, e ≠ .replacement x) ∧ ∃ staged, staged <+: files.map Prod.fst ∧
      t.Becomes t' (t.filesBut (staged.map t.stagingPlace))) ∨
    ∃ t₁, t.Becomes t₁ (t.filesStaged files) ∧
      (∀ x ∈ files, t₁.locate? (stagingPath x.1) = some (t.stagingPlace x.1)) ∧
      Fails (files.forM fun x => commit x.1) t₁ e t' := by
  rcases fails_bind.1 h with hstage | ⟨_, t₁, hstage, hcommit⟩
  · exact .inl (fails_stageAll (fun _ hx => by cases hx) hstage)
  · obtain ⟨hstaged, hlocated⟩ := succeeds_stageAll hstage
    exact .inr ⟨t₁, hstaged, hlocated, hcommit⟩

/-- A fault in the second round, where the targets are apart and can be reached. -/
theorem interrupted_of_fails {files : List (Path × Bytes)} {t₁ : FileTree} (hapart : t.Apart files)
    (hstaged : t.Becomes t₁ (t.filesStaged files))
    (hstaging : ∀ x ∈ files, t₁.locate? (stagingPath x.1) = some (t.stagingPlace x.1))
    (htarget : ∀ x ∈ files, t₁.locate? x.1 = some (t.place x.1))
    (h : Fails (files.forM fun x => commit x.1) t₁ e t') :
    ∃ moved target data rest, files = moved ++ (target, data) :: rest ∧
      e = .replacement target ∧ t'.node? (t.place target) = some .directory ∧
      t.Interrupted t' moved ((target, data) :: rest) := by
  obtain ⟨hfiles, hothers⟩ := filesStaged_apply hapart
  have hstaged₁ : ∀ x ∈ files, t₁.file? (t₁.stagingPlace x.1) = some x.2 := by
    intro x hx
    rw [hstaged.stagingPlace, hstaged.files]
    exact hfiles x hx
  have hlocated₁ : ∀ x ∈ files, t₁.locate? (stagingPath x.1) = some (t₁.stagingPlace x.1) ∧
      t₁.locate? x.1 = some (t₁.place x.1) := by
    intro x hx
    rw [hstaged.stagingPlace, hstaged.place]
    exact ⟨hstaging x hx, htarget x hx⟩
  obtain ⟨moved, target, data, rest, rfl, rfl, hdirectory, hrun⟩ :=
    fails_commits (hstaged.apart.2 hapart) hstaged₁ hlocated₁ h
  rw [hstaged.place] at hdirectory
  exact ⟨moved, target, data, rest, rfl, rfl, hdirectory, hrun.of_staged hstaged hothers⟩

end Files

end EntityLoom
