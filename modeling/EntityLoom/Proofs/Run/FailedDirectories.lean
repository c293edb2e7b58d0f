import EntityLoom.Proofs.Files.Replacement
import EntityLoom.Run.DirectoryInput
import Mathlib.Data.List.Nodup

/-!
# Failed runs over directories

What a run over a directory leaves behind when it fails follows from where it fails
(`DirectoryInput.weave_fails`).

* Until all class files are read and woven nothing is written, so a fault there changes nothing.
* A fault while the results are staged takes the staged content away again.  No target has changed,
  but a file that stood where content was staged is gone.
* A fault while the staged results are moved leaves everything as it is at that moment: the targets
  before it have their new content, and the content for the others stays beside them.

The targets of a run are places apart, since they are class files of different names, and staged
content has another extension.
-/

namespace EntityLoom

/-! ## Names of class files -/

/-- A name with an extension has a character in front of its last dot, and ends in the extension. -/
theorem Path.reverse_of_extension? {name extension : String}
    (h : extension? name = some extension) :
    ∃ rest, name.toList.reverse = extension.toList.reverse ++ rest := by
  unfold extension? at h
  split at h
  · cases h
  · dsimp only at h
    split at h
    · obtain rfl := Option.some.inj h
      refine ⟨name.toList.reverse.dropWhile (· ≠ '.'), ?_⟩
      rw [String.toList_ofList, List.reverse_reverse, List.takeWhile_append_dropWhile]
    · cases h

/-- No class file has the name of staged content. -/
theorem Path.ne_staging_of_extension? {name : String} (h : extension? name = some "class")
    (other : String) : name ≠ other ++ ".tmp" := by
  rintro rfl
  obtain ⟨rest, hrest⟩ := reverse_of_extension? h
  rw [toList_staging, List.reverse_append] at hrest
  exact absurd (List.cons.inj hrest).1 (by decide)

theorem Files.exists_last_of_hasExtension {extension : String} {names : List String}
    (h : hasExtension extension names = true) :
    ∃ front last, names = front ++ [last] ∧ Path.extension? last = some extension := by
  unfold hasExtension at h
  obtain ⟨last, hlast, hextension⟩ := Option.bind_eq_some_iff.1 (of_decide_eq_true h)
  obtain ⟨front, hfront⟩ := List.getLast?_eq_some_iff.1 hlast
  exact ⟨front, last, hfront, hextension⟩

namespace FileTree

open EntityLoom.Path (IsName)

variable {t : FileTree} {output : Path}

/-- The place of a class file and where its content is staged, against those of another. -/
theorem places_ne {names others : List String}
    (hnames : Files.hasExtension "class" names = true ∧ ∀ name ∈ names, IsName name)
    (hothers : Files.hasExtension "class" others = true ∧ ∀ name ∈ others, IsName name) :
    t.place (output.below names) ≠ t.stagingPlace (output.below others) ∧
      (names ≠ others → t.place (output.below names) ≠ t.place (output.below others) ∧
        t.stagingPlace (output.below names) ≠ t.stagingPlace (output.below others)) := by
  obtain ⟨hclass, hnames⟩ := hnames
  obtain ⟨hclass', hothers⟩ := hothers
  obtain ⟨front, last, rfl, hlast⟩ := Files.exists_last_of_hasExtension hclass
  obtain ⟨front', last', rfl, -⟩ := Files.exists_last_of_hasExtension hclass'
  rw [place_below (by simp) hnames, place_below (by simp) hothers, stagingPlace_below hnames,
    stagingPlace_below hothers]
  refine ⟨fun heq => ?_, fun hne => ⟨fun heq => ?_, fun heq => ?_⟩⟩
  · obtain ⟨-, hlasts⟩ := List.append_inj' (List.append_cancel_left heq) rfl
    exact Path.ne_staging_of_extension? hlast last' (List.cons.inj hlasts).1
  · exact hne (List.append_cancel_left heq)
  · obtain ⟨rfl, hlasts⟩ := List.append_inj' (List.append_cancel_left heq) rfl
    have hchars := congrArg String.toList (List.cons.inj hlasts).1
    rw [Path.toList_staging, Path.toList_staging] at hchars
    exact hne (by rw [String.toList_inj.1 (List.append_cancel_right hchars)])

/-- Class files of different names below a directory are apart. -/
theorem apart_below {α : Type} {names : α → List String} (data : α → Bytes) {xs : List α}
    (hdistinct : (xs.map names).Nodup)
    (hxs : ∀ x ∈ xs, Files.hasExtension "class" (names x) = true ∧ ∀ name ∈ names x, IsName name) :
    t.Apart (xs.map fun x => (output.below (names x), data x)) := by
  unfold Apart
  rw [List.flatMap_map, List.nodup_flatMap]
  refine ⟨fun x hx => ?_, (List.pairwise_map.1 hdistinct).imp_of_mem fun {x y} hx hy hxy => ?_⟩
  · simpa using (@places_ne t output _ _ (hxs x hx) (hxs x hx)).1
  · obtain ⟨hstaging, hother⟩ := @places_ne t output _ _ (hxs x hx) (hxs y hy)
    obtain ⟨hstaging', -⟩ := @places_ne t output _ _ (hxs y hy) (hxs x hx)
    obtain ⟨hplace, hstagings⟩ := hother hxy
    change List.Disjoint _ _
    simp [hplace.symm, hstaging.symm, hstaging', hstagings.symm]

end FileTree

/-! ## Runs -/

namespace DirectoryInput

variable {w : Weaver} {input output : Path} {t t' : FileTree} {e : RunError}

/-- The class files below a directory with what a run makes of each. -/
def prepare {m : Type → Type} [Monad m] [FileStore m] (w : Weaver) (input : Path) :
    Attempt m (List WovenFile) := do
  let names ← Files.scanClasses input
  names.mapM (weaveFile w input)

/-- What a run writes: the content for each target. -/
def targets (input output : Path) (files : List WovenFile) : List (Path × Bytes) :=
  (files.filter (WovenFile.isWritten (input.same output))).map fun f =>
    (output.below f.names, f.outcome.content f.given)

/-- A run prepares everything before it writes. -/
theorem weave_eq (w : Weaver) (input output : Path) :
    (weave w input output : Attempt (StateM FileTree) _) =
      prepare w input >>= fun files => Files.replaceAll (targets input output files) >>= fun _ =>
        pure (WeaveSummary.ofOutcomes input output files.length (files.map WovenFile.outcome)) := by
  unfold weave prepare
  rw [bind_assoc]
  rfl

theorem readsOnly_read (file : Path) : ReadsOnly (read file) := by
  unfold read
  refine (readsOnly_read? file).bind fun data? => ?_
  split
  · exact .pure _
  · exact .throw _

theorem readsOnly_weaveFile (w : Weaver) (input : Path) (names : List String) :
    ReadsOnly (weaveFile w input names) := by
  unfold weaveFile
  refine (readsOnly_read _).bind fun given => ?_
  split
  · exact .pure _
  · exact .throw _

theorem readsOnly_prepare (w : Weaver) (input : Path) : ReadsOnly (prepare w input) :=
  (Files.readsOnly_scan _ _).bind fun _ => .mapM (readsOnly_weaveFile w input) _

theorem names_of_weaveFile {names : List String} {f : WovenFile}
    (h : Succeeds (weaveFile w input names) t f t') : f.names = names := by
  unfold weaveFile at h
  obtain ⟨given, t₁, -, h⟩ := succeeds_bind.1 h
  split at h
  · obtain ⟨rfl, -⟩ := succeeds_pure.1 h
    rfl
  · exact absurd h not_succeeds_throw

theorem names_of_mapM_weaveFile {names : List (List String)} {files : List WovenFile}
    (h : Succeeds (names.mapM (weaveFile w input)) t files t') :
    files.map WovenFile.names = names := by
  induction names generalizing t t' files with
  | nil =>
    rw [List.mapM_nil] at h
    obtain ⟨rfl, -⟩ := succeeds_pure.1 h
    rfl
  | cons first rest ih =>
    obtain ⟨f, t₁, files', hf, hfiles, rfl⟩ := succeeds_mapM_cons.1 h
    rw [List.map_cons, names_of_weaveFile hf, ih hfiles]

/-- The targets of a run in a tree whose names are those of files are apart, and each can be reached
if its content can be staged. -/
theorem apart_targets {files : List WovenFile} (ht : t.WellFormed)
    (h : Succeeds (prepare w input) t files t') :
    t.Apart (targets input output files) ∧
      ∀ x ∈ targets input output files, ∀ t₁ : FileTree,
        (∃ there, t₁.locate? (Files.stagingPath x.1) = some there) →
          t₁.locate? x.1 = some (t₁.place x.1) := by
  obtain ⟨names, t₁, hscan, hfiles⟩ := succeeds_bind.1 h
  have hnames := names_of_mapM_weaveFile hfiles
  obtain ⟨⟨kept, hkept, hperm⟩, hclass⟩ := Files.succeeds_scan hscan
  have hdistinct : names.Nodup := hperm.nodup_iff.2 ((ht.nodup_filesBelow input).sublist hkept)
  have hfile : ∀ f ∈ files, Files.hasExtension "class" f.names = true ∧
      ∀ name ∈ f.names, Path.IsName name := by
    intro f hf
    have hmem : f.names ∈ names := hnames ▸ List.mem_map_of_mem hf
    exact ⟨hclass _ hmem, ht.isName (hkept.subset (hperm.subset hmem))⟩
  refine ⟨FileTree.apart_below _ ?_ fun f hf => hfile f (List.mem_filter.1 hf).1, ?_⟩
  · exact (hnames ▸ hdistinct).sublist (List.filter_sublist.map _)
  · intro x hx t₂ hstaging
    obtain ⟨f, hf, rfl⟩ := List.mem_map.1 hx
    obtain ⟨hextension, hisName⟩ := hfile f (List.mem_filter.1 hf).1
    obtain ⟨front, last, hlast, -⟩ := Files.exists_last_of_hasExtension hextension
    rw [hlast] at hisName
    dsimp only at hstaging ⊢
    rw [hlast] at hstaging ⊢
    exact FileTree.locate?_of_staging hisName hstaging

/-- What a failed run leaves behind.  It fails before it writes, and nothing has changed; or while
it stages, and no file has changed but those where content was staged, which are gone; or while it
moves what it staged, because a directory is at a target.  Then the targets before that one are
replaced, and the content for it and for those behind it is left beside them. -/
theorem weave_fails (h : Fails (weave w input output) t e t') :
    Fails (prepare w input) t e t' ∧ t' = t ∨
    ∃ files, Succeeds (prepare w input) t files t ∧
      (((∀ target, e ≠ .replacement target) ∧
          ∃ staged, staged <+: (targets input output files).map Prod.fst ∧
            t.Becomes t' (t.filesBut (staged.map t.stagingPlace))) ∨
        ((∃ target, e = .replacement target) ∧
          (t.WellFormed → ∃ moved target data rest,
            targets input output files = moved ++ (target, data) :: rest ∧
            e = .replacement target ∧ t'.node? (t.place target) = some .directory ∧
            t.Interrupted t' moved ((target, data) :: rest)))) := by
  rw [weave_eq] at h
  rcases fails_bind.1 h with hprepare | ⟨files, t₁, hprepare, hwrite⟩
  · exact .inl ⟨hprepare, (readsOnly_prepare w input).of_fails hprepare⟩
  · obtain rfl := (readsOnly_prepare w input).of_succeeds hprepare
    refine .inr ⟨files, hprepare, ?_⟩
    rcases fails_bind.1 hwrite with hreplace | ⟨_, t₂, -, hpure⟩
    · rcases Files.fails_replaceAll hreplace with hstage | ⟨t₂, hstaged, hstaging, hcommit⟩
      · exact .inl hstage
      · obtain ⟨x, -, hcause⟩ := Files.exists_of_fails_commits hcommit
        refine .inr ⟨⟨x.1, hcause⟩, fun ht => ?_⟩
        obtain ⟨hapart, hreached⟩ := @apart_targets w input output t₁ t₁ files ht hprepare
        refine Files.interrupted_of_fails hapart hstaged hstaging (fun x hx => ?_) hcommit
        rw [← hstaged.place]
        exact hreached x hx t₂ ⟨_, hstaging x hx⟩
    · cases hpure

/-- Two class files, and a directory in the way of the second one. -/
def blockedTree : FileTree where
  nodes :=
    [ (["in"], .directory), (["in", "A.class"], .file [1] 0), (["in", "B.class"], .file [2] 0),
      (["out"], .directory), (["out", "B.class"], .directory) ]
  workingDirectory := []
  clock := 0

/-- A weaver that knows of no class. -/
def idleWeaver : Weaver := ⟨∅, .default⟩

theorem wellFormed_blockedTree : blockedTree.WellFormed :=
  ⟨by decide +kernel, by decide +kernel⟩

/-- The run fails, the first file is written all the same, and the staged content of the second one
stays. -/
theorem weave_fails_blocked :
    ∃ e t', Fails (weave idleWeaver ⟨"/in"⟩ ⟨"/out"⟩) blockedTree e t' ∧
      blockedTree.file? ["out", "A.class"] = none ∧ t'.file? ["out", "A.class"] = some [1] ∧
      blockedTree.file? ["out", "B.class.tmp"] = none ∧
      t'.file? ["out", "B.class.tmp"] = some [2] := by
  obtain ⟨e, t', h, he⟩ := @exists_fails_with _ _ _ (· = .replacement ⟨"/out/B.class"⟩)
    (weave idleWeaver ⟨"/in"⟩ ⟨"/out"⟩) blockedTree (by decide +kernel)
  obtain ⟨files, t₁, hfiles, htargets⟩ := @exists_succeeds_with _ _ _ (fun files =>
      targets ⟨"/in"⟩ ⟨"/out"⟩ files = [(⟨"/out/A.class"⟩, [1]), (⟨"/out/B.class"⟩, [2])])
    (prepare idleWeaver ⟨"/in"⟩) blockedTree (by decide +kernel)
  have hplaces : blockedTree.place ⟨"/out/A.class"⟩ = ["out", "A.class"] ∧
      blockedTree.stagingPlace ⟨"/out/B.class"⟩ = ["out", "B.class.tmp"] := by decide +kernel
  have hleft : blockedTree.Interrupted t' [(⟨"/out/A.class"⟩, [1])] [(⟨"/out/B.class"⟩, [2])] := by
    rcases weave_fails h with ⟨hprepare, -⟩ | ⟨files', hprepare, hstage | ⟨-, hmove⟩⟩
    · exact absurd hfiles hprepare.not_succeeds
    · exact absurd he (hstage.1 _)
    · obtain rfl := (hfiles.unique hprepare).1
      obtain ⟨moved, target, data, rest, hwritten, hcause, -, hleft⟩ :=
        hmove wellFormed_blockedTree
      obtain rfl := RunError.replacement.inj (he.symm.trans hcause)
      rw [htargets] at hwritten
      cases moved with
      | nil => exact absurd (List.cons.inj hwritten).1 (by simp)
      | cons first moved =>
        obtain ⟨rfl, hrest⟩ := List.cons.inj hwritten
        cases moved with
        | nil =>
          obtain ⟨hsecond, rfl⟩ := List.cons.inj hrest
          rw [← hsecond] at hleft
          exact hleft
        | cons => exact absurd (congrArg List.length hrest) (by simp)
  have hfirst := hleft.replaced _ (List.mem_singleton.2 rfl)
  have hsecond := hleft.staged _ (List.mem_singleton.2 rfl)
  rw [hplaces.1] at hfirst
  rw [hplaces.2] at hsecond
  exact ⟨e, t', h, by decide +kernel, hfirst, by decide +kernel, hsecond⟩

end DirectoryInput

end EntityLoom
