import EntityLoom.Files.Replace
import EntityLoom.Files.Scan
import EntityLoom.Proofs.Files.Requests

/-!
# Places below a directory

Names that were found below a directory, followed from the path of another, lead below the place of
that one by the same names (`FileTree.place_below`).  The content for a file is staged in the same
directory, under a name with another extension, so no target of a run is where the content for
another one is staged (`FileTree.apart_below`).
-/

namespace EntityLoom

namespace Path

/-- A name that a file or a directory can have. -/
structure IsName (name : String) : Prop where
  nonempty : name ≠ ""
  notCurrent : name ≠ "."
  notParent : name ≠ ".."
  whole : '/' ∉ name.toList

instance (name : String) : Decidable (IsName name) :=
  decidable_of_iff (name ≠ "" ∧ name ≠ "." ∧ name ≠ ".." ∧ '/' ∉ name.toList)
    ⟨fun ⟨h₁, h₂, h₃, h₄⟩ => ⟨h₁, h₂, h₃, h₄⟩, fun ⟨h₁, h₂, h₃, h₄⟩ => ⟨h₁, h₂, h₃, h₄⟩⟩

variable {p : Path} {name : String} {names : List String}

theorem IsName.step (h : IsName name) (here : Location) :
    FileTree.step here name = here ++ [name] := by
  unfold FileTree.step isVoid
  rw [if_neg (by simp [h.nonempty, h.notCurrent]), if_neg h.notParent]

theorem foldl_step (h : ∀ name ∈ names, IsName name) (here : Location) :
    names.foldl FileTree.step here = here ++ names := by
  induction names generalizing here with
  | nil => rw [List.foldl_nil, List.append_nil]
  | cons name rest ih =>
    obtain ⟨hname, hrest⟩ := List.forall_mem_cons.1 h
    rw [List.foldl_cons, hname.step, ih hrest, List.append_assoc, List.singleton_append]

/-! ## Texts -/

/-- The parts of a path that lead to a directory, before names that are followed from there. -/
def frontParts (p : Path) : List String :=
  if p.text = "" then []
  else if p.text.toList.getLast? = some '/' then p.parts.dropLast
  else p.parts

theorem splitOn_intercalate (hne : names ≠ []) (h : ∀ name ∈ names, IsName name) :
    ("/".intercalate names).toList.splitOn '/' = names.map String.toList := by
  rw [String.toList_intercalate]
  refine List.splitOn_intercalate '/' ?_ (by simpa using hne)
  intro cs hcs
  obtain ⟨name, hname, rfl⟩ := List.mem_map.1 hcs
  exact (h name hname).whole

theorem toList_intercalate_cons (hne : names ≠ []) (h : ∀ name ∈ names, IsName name) :
    ∃ c cs, c ≠ '/' ∧ ("/".intercalate names).toList = c :: cs := by
  obtain ⟨name, rest, rfl⟩ := List.exists_cons_of_ne_nil hne
  obtain ⟨hname, -⟩ := List.forall_mem_cons.1 h
  have hchars : name.toList ≠ [] := fun hnil => hname.nonempty (String.toList_eq_nil_iff.1 hnil)
  obtain ⟨c, cs, hcs⟩ := List.exists_cons_of_ne_nil hchars
  have hc : c ≠ '/' := by
    rintro rfl
    exact hname.whole (by rw [hcs]; exact List.mem_cons_self)
  rw [String.toList_intercalate, List.map_cons]
  cases rest with
  | nil => exact ⟨c, cs, hc, by rw [List.map_nil, List.intercalate_singleton, hcs]⟩
  | cons =>
    rw [List.map_cons, List.intercalate_cons_cons, hcs]
    exact ⟨c, _, hc, rfl⟩

/-- Names that are followed are not taken for a path from the root. -/
theorem isAbsolute_intercalate (hne : names ≠ []) (h : ∀ name ∈ names, IsName name) :
    (Path.mk ("/".intercalate names)).isAbsolute = false := by
  obtain ⟨c, cs, hc, hchars⟩ := toList_intercalate_cons hne h
  unfold isAbsolute
  rw [hchars]
  simpa using hc

theorem parts_eq (p : Path) : p.parts = (p.text.toList.splitOn '/').map String.ofList := rfl

theorem text_below (hne : names ≠ []) (h : ∀ name ∈ names, IsName name) :
    (p.below names).text =
      (if p.text = "" ∨ p.text.toList.getLast? = some '/' then p.text else p.text ++ "/") ++
        "/".intercalate names := by
  unfold below join
  rw [isAbsolute_intercalate hne h]
  by_cases hempty : p.text = ""
  · rw [if_pos (.inr hempty), if_pos (.inl hempty), hempty, String.empty_append]
  · rw [if_neg (by simp [hempty])]
    by_cases hlast : p.text.toList.getLast? = some '/'
    · rw [if_pos hlast, if_pos (.inr hlast)]
    · rw [if_neg hlast, if_neg (by simp [hempty, hlast])]

/-- The parts of a path that names are followed from. -/
theorem parts_below (hne : names ≠ []) (h : ∀ name ∈ names, IsName name) :
    (p.below names).parts = p.frontParts ++ names := by
  have hnames : (names.map String.toList).map String.ofList = names := by
    rw [List.map_map]
    exact (List.map_congr_left fun name _ => String.ofList_toList).trans (List.map_id _)
  rw [parts_eq, text_below hne h, String.toList_append]
  unfold frontParts
  by_cases hempty : p.text = ""
  · rw [if_pos hempty, if_pos (.inl hempty), hempty]
    change (List.splitOn '/' ("/".intercalate names).toList).map _ = _
    rw [splitOn_intercalate hne h, hnames, List.nil_append]
  · rw [if_neg hempty]
    by_cases hlast : p.text.toList.getLast? = some '/'
    · obtain ⟨front, hfront⟩ := List.getLast?_eq_some_iff.1 hlast
      rw [if_pos hlast, if_pos (.inr hlast), parts_eq, hfront, List.append_assoc,
        List.singleton_append, List.splitOn_append_cons_self, splitOn_intercalate hne h,
        List.splitOn_append_cons_self, List.splitOn_nil, List.map_append, List.map_append, hnames]
      simp
    · rw [if_neg hlast, if_neg (by simp [hempty, hlast]), String.toList_append, List.append_assoc]
      change (List.splitOn '/' (p.text.toList ++ '/' :: ("/".intercalate names).toList)).map _ = _
      rw [List.splitOn_append_cons_self, splitOn_intercalate hne h, List.map_append, hnames]
      rfl

theorem isAbsolute_below (hne : names ≠ []) (h : ∀ name ∈ names, IsName name) :
    (p.below names).isAbsolute = p.isAbsolute := by
  by_cases hempty : p.text = ""
  · have hbelow : p.below names = ⟨"/".intercalate names⟩ := by
      unfold below join
      rw [if_pos (.inr hempty)]
    rw [hbelow, isAbsolute_intercalate hne h]
    unfold isAbsolute
    rw [hempty]
    rfl
  · have hchars : p.text.toList ≠ [] := fun hnil => hempty (String.toList_eq_nil_iff.1 hnil)
    obtain ⟨c, cs, hcs⟩ := List.exists_cons_of_ne_nil hchars
    unfold isAbsolute
    rw [text_below hne h, String.toList_append]
    split
    · rw [hcs]; rfl
    · rw [String.toList_append, hcs]; rfl

theorem text_below_ne (hne : names ≠ []) (h : ∀ name ∈ names, IsName name) :
    (p.below names).text ≠ "" := by
  obtain ⟨c, cs, -, hchars⟩ := toList_intercalate_cons hne h
  rw [text_below hne h]
  intro hempty
  rw [← String.toList_eq_nil_iff, String.toList_append, hchars] at hempty
  exact List.cons_ne_nil _ _ (List.append_eq_nil_iff.1 hempty).2

/-! ## Staging paths -/

theorem toList_staging (name : String) :
    (name ++ ".tmp").toList = name.toList ++ ['.', 't', 'm', 'p'] :=
  String.toList_append

/-- A name with the extension of staged content. -/
theorem IsName.staging (h : IsName name) : IsName (name ++ ".tmp") := by
  have hne : ∀ other : String, other.toList.getLast? ≠ some 'p' → name ++ ".tmp" ≠ other := by
    rintro _ hlast rfl
    rw [toList_staging, List.getLast?_append] at hlast
    exact hlast rfl
  refine ⟨hne _ (by decide), hne _ (by decide), hne _ (by decide), ?_⟩
  rw [toList_staging, List.mem_append]
  exact fun hmem => hmem.elim h.whole (by decide)

variable {front : List String} {last : String}

theorem forall_isName_staging (h : ∀ name ∈ front ++ [last], IsName name) :
    ∀ name ∈ front ++ [last ++ ".tmp"], IsName name := by
  intro name hname
  rcases List.mem_append.1 hname with hname | hname
  · exact h name (List.mem_append_left _ hname)
  · rw [List.mem_singleton.1 hname]
    exact (h last (by simp)).staging

theorem intercalate_staging (front : List String) (last : String) :
    "/".intercalate (front ++ [last]) ++ ".tmp" = "/".intercalate (front ++ [last ++ ".tmp"]) := by
  by_cases hfront : front = []
  · subst hfront
    rw [List.nil_append, List.nil_append, String.intercalate_singleton,
      String.intercalate_singleton]
  · rw [String.intercalate_append_of_ne_nil hfront (List.cons_ne_nil _ _),
      String.intercalate_append_of_ne_nil hfront (List.cons_ne_nil _ _),
      String.intercalate_singleton, String.intercalate_singleton, String.append_assoc]

/-- The content for a file is staged beside it. -/
theorem stagingPath_below (h : ∀ name ∈ front ++ [last], IsName name) :
    Files.stagingPath (p.below (front ++ [last])) = p.below (front ++ [last ++ ".tmp"]) := by
  have htext : (Files.stagingPath (p.below (front ++ [last]))).text =
      (p.below (front ++ [last ++ ".tmp"])).text := by
    change (p.below (front ++ [last])).text ++ ".tmp" = _
    rw [text_below (by simp) h, text_below (by simp) (forall_isName_staging h),
      String.append_assoc, intercalate_staging]
  generalize Files.stagingPath (p.below (front ++ [last])) = q at htext ⊢
  cases q
  exact congrArg Path.mk htext

end Path

namespace FileTree

open EntityLoom.Path (IsName)

variable {t : FileTree} {p : Path} {names front : List String} {last : String}

/-- The parts in front of followed names lead to the place that they are followed from. -/
theorem foldl_frontParts (t : FileTree) (p : Path) :
    p.frontParts.foldl step (t.start p) = t.place p := by
  unfold Path.frontParts place
  split
  · next hempty =>
    rw [Path.parts_eq, hempty]
    rfl
  · split
    · next hlast =>
      obtain ⟨chars, hchars⟩ := List.getLast?_eq_some_iff.1 hlast
      have hparts : p.parts = (chars.splitOn '/').map String.ofList ++ [""] := by
        rw [Path.parts_eq, hchars, List.splitOn_append_cons_self, List.splitOn_nil,
          List.map_append]
        rfl
      rw [hparts, List.dropLast_concat, List.foldl_append]
      rfl
    · rfl

theorem start_below (hne : names ≠ []) (h : ∀ name ∈ names, IsName name) :
    t.start (p.below names) = t.start p := by
  unfold start
  rw [Path.isAbsolute_below hne h]

/-- Names that are followed from a path lead below its place. -/
theorem place_below (hne : names ≠ []) (h : ∀ name ∈ names, IsName name) :
    t.place (p.below names) = t.place p ++ names := by
  rw [place, Path.parts_below hne h, start_below hne h, List.foldl_append, foldl_frontParts,
    Path.foldl_step h]

/-- The place where the content for a file is staged. -/
def stagingPlace (t : FileTree) (target : Path) : Location :=
  t.place (Files.stagingPath target)

theorem Becomes.stagingPlace {t' : FileTree} {g : Location → Option Bytes} (h : t.Becomes t' g)
    (target : Path) : t'.stagingPlace target = t.stagingPlace target :=
  h.place _

theorem stagingPlace_below (h : ∀ name ∈ front ++ [last], IsName name) :
    t.stagingPlace (p.below (front ++ [last])) = t.place p ++ (front ++ [last ++ ".tmp"]) := by
  rw [stagingPlace, Path.stagingPath_below h, place_below (by simp) (Path.forall_isName_staging h)]

/-- Where following parts ends matters no more than the place before it. -/
theorem follow?_concat {here there : Location} {parts : List String} {part : String} :
    t.follow? here (parts ++ [part]) = some there ↔
      ∃ parent, t.follow? here parts = some parent ∧ t.node? parent = some .directory ∧
        there = step parent part := by
  induction parts generalizing here with
  | nil =>
    change (if t.node? here = some .directory then some (step here part) else none) = _ ↔ _
    constructor
    · intro h
      split at h
      · next hd => exact ⟨here, rfl, hd, (Option.some.inj h).symm⟩
      · cases h
    · rintro ⟨parent, hparent, hd, rfl⟩
      obtain rfl := Option.some.inj hparent
      rw [if_pos hd]
  | cons first rest ih =>
    rw [List.cons_append]
    unfold follow?
    split
    · exact ih
    · simp

/-- A path leads somewhere if content for it can be staged. -/
theorem locate?_of_staging (h : ∀ name ∈ front ++ [last], IsName name)
    (hstaging : ∃ there, t.locate? (Files.stagingPath (p.below (front ++ [last]))) = some there) :
    t.locate? (p.below (front ++ [last])) = some (t.place (p.below (front ++ [last]))) := by
  have hname := Path.forall_isName_staging h
  obtain ⟨there, hstaging⟩ := hstaging
  rw [Path.stagingPath_below h] at hstaging
  unfold locate? at hstaging
  rw [if_neg (Path.text_below_ne (by simp) hname), start_below (by simp) hname,
    Path.parts_below (by simp) hname, ← List.append_assoc, follow?_concat] at hstaging
  obtain ⟨parent, hparent, hd, -⟩ := hstaging
  have hlocate : ∃ here, t.locate? (p.below (front ++ [last])) = some here := by
    unfold locate?
    rw [if_neg (Path.text_below_ne (by simp) h), start_below (by simp) h,
      Path.parts_below (by simp) h, ← List.append_assoc]
    exact ⟨step parent last, follow?_concat.2 ⟨parent, hparent, hd, rfl⟩⟩
  obtain ⟨here, hlocate⟩ := hlocate
  rw [hlocate, eq_place_of_locate? hlocate]

/-! ## Found names -/

/-- A tree in which there is one thing at a place, and every place has names that files can have. -/
structure WellFormed (t : FileTree) : Prop where
  names : ∀ x ∈ t.nodes, ∀ name ∈ x.1, IsName name
  distinct : (t.nodes.map Prod.fst).Nodup

/-- What is found of something below a place. -/
theorem eq_append_of_found {here : Location} {x : Location × FileNode}
    (h : (match x.2, here.isPrefixOf? x.1 with
      | .file .., some (name :: rest) => some (name :: rest)
      | _, _ => none) = some names) : names ≠ [] ∧ x.1 = here ++ names := by
  split at h
  · next name rest _ hprefix =>
    obtain rfl := Option.some.inj h
    exact ⟨List.cons_ne_nil _ _, (List.isPrefixOf?_eq_some_iff_append_eq.1 hprefix).symm⟩
  · cases h

theorem mem_filesBelow (h : names ∈ t.filesBelow p) :
    names ≠ [] ∧ ∃ x ∈ t.nodes, x.1 = t.place p ++ names := by
  unfold filesBelow at h
  split at h
  · cases h
  · next here hlocate =>
    obtain rfl := eq_place_of_locate? hlocate
    obtain ⟨x, hmem, hfound⟩ := List.mem_filterMap.1 h
    obtain ⟨hne, hplace⟩ := eq_append_of_found hfound
    exact ⟨hne, x, hmem, hplace⟩

theorem WellFormed.isName (h : t.WellFormed) (hnames : names ∈ t.filesBelow p) :
    ∀ name ∈ names, IsName name := by
  obtain ⟨-, x, hx, hplace⟩ := mem_filesBelow hnames
  intro name hname
  exact h.names x hx name (hplace ▸ List.mem_append_right _ hname)

theorem WellFormed.nodup_filesBelow (h : t.WellFormed) (p : Path) : (t.filesBelow p).Nodup := by
  unfold filesBelow
  split
  · exact List.nodup_nil
  · refine List.pairwise_filterMap.2 ((List.pairwise_map.1 h.distinct).imp ?_)
    intro x y hxy names hx others hy heq
    obtain ⟨-, hplace⟩ := eq_append_of_found hx
    obtain ⟨-, hplace'⟩ := eq_append_of_found hy
    exact hxy (by rw [hplace, hplace', heq])

end FileTree

namespace Files

variable {t t' : FileTree} {base : Path} {extension : String} {found names : List (List String)}

theorem readsOnly_notIgnored (base : Path) (found : List (List String)) :
    ReadsOnly (notIgnored base found) := by
  unfold notIgnored
  refine (readsOnly_canonical? base).bind fun canonical? => ?_
  split
  · exact .pure _
  · refine ReadsOnly.bind (.mapM (fun directory => ?_) _) fun _ => .pure _
    exact (readsOnly_read? _).bind fun _ => .pure _

theorem readsOnly_scan (extension : String) (base : Path) : ReadsOnly (scan extension base) := by
  have hdirectory : ReadsOnly (FileStore.isDirectory base : Attempt (StateM FileTree) _) :=
    (readsOnly_status? base).bind fun _ => .pure _
  have hrest : ReadsOnly (do
      let found ← notIgnored base (← FileStore.filesBelow base)
      return sortBy precedes (found.filter (hasExtension extension)) :
        Attempt (StateM FileTree) _) :=
    (readsOnly_filesBelow base).bind fun _ => (readsOnly_notIgnored base _).bind fun _ => .pure _
  refine hdirectory.bind fun isDirectory => ?_
  cases isDirectory with
  | true => exact hrest
  | false => exact (ReadsOnly.throw _).bind fun _ => hrest

theorem notIgnored_sublist
    (h : Succeeds (notIgnored base found : Attempt (StateM FileTree) _) t names t') :
    names.Sublist found := by
  unfold notIgnored at h
  obtain ⟨canonical?, t₁, -, h⟩ := succeeds_bind.1 h
  split at h
  · obtain ⟨rfl, -⟩ := succeeds_pure.1 h
    exact .refl _
  · obtain ⟨sets, t₂, -, h⟩ := succeeds_bind.1 h
    obtain ⟨rfl, -⟩ := succeeds_pure.1 h
    exact List.filter_sublist

/-- A scan finds some of the files below a directory, all with the extension. -/
theorem succeeds_scan (h : Succeeds (scan extension base) t names t') :
    (∃ kept, kept.Sublist (t.filesBelow base) ∧ names.Perm kept) ∧
      ∀ x ∈ names, hasExtension extension x = true := by
  unfold scan at h
  obtain ⟨isDirectory, t₁, hstatus, h⟩ := succeeds_bind.1 h
  obtain rfl := ((readsOnly_status? base).bind fun _ => .pure _).of_succeeds hstatus
  cases isDirectory with
  | false =>
    obtain ⟨_, _, hthrow, -⟩ := succeeds_bind.1 h
    exact absurd hthrow not_succeeds_throw
  | true =>
    obtain ⟨below, t₂, hbelow, h⟩ := succeeds_bind.1 h
    obtain ⟨kept, t₃, hkept, h⟩ := succeeds_bind.1 h
    obtain ⟨rfl, -⟩ := succeeds_pure.1 h
    obtain ⟨rfl, rfl⟩ := Prod.mk.inj (show (t₁.filesBelow base, t₁) = (below, t₂) from
      succeeds_request.1 hbelow)
    refine ⟨⟨_, List.filter_sublist.trans (notIgnored_sublist hkept), sortBy_perm _⟩, ?_⟩
    intro x hx
    exact (List.mem_filter.1 (mem_sortBy.1 hx)).2

end Files

end EntityLoom
