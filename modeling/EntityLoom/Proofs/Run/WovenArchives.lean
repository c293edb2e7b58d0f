import EntityLoom.Proofs.Archive.RoundTrip
import EntityLoom.Proofs.Files.Replacement
import EntityLoom.Proofs.Weaving.Conservative
import EntityLoom.Run.ArchiveInput

/-!
# What a run keeps of an archive

A run over an archive that succeeds keeps the entries in their order, with their names, and replaces
the data of those that it weaves (`ArchiveInput.weave_keeps`).  Each entry is handled by its own
name and data alone (`Weaver.Handles`).  The entries of signatures are dropped when an entry was
woven, and only then.

What a run leaves is read back from the output, with one fault.  A run is to copy the entries that it
does not weave unchanged, and an entry for a folder is written without its data
(`ArchiveInput.not_folder_data_kept`).
-/

namespace EntityLoom

open Function (update)

/-! ## Names of entries -/

namespace ArchiveEntry

variable {e : ArchiveEntry}

theorem className?_eq_some {name : String} :
    e.className? = some name ↔ e.isFolder = false ∧ ClassName.ofEntry? e.name = some name := by
  unfold className?
  cases e.isFolder <;> simp

/-- The entries of signatures are files of certain names, directly in the folder for metadata. -/
theorem isSignature_iff :
    e.isSignature = true ↔ ∃ file,
      ClassName.metadataFolder.toList ++ file = e.name.toList.map Char.toUpper ∧ '/' ∉ file ∧
      ("SIG-".toList <+: file ∨ ∃ suffix ∈ signatureSuffixes, suffix.toList <:+ file) := by
  unfold isSignature
  cases hfile : ClassName.metadataFolder.toList.isPrefixOf? (e.name.toList.map Char.toUpper) with
  | none =>
    constructor
    · intro h
      cases h
    · rintro ⟨file, hname, -⟩
      rw [List.isPrefixOf?_eq_some_iff_append_eq.2 hname] at hfile
      cases hfile
  | some file =>
    have hname := List.isPrefixOf?_eq_some_iff_append_eq.1 hfile
    have hfiles : ∀ other, ClassName.metadataFolder.toList ++ other =
        e.name.toList.map Char.toUpper ↔ other = file := by
      intro other
      rw [← hname]
      exact ⟨List.append_cancel_left, fun h => h ▸ rfl⟩
    simp [hfiles]

end ArchiveEntry

/-! ## Handling entries -/

/-- What a run makes of an entry: it weaves the files of classes in the model, and leaves all others
untouched. -/
inductive Weaver.Handles (w : Weaver) (e : ArchiveEntry) : FileOutcome → Prop where
  | untouched (h : e.isFolder = false →
    ∀ name, ClassName.ofEntry? e.name = some name → w.model.get? name = none) :
    w.Handles e .untouched
  | alreadyWoven {name : String} {c : MappedClass} (hfolder : e.isFolder = false)
    (hname : ClassName.ofEntry? e.name = some name) (hclass : w.model.get? name = some c)
    (h : w.context.weave w.model e.data = .ok .alreadyWoven) : w.Handles e .alreadyWoven
  | woven {name : String} {c : MappedClass} {data : Bytes} {report : WeaveReport}
    (hfolder : e.isFolder = false) (hname : ClassName.ofEntry? e.name = some name)
    (hclass : w.model.get? name = some c)
    (h : w.context.weave w.model e.data = .ok (.woven data report)) :
    w.Handles e (.woven data report)

namespace Weaver

variable {w : Weaver} {e : ArchiveEntry} {outcome : FileOutcome}

theorem handles_of_weaveEntry (h : w.weaveEntry e = .ok outcome) : w.Handles e outcome := by
  unfold weaveEntry weaveNamed at h
  split at h
  · next hnone =>
    obtain rfl := Except.ok.inj h
    refine .untouched fun hfolder name hname => ?_
    rw [ArchiveEntry.className?_eq_some.2 ⟨hfolder, hname⟩, Option.bind_some] at hnone
    exact hnone
  · next c hsome =>
    obtain ⟨name, hclassName, hclass⟩ := Option.bind_eq_some_iff.1 hsome
    obtain ⟨hfolder, hname⟩ := ArchiveEntry.className?_eq_some.1 hclassName
    obtain ⟨result, hresult, houtcome⟩ := bind_eq_ok.1 h
    split at houtcome
    · obtain rfl := Except.ok.inj houtcome
      exact .alreadyWoven hfolder hname hclass hresult
    · obtain rfl := Except.ok.inj houtcome
      exact .woven hfolder hname hclass hresult

theorem handles_of_weaveEntries {entries : List ArchiveEntry} {outcomes : List FileOutcome}
    (h : w.weaveEntries entries = .ok outcomes) : List.Forall₂ w.Handles entries outcomes := by
  refine (mapM_eq_ok.1 h).imp fun e outcome houtcome => handles_of_weaveEntry ?_
  cases hentry : w.weaveEntry e with
  | error fault =>
    rw [hentry] at houtcome
    cases houtcome
  | ok o =>
    rw [hentry] at houtcome
    exact congrArg Except.ok (Except.ok.inj houtcome)

end Weaver

namespace ArchiveEntry

/-- An entry after it was handled. -/
def after (e : ArchiveEntry) (outcome : FileOutcome) : ArchiveEntry :=
  { e with data := outcome.content e.data }

theorem name_after (e : ArchiveEntry) (outcome : FileOutcome) : (e.after outcome).name = e.name :=
  rfl

theorem isSignature_after (e : ArchiveEntry) (outcome : FileOutcome) :
    (e.after outcome).isSignature = e.isSignature :=
  rfl

/-- Data that is not woven stays. -/
theorem after_eq_self {outcome : FileOutcome} (h : outcome.report? = none) (e : ArchiveEntry) :
    e.after outcome = e := by
  cases outcome with
  | untouched => rfl
  | alreadyWoven => rfl
  | woven => cases h

end ArchiveEntry

/-! ## Runs -/

namespace Archive

variable {entries kept : List ArchiveEntry} {outcomes : List FileOutcome} {s : WeaveSummary}

/-- What is kept of the entries of an archive whose entries are handled with the given outcomes, and
what is said about it. -/
structure Keeps (entries : List ArchiveEntry) (outcomes : List FileOutcome)
    (kept : List ArchiveEntry) (s : WeaveSummary) : Prop where
  /-- Where nothing was woven, all is kept as it is. -/
  unwoven : s.woven = 0 → kept = entries
  /-- Else the entries of signatures are dropped, and woven data is replaced. -/
  rewoven : 0 < s.woven →
    kept = (entries.zipWith ArchiveEntry.after outcomes).filter (!·.isSignature)
  classes : s.classes =
    entries.countP fun e => !e.isFolder && (ClassName.ofEntry? e.name).isSome
  woven : s.woven = outcomes.countP (·.report?.isSome)
  alreadyWoven : s.alreadyWoven = outcomes.countP (· = .alreadyWoven)
  /-- There is one report for each woven entry, in order. -/
  reports : s.reports = outcomes.filterMap FileOutcome.report?

theorem classCount_eq (entries : List ArchiveEntry) :
    classCount entries =
      entries.countP fun e => !e.isFolder && (ClassName.ofEntry? e.name).isSome := by
  unfold classCount
  congr 1
  funext e
  unfold ArchiveEntry.className?
  cases e.isFolder <;> rfl

theorem zipWith_after (hlength : entries.length = outcomes.length)
    (h : ∀ o ∈ outcomes, o.report? = none) :
    entries.zipWith ArchiveEntry.after outcomes = entries := by
  induction entries generalizing outcomes with
  | nil => rfl
  | cons e rest ih =>
    cases outcomes with
    | nil => cases hlength
    | cons o outcomes =>
      obtain ⟨ho, houtcomes⟩ := List.forall_mem_cons.1 h
      rw [List.zipWith_cons_cons, e.after_eq_self ho, ih (Nat.succ.inj hlength) houtcomes]

theorem applyOutcomes_eq (entries : List ArchiveEntry) (outcomes : List FileOutcome) :
    applyOutcomes entries outcomes =
      if outcomes.any (·.report?.isSome) then
        (entries.zipWith ArchiveEntry.after outcomes).filter (!·.isSignature)
      else entries.zipWith ArchiveEntry.after outcomes :=
  rfl

theorem keeps_ofOutcomes (hlength : entries.length = outcomes.length) (input output : Path) :
    Keeps entries outcomes (applyOutcomes entries outcomes)
      (.ofOutcomes input output (classCount entries) outcomes) := by
  have hwoven : (outcomes.filterMap FileOutcome.report?).length =
      outcomes.countP (·.report?.isSome) := List.length_filterMap_eq_countP
  have hany : (outcomes.any (·.report?.isSome) = true) ↔
      0 < (outcomes.filterMap FileOutcome.report?).length := by
    rw [hwoven, List.countP_pos_iff, List.any_eq_true]
  refine ⟨fun h => ?_, fun h => ?_, classCount_eq entries, hwoven, rfl, rfl⟩
  · have hnone : ∀ o ∈ outcomes, o.report? = none :=
      List.filterMap_eq_nil_iff.1 (List.length_eq_zero_iff.1 h)
    rw [applyOutcomes_eq, zipWith_after hlength hnone, if_neg]
    rw [hany]
    exact Nat.not_lt.2 (Nat.le_of_eq h)
  · rw [applyOutcomes_eq]
    exact if_pos (hany.2 h)

/-- The names of what is kept are those of the entries, but for signatures if a class was woven. -/
theorem Keeps.names (h : Keeps entries outcomes kept s)
    (hlength : entries.length = outcomes.length) :
    kept.map ArchiveEntry.name =
      (if s.woven = 0 then entries else entries.filter (!·.isSignature)).map ArchiveEntry.name := by
  split
  · next hnone => rw [h.unwoven hnone]
  · next hsome =>
    rw [h.rewoven (Nat.pos_of_ne_zero hsome)]
    clear h hsome
    induction entries generalizing outcomes with
    | nil => rfl
    | cons e rest ih =>
      cases outcomes with
      | nil => cases hlength
      | cons o outcomes =>
        have hrest := ih (Nat.succ.inj hlength)
        rw [List.zipWith_cons_cons, List.filter_cons, List.filter_cons, e.isSignature_after]
        split
        · rw [List.map_cons, List.map_cons, e.name_after, hrest]
        · exact hrest

end Archive

namespace ArchiveInput

variable {w : Weaver} {input output : Path} {t t' : FileTree}

/-- The bytes of what is there are those of the file. -/
theorem succeeds_bytes {archive : Path} {unmapped : RunError} {data : Bytes} :
    Succeeds (bytes archive unmapped) t data t' ↔ t' = t ∧ t.read? archive = some data := by
  unfold bytes
  rw [succeeds_bind]
  constructor
  · rintro ⟨data?, t₁, hread, hrest⟩
    obtain ⟨rfl, rfl⟩ := succeeds_read?.1 hread
    split at hrest
    · next hdata =>
      obtain ⟨rfl, rfl⟩ := succeeds_pure.1 hrest
      exact ⟨rfl, hdata⟩
    · obtain ⟨_, _, -, hthrow⟩ := succeeds_bind.1 hrest
      exact absurd hthrow not_succeeds_throw
  · rintro ⟨rfl, hdata⟩
    exact ⟨some data, t', succeeds_read?.2 ⟨hdata.symm, rfl⟩, succeeds_pure.2 ⟨rfl, rfl⟩⟩

theorem succeeds_read {archive : Path} {entries : List ArchiveEntry}
    (h : Succeeds (read archive) t entries t') :
    t' = t ∧ ∃ data, t.read? archive = some data ∧ Archive.read data = .ok entries := by
  unfold read at h
  obtain ⟨data, t₁, hbytes, hrest⟩ := succeeds_bind.1 h
  obtain ⟨rfl, hdata⟩ := succeeds_bytes.1 hbytes
  generalize hentries : Archive.read data = result at hrest
  match result with
  | .ok _ =>
    obtain ⟨rfl, rfl⟩ := succeeds_pure.1 hrest
    exact ⟨rfl, data, hdata, hentries⟩
  | .error .layout => exact absurd hrest not_succeeds_throw
  | .error .entry => exact absurd hrest not_succeeds_throw
  | .error (.data _) => exact absurd hrest not_succeeds_throw

/-- The archive that is there is read. -/
theorem read_of_read? {archive : Path} {data : Bytes} {entries : List ArchiveEntry}
    (hdata : t.read? archive = some data) (h : Archive.read data = .ok entries) :
    Succeeds (read archive) t entries t := by
  unfold read
  refine succeeds_bind.2 ⟨data, t, succeeds_bytes.2 ⟨rfl, hdata⟩, ?_⟩
  rw [h]
  exact succeeds_pure.2 ⟨rfl, rfl⟩

/-- What a run over an archive that succeeds leaves behind: the entries of the input, handled one by
one, are kept in the output, and are read back from it if they fit. -/
theorem weave_keeps {s : WeaveSummary} (h : Succeeds (weave w input output) t s t') :
    ∃ data entries outcomes kept, t.read? input = some data ∧ Archive.read data = .ok entries ∧
      List.Forall₂ w.Handles entries outcomes ∧ Archive.Keeps entries outcomes kept s ∧
      t.Becomes t' (update (update t.file? (t.stagingPlace output) none) (t.place output)
        (some (Archive.write kept))) ∧
      (Archive.Fits kept → Succeeds (read output) t' (kept.map ArchiveEntry.written) t') := by
  unfold weave at h
  obtain ⟨entries, t₁, hread, hrest⟩ := succeeds_bind.1 h
  obtain ⟨rfl, data, hdata, hentries⟩ := succeeds_read hread
  split at hrest
  · exact absurd hrest not_succeeds_throw
  · next outcomes houtcomes =>
    obtain ⟨_, t₂, hreplace, hsummary⟩ := succeeds_bind.1 hrest
    obtain ⟨rfl, rfl⟩ := succeeds_pure.1 hsummary
    obtain ⟨hwritten, hbecomes⟩ := Files.succeeds_replace hreplace
    have hhandled := Weaver.handles_of_weaveEntries houtcomes
    exact ⟨data, entries, outcomes, Archive.applyOutcomes entries outcomes, hdata, hentries,
      hhandled, Archive.keeps_ofOutcomes hhandled.length_eq input output, hbecomes,
      fun hfits => read_of_read? hwritten (Archive.read_written hfits)⟩

/-- The run that weaves what was read and replaces the output. -/
theorem succeeds_weave {entries : List ArchiveEntry} {outcomes : List FileOutcome}
    (hread : Succeeds (read input) t entries t) (houtcomes : w.weaveEntries entries = .ok outcomes)
    (hreplace : Succeeds
      (Files.replace output (Archive.write (Archive.applyOutcomes entries outcomes))) t () t') :
    Succeeds (weave w input output) t
      (.ofOutcomes input output (Archive.classCount entries) outcomes) t' := by
  unfold weave
  refine succeeds_bind.2 ⟨entries, t, hread, ?_⟩
  rw [houtcomes]
  exact succeeds_bind.2 ⟨(), t', hreplace, succeeds_pure.2 ⟨rfl, rfl⟩⟩

/-- A class without attributes. -/
def plainClass : MappedClass := { name := "A" }

/-- An archive with a signature, a folder and that class. -/
def signedEntries : List ArchiveEntry :=
  [("META-INF/MANIFEST.MF", [1]), ("META-INF/A.SF", [2]), ("p/", []),
    ("A.class", (Sample.bareFile plainClass).toBytes)].map fun x =>
      { name := x.1, data := x.2, compression := .stored, modified := ⟨33, 0⟩, mode := some 0o644 }

/-- A tree with that archive. -/
def signedTree : FileTree where
  nodes := [(["in.jar"], .file (Archive.write signedEntries) 0)]
  workingDirectory := []
  clock := 0

/-- A weaver that knows of the class. -/
def plainWeaver : Weaver := ⟨⟨[plainClass]⟩, .default⟩

theorem replace_signedTree (data : Bytes) : ∃ u t', Succeeds
    (Files.replace ⟨"/out.jar"⟩ data : Attempt (StateM FileTree) Unit) signedTree u t' :=
  exists_succeeds rfl

theorem fits_signedEntries : Archive.Fits signedEntries :=
  ⟨by decide, by decide +kernel, by decide +kernel⟩

/-- The class is woven, and the signature is dropped. -/
theorem weave_keeps_signed :
    ∃ s t' entries outcomes kept,
      Succeeds (weave plainWeaver ⟨"/in.jar"⟩ ⟨"/out.jar"⟩) signedTree s t' ∧ s.woven = 1 ∧
      entries.map ArchiveEntry.name = signedEntries.map ArchiveEntry.name ∧
      List.Forall₂ plainWeaver.Handles entries outcomes ∧ Archive.Keeps entries outcomes kept s ∧
      kept.map ArchiveEntry.name = ["META-INF/MANIFEST.MF", "p/", "A.class"] := by
  have hdata : signedTree.read? ⟨"/in.jar"⟩ = some (Archive.write signedEntries) := rfl
  have hread := Archive.read_written fits_signedEntries
  have hnames : (signedEntries.map ArchiveEntry.written).map ArchiveEntry.name =
      signedEntries.map ArchiveEntry.name := rfl
  obtain ⟨outcomes, houtcomes, hwoven⟩ : ∃ outcomes,
      plainWeaver.weaveEntries (signedEntries.map ArchiveEntry.written) = .ok outcomes ∧
        (outcomes.filterMap FileOutcome.report?).length = 1 := by
    decide +kernel
  obtain ⟨_, t', hreplace⟩ := replace_signedTree (Archive.write
    (Archive.applyOutcomes (signedEntries.map ArchiveEntry.written) outcomes))
  have hrun := succeeds_weave (read_of_read? hdata hread) houtcomes hreplace
  obtain ⟨data', entries, outcomes', kept, hdata', hentries, hhandled, hkept, -⟩ := weave_keeps hrun
  obtain rfl := Option.some.inj (hdata.symm.trans hdata')
  obtain rfl := Except.ok.inj (hread.symm.trans hentries)
  refine ⟨_, t', _, outcomes', kept, hrun, hwoven, hnames, hhandled, hkept, ?_⟩
  rw [hkept.names hhandled.length_eq, if_neg]
  · decide +kernel
  · intro hzero
    exact absurd (hwoven.symm.trans hzero) (by decide)

/-- An archive whose only entry is a folder with data. -/
def folderArchive : Bytes :=
  [ 0x50, 0x4B, 0x03, 0x04, 0x14, 0x00, 0x00, 0x00, 0x00, 0x00, 0x00, 0x00, 0x21, 0x00, 0x83,
    0x16, 0xDC, 0x8C, 0x01, 0x00, 0x00, 0x00, 0x01, 0x00, 0x00, 0x00, 0x02, 0x00, 0x00, 0x00,
    0x61, 0x2F, 0x78, 0x50, 0x4B, 0x01, 0x02, 0x14, 0x03, 0x14, 0x00, 0x00, 0x00, 0x00, 0x00,
    0x00, 0x00, 0x21, 0x00, 0x83, 0x16, 0xDC, 0x8C, 0x01, 0x00, 0x00, 0x00, 0x01, 0x00, 0x00,
    0x00, 0x02, 0x00, 0x00, 0x00, 0x00, 0x00, 0x00, 0x00, 0x00, 0x00, 0x00, 0x00, 0xED, 0x41,
    0x00, 0x00, 0x00, 0x00, 0x61, 0x2F, 0x50, 0x4B, 0x05, 0x06, 0x00, 0x00, 0x00, 0x00, 0x01,
    0x00, 0x01, 0x00, 0x30, 0x00, 0x00, 0x00, 0x21, 0x00, 0x00, 0x00, 0x00, 0x00 ]

/-- A tree with that archive. -/
def folderTree : FileTree where
  nodes := [(["in.jar"], .file folderArchive 0)]
  workingDirectory := []
  clock := 0

/-- Entries that are not woven are not all copied unchanged: the data of a folder is lost, though
nothing is woven. -/
theorem not_folder_data_kept :
    ¬∀ (w : Weaver) (input output : Path) (t t' : FileTree) (s : WeaveSummary)
        (entries entries' : List ArchiveEntry), Succeeds (read input) t entries t →
      Succeeds (weave w input output) t s t' → s.woven = 0 →
      Succeeds (read output) t' entries' t' →
      entries'.map ArchiveEntry.data = entries.map ArchiveEntry.data := by
  intro hclaim
  obtain ⟨x, t', hrun, hwoven, hchanged⟩ := @exists_succeeds_with _ _ _
    (fun x : List ArchiveEntry × WeaveSummary × List ArchiveEntry =>
      x.2.1.woven = 0 ∧ x.2.2.map ArchiveEntry.data ≠ x.1.map ArchiveEntry.data)
    (do
      let entries ← read ⟨"/in.jar"⟩
      let s ← weave ⟨∅, .default⟩ ⟨"/in.jar"⟩ ⟨"/out.jar"⟩
      let entries' ← read ⟨"/out.jar"⟩
      return (entries, s, entries') : Attempt (StateM FileTree) _) folderTree
    (by decide +kernel)
  obtain ⟨entries, t₁, hread, hrun₁⟩ := succeeds_bind.1 hrun
  obtain ⟨s, t₂, hweave, hrun₂⟩ := succeeds_bind.1 hrun₁
  obtain ⟨entries', t₃, hread', hpure⟩ := succeeds_bind.1 hrun₂
  obtain ⟨rfl, rfl⟩ := succeeds_pure.1 hpure
  obtain ⟨rfl, -⟩ := succeeds_read hread
  obtain ⟨rfl, -⟩ := succeeds_read hread'
  exact hchanged (hclaim _ _ _ _ _ s entries entries' hread hweave hwoven hread')

end ArchiveInput

end EntityLoom
