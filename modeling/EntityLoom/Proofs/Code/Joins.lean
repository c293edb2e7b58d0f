import EntityLoom.Proofs.Code.Layout
import EntityLoom.Proofs.Frame.Flow
import EntityLoom.Proofs.Frame.StackMapReader

/-!
# Stack maps and joins

An instruction is a join if a jump goes to it, whatever marks stand in front of it.
`MethodDecl.stackMap_covers_joins` says that the stack map of an assembled body, as it is read by the
rules of the virtual machine, has an entry for exactly the joins, each with the frame that the
analysis recorded for the instruction, and that this frame is above what flows in on every way.

Two facts about the analysis carry it (`Layout.Flows`).  Control goes on below the recorded frames,
so it never runs off the end, and behind a mark that control reaches there is an instruction.  And a
place has a frame only if control comes there: so the instruction behind a `goto`, a return or an
`athrow`, which was not refused as unreachable, has a jump that goes to it.
-/

namespace EntityLoom

open Interning (Interns)
open Reader (Reads)

/-! ## Instructions behind marks -/

/-- From place `k` on there are marks only, up to the instruction at place `j`. -/
structure LandsAt (body : List Instruction) (k j : Nat) : Prop where
  le : k ≤ j
  marks : ∀ i, k ≤ i → i < j → ∃ label, body[i]? = some (.mark label)
  instruction : ∃ ins, body[j]? = some ins ∧ ins.isMark = false

/-- The instruction at place `i` is a jump to the instruction at place `j`: to a label whose mark
stands before it. -/
def JumpsTo (body : List Instruction) (i j : Nat) : Prop :=
  ∃ op label k, body[i]? = some (.jump op label) ∧ body[k]? = some (.mark label) ∧ LandsAt body k j

/-- Control falls from the instruction at place `i` to the instruction at place `j`. -/
def FallsTo (body : List Instruction) (i j : Nat) : Prop :=
  ∃ ins, body[i]? = some ins ∧ ins.isMark = false ∧ ins.fallsThrough = true ∧ LandsAt body (i + 1) j

theorem LandsAt.of_mark {body : List Instruction} {k j : Nat} {label : Label}
    (hk : body[k]? = some (.mark label)) (h : LandsAt body (k + 1) j) : LandsAt body k j := by
  refine ⟨Nat.le_of_succ_le h.le, fun i hki hij => ?_, h.instruction⟩
  rcases Nat.eq_or_lt_of_le hki with rfl | hlt
  · exact ⟨label, hk⟩
  · exact h.marks i hlt hij

theorem LandsAt.tail {body : List Instruction} {k j i : Nat} (h : LandsAt body k j) (hki : k ≤ i)
    (hij : i ≤ j) : LandsAt body i j :=
  ⟨hij, fun n hin hnj => h.marks n (Nat.le_trans hki hin) hnj, h.instruction⟩

/-- A mark names the instruction behind it. -/
theorem Assembly.landing_eq {instructions : Array Instruction} {k j : Nat}
    (h : LandsAt instructions.toList k j) : landing instructions k = j := by
  obtain ⟨ins, hins, hmark⟩ := h.instruction
  rw [Array.getElem?_toList] at hins
  fun_induction landing instructions k with
  | case1 k hk ih =>
    refine ih (h.tail (Nat.le_succ k) (Nat.lt_of_le_of_ne h.le ?_))
    rintro rfl
    rw [hins] at hk
    exact absurd hk.1 (by simp [hmark])
  | case2 k hk =>
    by_contra hne
    have hlt : k < j := Nat.lt_of_le_of_ne h.le hne
    obtain ⟨label, hlabel⟩ := h.marks k (Nat.le_refl k) hlt
    rw [Array.getElem?_toList] at hlabel
    have hj := (Array.getElem?_eq_some_iff.1 hins).1
    exact hk ⟨by rw [hlabel]; rfl, by omega⟩

/-! ## Control behind marks -/

namespace Layout.Flows

variable {body : Layout} {entry : Frame} {a : Analysis} {i j k : Nat} {f : Frame}

/-- A mark passes its frame on. -/
theorem below_of_mark {label : Label} (h : body.Flows entry a) (hk : a.frameAt k = some f)
    (hmark : body.instructions[k]? = some (.mark label)) :
    ∃ g, a.frameAt (k + 1) = some g ∧ f.Below g := by
  obtain ⟨f', g, hf', hg, hbelow⟩ := h.edge k f (k + 1) hk (.next hmark rfl)
  have hsame : body.executeAt f k = .ok f := by
    unfold executeAt
    rw [hmark]
    rfl
  obtain rfl := Except.ok.inj (hsame.symm.trans hf')
  exact ⟨g, hg, hbelow⟩

/-- What flows to a mark flows to the instruction behind it. -/
theorem below_of_landsAt (h : body.Flows entry a) (hlands : LandsAt body.instructions.toList k j)
    (hk : a.frameAt k = some f) : ∃ g, a.frameAt j = some g ∧ f.Below g := by
  induction hn : j - k generalizing k f with
  | zero =>
    have hle := hlands.le
    obtain rfl : k = j := by omega
    exact ⟨f, hk, Frame.Below.refl f⟩
  | succ n ih =>
    obtain ⟨label, hlabel⟩ := hlands.marks k (Nat.le_refl k) (by omega)
    rw [Array.getElem?_toList] at hlabel
    obtain ⟨g, hg, hfg⟩ := h.below_of_mark hk hlabel
    obtain ⟨g', hg', hgg'⟩ := ih (hlands.tail (Nat.le_succ k) (by omega)) hg (by omega)
    exact ⟨g', hg', hfg.trans hgg'⟩

/-- Behind a place that control reaches there is an instruction: control does not run off the
end. -/
theorem exists_landsAt (h : body.Flows entry a) (hk : a.frameAt k = some f) :
    ∃ j, LandsAt body.instructions.toList k j := by
  induction hn : body.instructions.size - k generalizing k f with
  | zero =>
    have hlt := h.inside k f hk
    omega
  | succ n ih =>
    obtain ⟨ins, hins⟩ : ∃ ins, body.instructions[k]? = some ins :=
      ⟨_, Array.getElem?_eq_getElem (h.inside k f hk)⟩
    by_cases hmark : ∃ label, ins = .mark label
    · obtain ⟨label, rfl⟩ := hmark
      obtain ⟨g, hg, -⟩ := h.below_of_mark hk hins
      obtain ⟨j, hj⟩ := ih hg (by omega)
      exact ⟨j, hj.of_mark (by rw [Array.getElem?_toList]; exact hins)⟩
    · refine ⟨k, Nat.le_refl k, fun i hki hik => absurd hki (Nat.not_le_of_lt hik), ins, ?_, ?_⟩
      · rw [Array.getElem?_toList]
        exact hins
      · cases ins <;> first | rfl | exact absurd ⟨_, rfl⟩ hmark

/-- What flows out of an instruction flows into each instruction that control goes to. -/
theorem below_of_edge {ins : Instruction} (h : body.Flows entry a)
    (hins : body.instructions[i]? = some ins) (hmark : ins.isMark = false) (hedge : body.Edge i k)
    (hlands : LandsAt body.instructions.toList k j) :
    ∃ f f' g, a.frameAt i = some f ∧ body.executeAt f i = .ok f' ∧ a.frameAt j = some g ∧
      f'.Below g := by
  obtain ⟨f, -, hf, -⟩ := h.executed i ins hins hmark
  obtain ⟨f', g₁, hf', hg₁, hbelow₁⟩ := h.edge i f k hf hedge
  obtain ⟨g, hg, hbelow⟩ := h.below_of_landsAt hlands hg₁
  exact ⟨f, f', g, hf, hf', hg, hbelow₁.trans hbelow⟩

/-- An instruction that control does not fall to has a jump that goes to it. -/
theorem exists_jumpsTo {ins : Instruction} (h : body.Flows entry a)
    (hbound : ∀ label t, body.target? label = some t →
      body.instructions[t]? = some (.mark label))
    (hins : body.instructions[i]? = some ins) (hends : ins.fallsThrough = false)
    (hlands : LandsAt body.instructions.toList (i + 1) j) :
    ∃ i', JumpsTo body.instructions.toList i' j := by
  -- Control comes to `j` from the mark before it, and so on up to a place that a jump goes to.
  have hback : ∀ k, i < k → k ≤ j → ∀ f, a.frameAt k = some f →
      ∃ i', JumpsTo body.instructions.toList i' j := by
    intro k
    induction k using Nat.strongRecOn with
    | ind k ih =>
      intro hik hkj f hf
      rcases h.origin k f hf with hzero | ⟨i', f', hf', hedge⟩
      · omega
      · cases hedge with
        | next hat hfalls =>
          by_cases heq : i' = i
          · rw [heq, hins] at hat
            obtain rfl := Option.some.inj hat
            rw [hends] at hfalls
            cases hfalls
          · exact ih i' (Nat.lt_succ_self i') (by omega) (by omega) f' hf'
        | @jump _ op label hat htarget =>
          refine ⟨i', op, label, k, ?_, ?_, hlands.tail hik hkj⟩
          · rw [Array.getElem?_toList]
            exact hat
          · rw [Array.getElem?_toList]
            exact hbound label k htarget
  obtain ⟨last, hlast, hmark⟩ := hlands.instruction
  rw [Array.getElem?_toList] at hlast
  obtain ⟨f, -, hf, -⟩ := h.executed j last hlast hmark
  exact hback j hlands.le (Nat.le_refl j) f hf

end Layout.Flows

/-! ## The entries of an assembled body -/

namespace MethodDecl.Assembled

open Assembly

variable {m : MethodDecl} {thisClass : String} {p p' : Pool} {b : CodeBody}

section

variable {withFrames : Bool} (a : m.Assembled thisClass withFrames p b p')

theorem flows : a.layout.Flows a.entry a.analysis :=
  Layout.analyze_flows (Frame.paired_entry thisClass m.name _ a.type) a.analysis_eq

theorem toList_layout : a.layout.instructions.toList = m.body := a.lays.toList

theorem getElem?_layout (i : Nat) : a.layout.instructions[i]? = m.body[i]? := a.lays.getElem? i

/-- A label is bound where its mark is. -/
theorem target_eq_some_iff {label : Label} {k : Nat} :
    a.layout.target? label = some k ↔ m.body[k]? = some (.mark label) :=
  a.lays.labels label k

/-- What flows out of an instruction flows into the one that control goes to. -/
theorem below_of_jumpsTo {i j : Nat} (h : JumpsTo m.body i j) :
    ∃ f f' g, a.analysis.frameAt i = some f ∧ a.layout.executeAt f i = .ok f' ∧
      a.analysis.frameAt j = some g ∧ f'.Below g := by
  obtain ⟨op, label, k, hi, hk, hlands⟩ := h
  rw [← a.getElem?_layout] at hi
  rw [← a.toList_layout] at hlands
  exact a.flows.below_of_edge hi rfl (.jump hi (a.target_eq_some_iff.2 hk)) hlands

theorem below_of_fallsTo {i j : Nat} (h : FallsTo m.body i j) :
    ∃ f f' g, a.analysis.frameAt i = some f ∧ a.layout.executeAt f i = .ok f' ∧
      a.analysis.frameAt j = some g ∧ f'.Below g := by
  obtain ⟨ins, hi, hmark, hfalls, hlands⟩ := h
  rw [← a.getElem?_layout] at hi
  rw [← a.toList_layout] at hlands
  exact a.flows.below_of_edge hi hmark (.next hi hfalls) hlands

include a in
/-- Behind the mark of a label that a jump names there is an instruction. -/
theorem exists_jumpsTo_of_bound {i k : Nat} {op : Opcode} {label : Label}
    (hi : m.body[i]? = some (.jump op label)) (hk : m.body[k]? = some (.mark label)) :
    ∃ j, JumpsTo m.body i j ∧ LandsAt m.body k j := by
  have hat := (a.getElem?_layout i).trans hi
  obtain ⟨f, -, hf, -⟩ := a.flows.executed i _ hat rfl
  obtain ⟨-, g, -, hg, -⟩ := a.flows.edge i f k hf (.jump hat (a.target_eq_some_iff.2 hk))
  obtain ⟨j, hlands⟩ := a.flows.exists_landsAt hg
  rw [a.toList_layout] at hlands
  exact ⟨j, ⟨op, label, k, hi, hk, hlands⟩, hlands⟩

/-- The places that the stack map is written for, with repetitions. -/
def landingPlaces : List Nat :=
  a.layout.instructions.toList.filterMap (jumpLanding? a.plan.labels a.layout.instructions)

/-- They are those of the joins. -/
theorem mem_landingPlaces {j : Nat} : j ∈ a.landingPlaces ↔ ∃ i, JumpsTo m.body i j := by
  unfold landingPlaces
  rw [List.mem_filterMap]
  constructor
  · rintro ⟨ins, hmem, hlanding⟩
    cases ins with
    | jump op label =>
      obtain ⟨k, hk, rfl⟩ := Option.map_eq_some_iff.1 hlanding
      rw [a.toList_layout] at hmem
      obtain ⟨i, hi⟩ := List.mem_iff_getElem?.1 hmem
      obtain ⟨j, hj, hlands⟩ := a.exists_jumpsTo_of_bound hi (a.target_eq_some_iff.1 hk)
      rw [← a.toList_layout] at hlands
      rw [landing_eq hlands]
      exact ⟨i, hj⟩
    | _ => cases hlanding
  · rintro ⟨i, op, label, k, hi, hk, hlands⟩
    rw [← a.toList_layout] at hi hlands
    refine ⟨_, List.mem_of_getElem? hi, ?_⟩
    have hlabel : a.plan.labels[label]? = some k := a.target_eq_some_iff.2 hk
    change Option.map (landing a.layout.instructions) a.plan.labels[label]? = some j
    rw [hlabel, Option.map_some, landing_eq hlands]

/-- Values on recorded stacks and jumps take bytes of the code. -/
theorem height_add_jumps_le {i : Nat} {g : Frame} (hg : a.analysis.frameAt i = some g) :
    g.stack.length + 3 * m.body.countP Instruction.isJump ≤ maxSize := by
  have hinstructions : (m.body.zip a.operands).map Prod.fst = m.body :=
    List.map_fst_zip (Nat.le_of_eq (Interning.length_of_mapM a.operands_eq).symm)
  obtain ⟨-, hsize, hmax⟩ := plan_eq_ok a.plan_eq
  have hgrowth := growth_add_jumps_le (m.body.zip a.operands)
  rw [hinstructions] at hgrowth
  have hslots : ∀ ins ∈ a.layout.instructions,
      Worklist.slotsNeeded ins ≤ max 0x10001 a.entry.locals.length := by
    intro ins _
    cases ins with
    | var op slot =>
      have := slot.toNat_lt
      simp only [Worklist.slotsNeeded]
      omega
    | _ => exact Nat.zero_le _
  have hheight := (Layout.analyze_size a.analysis_eq (Nat.le_max_right _ _) hslots hg).1
  rw [a.lays.toList] at hheight
  omega

end

variable (a : m.Assembled thisClass true p b p')

theorem landings_forall :
    List.Forall₂ (fun i t => landingFrame a.layout a.analysis i = .ok t)
      (sortBy (· ≤ ·) a.landingPlaces).eraseReps a.landings := by
  have h : landingFrames a.plan.labels a.layout a.analysis = .ok a.landings := a.landings_eq
  unfold landingFrames at h
  obtain ⟨-, -, h⟩ := bind_eq_ok.1 h
  exact mapM_eq_ok.1 h

theorem landingFrame_eq_ok_iff {j : Nat} {t : Nat × Frame} (hj : j ∈ a.landingPlaces) :
    landingFrame a.layout a.analysis j = .ok t ↔
      t.1 = a.offset j ∧ a.analysis.frameAt j = some t.2 := by
  obtain ⟨i, op, label, k, -, -, hlands⟩ := a.mem_landingPlaces.1 hj
  obtain ⟨ins, hins, -⟩ := hlands.instruction
  unfold landingFrame Analysis.frameAt
  rw [a.getD_offsets hins]
  cases (a.analysis.frames[j]?).join with
  | none => simp
  | some f =>
    obtain ⟨o, g⟩ := t
    simp [eq_comm]

/-- The stack map is written for the joins. -/
theorem mem_landings {t : Nat × Frame} :
    t ∈ a.landings ↔ ∃ i j, JumpsTo m.body i j ∧ t.1 = a.offset j ∧
      a.analysis.frameAt j = some t.2 := by
  constructor
  · intro ht
    obtain ⟨j, hj, hframe⟩ := exists_mem_of_forall₂ a.landings_forall ht
    rw [mem_eraseReps, mem_sortBy] at hj
    obtain ⟨i, hi⟩ := a.mem_landingPlaces.1 hj
    exact ⟨i, j, hi, (a.landingFrame_eq_ok_iff hj).1 hframe⟩
  · rintro ⟨i, j, hi, ht⟩
    have hj := a.mem_landingPlaces.2 ⟨i, hi⟩
    obtain ⟨t', ht', hframe⟩ := exists_mem_of_forall₂ a.landings_forall.flip
      (mem_eraseReps.2 (mem_sortBy.2 hj))
    obtain rfl := Except.ok.inj (hframe.symm.trans ((a.landingFrame_eq_ok_iff hj).2 ht))
    exact ht'

/-- Each join comes once, and in the order of the code. -/
theorem pairwise_landings : a.landings.Pairwise fun t u => t.1 < u.1 := by
  have hplaces : (sortBy (· ≤ ·) a.landingPlaces).eraseReps.Pairwise (· < ·) := by
    refine pairwise_eraseReps ?_
    simpa using @sortBy_pairwise Nat (fun i j => decide (i ≤ j))
      (fun i j k hij hjk => by simp only [decide_eq_true_eq] at *; omega)
      (fun i j => by simp only [Bool.or_eq_true, decide_eq_true_eq]; omega) a.landingPlaces
  refine pairwise_of_forall₂ a.landings_forall hplaces fun j hj j' hj' t t' ht ht' hlt => ?_
  rw [mem_eraseReps, mem_sortBy] at hj hj'
  obtain ⟨i, op, label, k, -, -, hlands⟩ := a.mem_landingPlaces.1 hj
  obtain ⟨ins, hins, hmark⟩ := hlands.instruction
  rw [((a.landingFrame_eq_ok_iff hj).1 ht).1, ((a.landingFrame_eq_ok_iff hj').1 ht').1]
  exact a.offset_lt hins hmark hlt

/-- The stack map can say its frames. -/
theorem representable : StackMap.Representable a.entry a.landings := by
  have hcount := (landingFrames_eq_ok a.landings_eq).1
  rw [a.lays.toList] at hcount
  refine ⟨?_, StackMap.entriesFit_of_small _ fun t ht => ?_⟩
  · cases hlandings : a.landings with
    | nil => decide
    | cons t rest =>
      obtain ⟨i, j, -, -, hg⟩ := a.mem_landings.1 (hlandings ▸ List.mem_cons_self)
      have hsize := a.height_add_jumps_le hg
      unfold maxSize at hsize
      rw [← hlandings]
      omega
  · obtain ⟨i, j, -, -, hg⟩ := a.mem_landings.1 ht
    have hsize := a.height_add_jumps_le hg
    have hlocals := a.flows.locals j _ hg
    have hlimit := a.analysis.maxLocals.toNat_lt
    unfold maxSize at hsize
    exact ⟨by omega, by omega⟩

end MethodDecl.Assembled

/-- The entries that the stack map of a body is read as, in a pool and from the entry frame of the
method.  A body without a stack map has none. -/
def CodeBody.HasEntries (b : CodeBody) (pool : Pool) (entry : Frame) (entries : List StackMap.Entry) :
    Prop :=
  match b.stackMap with
  | none => entries = []
  | some table => Reads (StackMap.read pool entry) table entries

namespace MethodDecl

variable {m : MethodDecl} {thisClass : String} {p p' : Pool} {b : CodeBody}

theorem Assembled.hasEntries (a : m.Assembled thisClass true p b p') (hp : p.Built) :
    b.HasEntries p' a.entry (a.landings.map StackMap.Entry.ofFrame) := by
  have hmap := a.stackMap_eq
  unfold CodeBody.HasEntries
  cases htable : b.stackMap with
  | none =>
    rw [htable] at hmap
    dsimp only
    rw [hmap.1]
    rfl
  | some table =>
    rw [htable] at hmap
    have hbuilt := ((Interns.mapM Instruction.internOperand_interns m.body) hp a.operands_eq).1.built hp
    have hread := (StackMap.write_reads a.entry a.pairwise_landings hbuilt hmap.2).2 p' .refl
    exact hread.reads a.representable

/-- The stack map of a body that was assembled covers its joins.  Its entries are at the offsets of
exactly the instructions that some jump goes to, each once and in order, and each holds the frame
that the analysis recorded for its instruction.  A recorded frame is above what every instruction
makes of its own recorded frame from which control comes, and above the entry frame where the method
starts.  And each instruction behind one that control does not leave downwards has an entry. -/
theorem stackMap_covers_joins (hp : p.Built) (h : Succeeds (m.assemble thisClass true) p b p') :
    ∃ (a : m.Assembled thisClass true p b p') (entries : List StackMap.Entry),
      b.HasEntries p' a.entry entries ∧
      entries.Pairwise (fun e e' => e.offset < e'.offset) ∧
      (∀ o, (∃ e ∈ entries, e.offset = o) ↔ ∃ i j, JumpsTo m.body i j ∧ a.offset j = o) ∧
      (∀ e ∈ entries, ∃ i j g, JumpsTo m.body i j ∧ a.analysis.frameAt j = some g ∧
        e = ⟨a.offset j, g.encodedLocals, g.stack⟩) ∧
      (∀ i j, JumpsTo m.body i j ∨ FallsTo m.body i j →
        ∃ f f' g, a.analysis.frameAt i = some f ∧ a.layout.executeAt f i = .ok f' ∧
          a.analysis.frameAt j = some g ∧ f'.Below g) ∧
      (∀ j, LandsAt m.body 0 j → ∃ g, a.analysis.frameAt j = some g ∧ a.entry.Below g) ∧
      ∀ i ins j, m.body[i]? = some ins → ins.fallsThrough = false → LandsAt m.body (i + 1) j →
        ∃ e ∈ entries, e.offset = a.offset j := by
  obtain ⟨a⟩ := nonempty_assembled h
  have hoffsets : ∀ o, (∃ e ∈ a.landings.map StackMap.Entry.ofFrame, e.offset = o) ↔
      ∃ i j, JumpsTo m.body i j ∧ a.offset j = o := by
    intro o
    constructor
    · rintro ⟨e, he, rfl⟩
      obtain ⟨t, ht, rfl⟩ := List.mem_map.1 he
      obtain ⟨i, j, hj, hoffset, -⟩ := a.mem_landings.1 ht
      exact ⟨i, j, hj, hoffset.symm⟩
    · rintro ⟨i, j, hj, rfl⟩
      obtain ⟨-, -, g, -, -, hg, -⟩ := a.below_of_jumpsTo hj
      have hmem : (a.offset j, g) ∈ a.landings := a.mem_landings.2 ⟨i, j, hj, rfl, hg⟩
      exact ⟨_, List.mem_map_of_mem hmem, rfl⟩
  refine ⟨a, a.landings.map StackMap.Entry.ofFrame, a.hasEntries hp,
    List.pairwise_map.2 a.pairwise_landings, hoffsets, fun e he => ?_,
    fun i j hedge => hedge.elim a.below_of_jumpsTo a.below_of_fallsTo, fun j hlands => ?_,
    fun i ins j hi hends hlands => ?_⟩
  · obtain ⟨⟨o, g⟩, ht, rfl⟩ := List.mem_map.1 he
    obtain ⟨i, j, hj, rfl, hg⟩ := a.mem_landings.1 ht
    exact ⟨i, j, g, hj, hg, rfl⟩
  · obtain ⟨g, hg, hbelow⟩ := a.flows.entry
    rw [← a.toList_layout] at hlands
    obtain ⟨g', hg', hbelow'⟩ := a.flows.below_of_landsAt hlands hg
    exact ⟨g', hg', hbelow.trans hbelow'⟩
  · rw [← a.getElem?_layout] at hi
    rw [← a.toList_layout] at hlands
    obtain ⟨i', hj⟩ := a.flows.exists_jumpsTo
      (fun label t ht => (a.getElem?_layout t).trans (a.target_eq_some_iff.1 ht)) hi hends hlands
    rw [a.toList_layout] at hj
    exact (hoffsets _).2 ⟨i', j, hj, rfl⟩

/-- A static method that answers whether its argument is not zero. -/
def isNonzero : MethodDecl where
  access := 0x0008
  name := "isNonzero"
  descriptor := "(I)Z"
  body := [.var .iload 0, .jump .ifeq 0, .simple .iconst1, .simple .ireturn, .mark 0,
    .simple .iconst0, .simple .ireturn]

/-- Its stack map has an entry for the instruction that the jump skips to. -/
theorem stackMap_covers_joins_isNonzero :
    ∃ b p', Succeeds (isNonzero.assemble "A" true) .empty b p' ∧
      ∃ (a : isNonzero.Assembled "A" true .empty b p') (entries : List StackMap.Entry),
        b.HasEntries p' a.entry entries ∧ ∃ e ∈ entries, e.offset = a.offset 5 := by
  obtain ⟨b, p', h⟩ := exists_succeeds (x := isNonzero.assemble "A" true) (s := .empty)
    (by decide +kernel)
  obtain ⟨a, entries, hentries, -, -, -, -, -, hbehind⟩ := stackMap_covers_joins .empty h
  refine ⟨b, p', h, a, entries, hentries, hbehind 3 (.simple .ireturn) 5 rfl rfl ?_⟩
  refine ⟨by omega, fun i h4 h5 => ⟨0, ?_⟩, .simple .iconst0, rfl, rfl⟩
  obtain rfl : i = 4 := by omega
  rfl

end MethodDecl

end EntityLoom
