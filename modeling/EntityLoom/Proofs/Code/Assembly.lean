import EntityLoom.Code.Assembly
import EntityLoom.Proofs.ClassFile.Descriptor
import EntityLoom.Proofs.Frame.Size
import EntityLoom.Proofs.Frame.StackMap
import EntityLoom.Proofs.Sorted
import Mathlib.Tactic.Linarith
import Mathlib.Tactic.Ring

/-!
# The size of assembled bodies

Assembling a body only extends the pool, and what it answers is small.  The code has as many bytes
as the layout says, which are at most `Assembly.maxSize`.  The stack map has an entry for at most
every jump, and each jump takes three bytes that push nothing, so a body with many entries has low
stacks.  `MethodDecl.assemble_interns` puts this together for methods that have no jumps or use few local
slots.
-/

namespace EntityLoom

open Interning (Interns)

/-! ## Operands -/

namespace Instruction

theorem internOperand_interns (i : Instruction) : Interns i.internOperand fun _ _ => True := by
  unfold internOperand
  split
  · exact (Interning.fieldRef_interns _ _ _).mono fun _ _ _ => trivial
  · exact Interning.methodRef_extends _ _ _ _
  · exact (Interning.classRef_interns _).mono fun _ _ _ => trivial
  · exact (Interning.string_interns _).mono fun _ _ _ => trivial
  · exact .pure fun _ => trivial

/-- Whether an instruction is a jump. -/
def isJump : Instruction → Bool
  | jump _ _ => true
  | _ => false

/-- A value is pushed by a byte of code at least, and a jump has three bytes that push nothing. -/
theorem growth_le_encodedLength (i : Instruction) (operand : UInt16) :
    Frame.growth i + 3 * i.isJump.toNat ≤ i.encodedLength operand := by
  unfold Frame.growth isJump encodedLength
  cases i <;> dsimp only <;> (try split) <;> (try split) <;> simp

end Instruction

namespace Assembly

/-! ## Layout -/

/-- The number of bytes of instructions with their operands. -/
def bodySize (body : List (Instruction × UInt16)) : Nat :=
  total (fun x => x.1.encodedLength x.2) body

theorem bodySize_cons (x : Instruction × UInt16) (body : List (Instruction × UInt16)) :
    bodySize (x :: body) = x.1.encodedLength x.2 + bodySize body := rfl

/-- A layout places the instructions with their operands in order and adds up their lengths. -/
theorem place_eq_ok {body : List (Instruction × UInt16)} {acc : List Placed} {labels : LabelTable}
    {index offset : Nat} {plan : Plan} (h : place acc labels index offset body = .ok plan) :
    plan.placed.map (fun p => (p.instruction, p.operand)) =
        acc.reverse.map (fun p => (p.instruction, p.operand)) ++ body ∧
      plan.size = offset + bodySize body := by
  induction body generalizing acc labels index offset with
  | nil =>
    obtain rfl := Except.ok.inj h
    exact ⟨(List.append_nil _).symm, rfl⟩
  | cons x rest ih =>
    obtain ⟨i, operand⟩ := x
    have hrest : ∃ labels', place (⟨i, operand, offset⟩ :: acc) labels' (index + 1)
        (offset + i.encodedLength operand) rest = .ok plan := by
      unfold place at h
      dsimp only at h
      split at h
      · split at h
        · cases h
        · exact ⟨_, h⟩
      · exact ⟨_, h⟩
    obtain ⟨labels', hrest⟩ := hrest
    obtain ⟨hplaced, hsize⟩ := ih hrest
    rw [hplaced, hsize, bodySize_cons]
    refine ⟨?_, Nat.add_assoc _ _ _⟩
    simp

/-- What is known of a body that was laid out. -/
theorem plan_eq_ok {body : List (Instruction × UInt16)} {p : Plan} (h : plan body = .ok p) :
    p.placed.map (fun q => (q.instruction, q.operand)) = body ∧ p.size = bodySize body ∧
      p.size ≤ maxSize := by
  unfold plan at h
  obtain ⟨p', hplace, h⟩ := bind_eq_ok.1 h
  obtain ⟨hplaced, hsize⟩ := place_eq_ok hplace
  rw [List.reverse_nil, List.map_nil, List.nil_append] at hplaced
  rw [Nat.zero_add] at hsize
  split at h
  · next hle =>
    obtain ⟨_, -, h⟩ := bind_eq_ok.1 h
    obtain rfl := Except.ok.inj h
    exact ⟨hplaced, hsize, hle⟩
  · cases h

theorem encode_length {targetOffset? : Label → Option Nat} {p : Placed} {bs : Bytes}
    (h : encode targetOffset? p = .ok bs) : bs.length = p.instruction.encodedLength p.operand := by
  obtain ⟨i, operand, offset⟩ := p
  unfold encode at h
  cases i with
  | mark label => cases h; rfl
  | simple op => cases h; rfl
  | var op slot =>
    unfold Instruction.encodedLength
    dsimp only at h ⊢
    split at h
    · next b hb => cases h; rw [hb]; rfl
    · next hb =>
      rw [hb]
      simp only [Option.isSome_none, Bool.false_eq_true, if_false]
      split at h <;> cases h
      · next hle => rw [if_pos hle]; rfl
      · next hle => rw [if_neg hle]; rfl
  | invoke op r =>
    unfold Instruction.encodedLength
    dsimp only at h ⊢
    split at h
    · next hop =>
      obtain ⟨d, -, h⟩ := bind_eq_ok.1 h
      cases h
      rw [if_pos hop]
      rfl
    · next hop => cases h; rw [if_neg hop]; rfl
  | field op r => cases h; rfl
  | type op name => cases h; rfl
  | ldcString text =>
    unfold Instruction.encodedLength
    dsimp only at h ⊢
    split at h <;> cases h
    · next hle => rw [if_pos hle]; rfl
    · next hle => rw [if_neg hle]; rfl
  | jump op label =>
    dsimp only at h
    split at h
    · cases h
    · split at h <;> cases h
      rfl

/-- The code of a body has the length that its layout says. -/
theorem length_parts {targetOffset? : Label → Option Nat} {placed : List Placed}
    {parts : List Bytes} (h : placed.mapM (encode targetOffset?) = .ok parts) :
    parts.flatten.length = bodySize (placed.map fun p => (p.instruction, p.operand)) := by
  have hparts := mapM_eq_ok.1 h
  clear h
  induction hparts with
  | nil => rfl
  | cons hp _ ih =>
    rw [List.flatten_cons, List.length_append, List.map_cons, bodySize_cons, ih, encode_length hp]

/-! ## Jump targets -/

/-- The frame of an instruction that a jump lands at is the one recorded for it. -/
theorem landingFrame_eq_ok {layout : Layout} {analysis : Analysis} {i : Nat} {t : Nat × Frame}
    (h : landingFrame layout analysis i = .ok t) : (analysis.frames[i]?).join = some t.2 := by
  unfold landingFrame at h
  split at h
  · next f hf => cases h; exact hf
  · cases h

theorem length_filterMap_jumpLanding_le (labels : LabelTable) (all : Array Instruction)
    (body : List Instruction) :
    (body.filterMap (jumpLanding? labels all)).length ≤ body.countP Instruction.isJump := by
  induction body with
  | nil => exact Nat.le_refl _
  | cons i rest ih =>
    rw [List.filterMap_cons, List.countP_cons]
    split
    · omega
    · next n hn =>
      rw [List.length_cons]
      cases i <;> first | cases hn | (simp only [Instruction.isJump, if_true]; omega)

/-- There is at most one entry for each jump, and it holds a recorded frame. -/
theorem landingFrames_eq_ok {labels : LabelTable} {layout : Layout} {analysis : Analysis}
    {targets : List (Nat × Frame)} (h : landingFrames labels layout analysis = .ok targets) :
    targets.length ≤ layout.instructions.toList.countP Instruction.isJump ∧
      ∀ t ∈ targets, ∃ i : Nat, (analysis.frames[i]?).join = some t.2 := by
  unfold landingFrames at h
  obtain ⟨_, -, h⟩ := bind_eq_ok.1 h
  have htargets := mapM_eq_ok.1 h
  constructor
  · rw [← htargets.length_eq]
    refine Nat.le_trans (length_eraseReps_le _) ?_
    rw [(sortBy_perm _).length_eq]
    exact length_filterMap_jumpLanding_le _ _ _
  · intro t ht
    obtain ⟨k, hk, rfl⟩ := List.mem_iff_getElem.1 ht
    exact ⟨_, landingFrame_eq_ok (htargets.get (by rw [htargets.length_eq]; exact hk) hk)⟩

end Assembly

/-! ## Assembled bodies -/

/-- The instructions of a body push no more values than its bytes beyond its jumps. -/
theorem growth_add_jumps_le (body : List (Instruction × UInt16)) :
    total Frame.growth (body.map Prod.fst) + 3 * (body.map Prod.fst).countP Instruction.isJump ≤
      Assembly.bodySize body := by
  induction body with
  | nil => exact Nat.le_refl _
  | cons x rest ih =>
    obtain ⟨i, operand⟩ := x
    have hi := i.growth_le_encodedLength operand
    rw [Assembly.bodySize_cons]
    simp only [List.map_cons, total_cons, List.countP_cons]
    cases hjump : i.isJump <;> simp only [hjump, Bool.toNat_true, Bool.toNat_false] at hi <;>
      simp only [Bool.false_eq_true, if_true, if_false] <;> omega

/-- A stack map with an entry for each jump of a body that fits is far smaller than its length field
allows, since many jumps leave few bytes to push values. -/
theorem entries_le {entries jumps height locals : Nat} (hentries : entries ≤ jumps)
    (hsize : height + 3 * jumps ≤ Assembly.maxSize) (hlocals : locals ≤ 255) :
    entries * StackMap.entrySize locals height ≤ 2 ^ 31 := by
  unfold Assembly.maxSize at hsize
  have hentry : StackMap.entrySize locals height ≤ 772 + 3 * height := by
    unfold StackMap.entrySize
    omega
  calc entries * StackMap.entrySize locals height
      ≤ jumps * (772 + 3 * height) := Nat.mul_le_mul hentries hentry
    _ = 772 * jumps + (3 * jumps) * height := by ring
    _ ≤ 2 ^ 31 := by
      have hsquare : (3 * jumps) * height ≤ 32768 ^ 2 := by
        nlinarith [sq_nonneg ((3 * jumps : ℤ) - height)]
      omega

/-- What is known of an assembled body: its code and its stack map are small. -/
structure CodeBody.Small (b : CodeBody) : Prop where
  code : b.code.length ≤ Assembly.maxSize
  stackMap : ∀ table, b.stackMap = some table → table.length ≤ 2 ^ 31 + 2

namespace MethodDescriptor

/-- A method has no more parameters than its descriptor has characters. -/
theorem length_params_le {text : String} {d : MethodDescriptor} (h : ofText text = .ok d) :
    d.params.length ≤ text.toList.length := by
  obtain ⟨-, rfl⟩ := ofText_eq_ok.1 h
  have hpieces : ∀ ds : List Descriptor, ds.length ≤ (ds.flatMap Descriptor.chars).length := by
    intro ds
    induction ds with
    | nil => exact Nat.le_refl _
    | cons d ds ih =>
      obtain ⟨c, cs, hd, -⟩ := d.chars_eq_cons
      rw [List.flatMap_cons, List.length_append, List.length_cons, hd, List.length_cons]
      omega
  have hparams := hpieces d.params
  rw [MethodDescriptor.text, String.toList_ofList, chars, List.length_cons, List.length_append]
  omega

end MethodDescriptor

/-- The locals on entry are a receiver and two slots at most for each parameter. -/
theorem Frame.length_entry_le (thisClass method : String) (isStatic : Bool) (d : MethodDescriptor) :
    (Frame.entry thisClass method isStatic d).locals.length ≤ 1 + 2 * d.params.length := by
  have hparams : ∀ ps : List Descriptor,
      (ps.flatMap fun p => valueSlots (.ofDescriptor p)).length ≤ 2 * ps.length := by
    intro ps
    induction ps with
    | nil => exact Nat.le_refl _
    | cons p ps ih =>
      have hslots : (valueSlots (.ofDescriptor p)).length ≤ 2 := by
        unfold valueSlots
        split <;> simp
      rw [List.flatMap_cons, List.length_append, List.length_cons]
      omega
  unfold entry
  rw [List.length_append]
  refine Nat.add_le_add ?_ (hparams d.params)
  split <;> simp

namespace MethodDecl

/-- The method uses few local slots: its instructions name low ones, and its descriptor is too short
for many parameters. -/
structure FewLocals (m : MethodDecl) : Prop where
  body : ∀ i ∈ m.body, Worklist.slotsNeeded i ≤ 255
  descriptor : m.descriptor.toList.length ≤ 127

/-- The stack map of the method is small: there are no jumps, or the frames have few locals. -/
def Small (m : MethodDecl) : Prop :=
  (∀ i ∈ m.body, i.isJump = false) ∨ m.FewLocals

theorem FewLocals.entry {m : MethodDecl} (hm : m.FewLocals) (owner : String)
    {d : MethodDescriptor} (hd : m.type = .ok d) :
    (Frame.entry owner m.name (Access.isStatic m.access) d).locals.length ≤ 255 := by
  unfold type at hd
  split at hd
  · next d' hd' =>
    obtain rfl := Except.ok.inj hd
    have hparams := MethodDescriptor.length_params_le hd'
    have hentry := Frame.length_entry_le owner m.name (Access.isStatic m.access) d'
    have hshort := hm.descriptor
    omega
  · cases hd

/-- The frames of a stack map fit the entries of one that is small. -/
theorem landings_small {m : MethodDecl} (hm : m.Small) {thisClass : String} {d : MethodDescriptor}
    {operands : List UInt16} {plan : Assembly.Plan} {analysis : Analysis}
    {landings : List (Nat × Frame)} (hd : m.type = .ok d)
    (hplan : Assembly.plan (m.body.zip operands) = .ok plan)
    (hanalysis : (plan.layout thisClass).analyze
      (Frame.entry thisClass m.name (Access.isStatic m.access) d) = .ok analysis)
    (hlandings : Assembly.landingFrames plan.labels (plan.layout thisClass) analysis =
      .ok landings) :
    ∃ height, (∀ t ∈ landings, t.2.locals.length ≤ 255 ∧ t.2.stack.length ≤ height) ∧
      landings.length * StackMap.entrySize 255 height ≤ 2 ^ 31 := by
  obtain ⟨hplaced, hsize, hmax⟩ := Assembly.plan_eq_ok hplan
  have hinstructions : (plan.layout thisClass).instructions.toList =
      (m.body.zip operands).map Prod.fst := by
    rw [← hplaced, List.map_map]
    rfl
  have hmem : ∀ i ∈ (m.body.zip operands).map Prod.fst, i ∈ m.body := by
    intro i hi
    obtain ⟨x, hx, rfl⟩ := List.mem_map.1 hi
    exact (List.of_mem_zip hx).1
  obtain ⟨hcount, hframes⟩ := Assembly.landingFrames_eq_ok hlandings
  rw [hinstructions] at hcount
  rcases hm with hnone | hfew
  · have hzero : ((m.body.zip operands).map Prod.fst).countP Instruction.isJump = 0 :=
      List.countP_eq_zero.2 fun i hi => by simp [hnone i (hmem i hi)]
    obtain rfl := List.eq_nil_of_length_eq_zero (Nat.le_zero.1 (hzero ▸ hcount))
    exact ⟨0, by simp, by simp⟩
  · refine ⟨total Frame.growth ((m.body.zip operands).map Prod.fst), fun t ht => ?_, ?_⟩
    · obtain ⟨i, hi⟩ := hframes t ht
      have hbody : ∀ ins ∈ (plan.layout thisClass).instructions,
          Worklist.slotsNeeded ins ≤ 255 := by
        intro ins hins
        rw [← Array.mem_toList_iff, hinstructions] at hins
        exact hfew.body _ (hmem ins hins)
      obtain ⟨hstack, hlocals⟩ := Layout.analyze_size hanalysis (hfew.entry thisClass hd) hbody hi
      rw [hinstructions] at hstack
      exact ⟨hlocals, hstack⟩
    · refine entries_le hcount ?_ (Nat.le_refl _)
      exact Nat.le_trans (growth_add_jumps_le _) (hsize ▸ hmax)

/-- Assembling a method extends the pool and answers a small body. -/
theorem assemble_interns {m : MethodDecl} (hm : m.Small) (thisClass : String)
    (withFrames : Bool) : Interns (m.assemble thisClass withFrames) fun _ b => b.Small := by
  unfold assemble
  refine .lift_bind fun d hd => ?_
  refine (Interns.mapM Instruction.internOperand_interns m.body).bind fun operands => ?_
  refine .lift_bind fun plan hplan => .lift_bind fun analysis hanalysis => ?_
  refine .lift_bind fun parts hparts => ?_
  have hcode : parts.flatten.length ≤ Assembly.maxSize := by
    obtain ⟨hplaced, hsize, hmax⟩ := Assembly.plan_eq_ok hplan
    rw [Assembly.length_parts hparts, hplaced, ← hsize]
    exact hmax
  dsimp only
  split
  · refine .lift_bind fun landings hlandings => ?_
    obtain ⟨height, hsmall, hentries⟩ :=
      landings_small hm hd hplan hanalysis hlandings
    split
    · exact .pure fun _ _ => ⟨hcode, fun _ h => by cases h⟩
    · refine Interns.bind (P := fun _ o => ∀ table, o = some table → table.length ≤ 2 ^ 31 + 2)
        (Interns.map ?_) fun stackMap => .pure fun _ htable _ => ⟨hcode, htable⟩
      refine (StackMap.write_interns _ hsmall).mono fun _ bs hbs table htable => ?_
      obtain rfl := Option.some.inj htable
      omega
  · exact .pure fun _ _ => ⟨hcode, fun _ h => by cases h⟩

end MethodDecl

end EntityLoom
