import EntityLoom.Proofs.Code.Joins
import EntityLoom.Proofs.Code.Member
import EntityLoom.Proofs.Code.Walk

/-!
# Assembled code is walked

Three functions know the form of an instruction: `Instruction.encodedLength`, by which bodies are
laid out, `Assembly.encode`, and `Walk.instructionLength`, by which existing code is walked.  They
agree on every form: `MethodDecl.toMember_walked` says that the walk over an assembled method comes
by its instructions and nothing else, each where the layout put it, and that a branch distance leads
to the instruction behind its label.

The bytes of one instruction are walked in one step (`Assembly.encode_oneStep`), provided its opcode
belongs to its kind; the analysis makes sure of that for instructions without operands.  The walk over
a whole body follows by induction over its instructions (`Assembly.walked_of_parts`).
-/

namespace EntityLoom

open Reader (Reads reads_word16 reads_word32 reads_bytes)

/-! ## Instructions and their opcodes -/

namespace Opcode

/-- The opcodes of instructions on fields. -/
def fieldOps : List Opcode := [getstatic, putstatic, getfield, putfield]

/-- The opcodes of calls. -/
def invokeOps : List Opcode := [invokevirtual, invokespecial, invokestatic, invokeinterface]

/-- The opcodes of instructions on classes. -/
def typeOps : List Opcode := [new, checkcast, instanceof]

/-- The opcodes of jumps. -/
def jumpOps : List Opcode := [ifeq, ifne, ifAcmpeq, ifAcmpne, goto, ifnull, ifnonnull]

end Opcode

namespace Instruction

/-- Whether the opcode of an instruction belongs to its kind.  Instructions without operands may have
any opcode. -/
def opcodeFits : Instruction → Bool
  | var op _ => op.isLoad || op.isStore
  | field op _ => op ∈ Opcode.fieldOps
  | invoke op _ => op ∈ Opcode.invokeOps
  | type op _ => op ∈ Opcode.typeOps
  | jump op _ => op ∈ Opcode.jumpOps
  | simple _ | ldcString _ | mark _ => true

/-- The first byte of an instruction with the given operand; a mark has none. -/
def firstByte? (operand : UInt16) : Instruction → Option UInt8
  | simple op | field op _ | invoke op _ | type op _ | jump op _ => some op.byte
  | var op slot =>
    some ((op.shortForm? slot).getD (if slot ≤ 0xFF then op.byte else Opcode.wide.byte))
  | ldcString _ => some (if operand ≤ 0xFF then Opcode.ldc.byte else Opcode.ldcW.byte)
  | mark _ => none

end Instruction

/-- What a walk should say of a placed instruction: nothing of a mark. -/
def Placed.visit? (q : Placed) : Option (Nat × UInt8) :=
  (q.instruction.firstByte? q.operand).map fun b => (q.offset, b)

namespace Opcode

theorem shape_of_shortForm {op : Opcode} {slot : UInt16} {b : UInt8}
    (h : op.shortForm? slot = some b) : Walk.shape b = .fixed 1 := by
  have hall : ∀ op ∈ all, ∀ n : Fin 4, ∀ b ∈ op.shortForm? (UInt16.ofNat n), Walk.shape b = .fixed 1 := by
    decide +kernel
  have hslot : slot.toNat < 4 := by
    unfold shortForm? at h
    split at h
    · cases h
    · next hle =>
      have hle := UInt16.le_iff_toNat_le.1 (UInt16.not_lt.1 hle)
      exact Nat.lt_succ_of_le hle
  have hb := hall op (mem_all op) ⟨slot.toNat, hslot⟩ b
  rw [UInt16.ofNat_toNat] at hb
  exact hb h

theorem shape_of_invoke : ∀ op ∈ invokeOps,
    Walk.shape op.byte = .fixed (if op = .invokeinterface then 5 else 3) := by
  decide

/-- Instructions with a two byte operand. -/
theorem shape_of_word {op : Opcode} (h : op ∈ fieldOps ∨ op ∈ typeOps ∨ op ∈ jumpOps) :
    Walk.shape op.byte = .fixed 3 := by
  have hall : ∀ op ∈ fieldOps ++ (typeOps ++ jumpOps), Walk.shape op.byte = .fixed 3 := by
    decide
  exact hall op (by simpa only [List.mem_append] using h)

theorem shape_of_local {op : Opcode} (h : (op.isLoad || op.isStore) = true) :
    Walk.shape op.byte = .fixed 2 ∧ op.byte ≠ 0x84 := by
  have hall : ∀ op ∈ all, (op.isLoad || op.isStore) = true →
      Walk.shape op.byte = .fixed 2 ∧ op.byte ≠ 0x84 := by
    decide +kernel
  exact hall op (mem_all op) h

end Opcode

/-- An instruction without operands that was executed has one byte. -/
theorem Frame.shape_of_after {thisClass : String} {index offset : Nat} {op : Opcode} {f f' : Frame}
    (h : f.after thisClass index offset (.simple op) = .ok f') :
    Walk.shape op.byte = .fixed 1 := by
  obtain ⟨u, hu⟩ := after_eq_ok.1 h
  cases op <;> first | rfl | exact absurd hu run_throw_ne_ok

namespace Assembly

/-! ## One instruction -/

/-- An instruction of a kind that its opcode belongs to; one without operands has one byte. -/
structure Walkable (ins : Instruction) : Prop where
  fits : ins.opcodeFits = true
  simple : ∀ op, ins = .simple op → Walk.shape op.byte = .fixed 1

/-- Bytes with the given first one that are walked in one step, whatever follows them. -/
def OneStep (b : UInt8) (bs : Bytes) : Prop :=
  ∃ rest, bs = b :: rest ∧ ∀ pc back, Walk.instructionLength pc (bs ++ back) = .ok bs.length

/-- The first byte tells the length. -/
theorem oneStep_of_shape {op : UInt8} {rest : Bytes} (h : Walk.shape op = .fixed (rest.length + 1)) :
    OneStep op (op :: rest) := by
  refine ⟨rest, rfl, fun pc back => Walk.instructionLength_of_fixed h ?_⟩
  change rest.length + 1 ≤ (rest ++ back).length + 1
  rw [List.length_append]
  omega

/-- The wide form of a load or a store; it is longer for an increment. -/
theorem oneStep_wide {op : UInt8} (hop : op ≠ 0x84) (slot : UInt16) :
    OneStep Opcode.wide.byte (Opcode.wide.byte :: op :: Bytes.ofWord16 slot) := by
  refine ⟨_, rfl, fun pc back => Walk.instructionLength_cons_eq_ok.2 ⟨?_, ?_⟩⟩
  · change Except.ok (if op = 0x84 then 6 else 4) = _
    rw [if_neg hop]
    rfl
  · change 4 ≤ (op :: Bytes.ofWord16 slot ++ back).length + 1
    rw [List.length_append, List.length_cons, Bytes.length_ofWord16]
    omega

/-- A load or a store in the form that its slot asks for: with the slot in the opcode, in a byte or
in two. -/
theorem encode_var_oneStep {targetOffset? : Label → Option Nat} {op : Opcode} {slot operand : UInt16}
    {offset : Nat} {bs : Bytes} (h : encode targetOffset? ⟨.var op slot, operand, offset⟩ = .ok bs)
    (hop : (op.isLoad || op.isStore) = true) :
    OneStep ((op.shortForm? slot).getD (if slot ≤ 0xFF then op.byte else Opcode.wide.byte)) bs := by
  obtain ⟨hshape, hne⟩ := Opcode.shape_of_local hop
  unfold encode at h
  dsimp only at h
  split at h
  · next short hshort =>
    cases h
    rw [hshort]
    exact oneStep_of_shape (Opcode.shape_of_shortForm hshort)
  · next hshort =>
    rw [hshort, Option.getD_none]
    split at h
    · next hle =>
      cases h
      rw [if_pos hle]
      exact oneStep_of_shape hshape
    · next hle =>
      cases h
      rw [if_neg hle]
      exact oneStep_wide hne slot

/-- The bytes of an instruction are walked in one step. -/
theorem encode_oneStep {targetOffset? : Label → Option Nat} {q : Placed} {bs : Bytes}
    (h : encode targetOffset? q = .ok bs) (hq : Walkable q.instruction) {b : UInt8}
    (hb : q.instruction.firstByte? q.operand = some b) : OneStep b bs := by
  obtain ⟨hfits, hsimple⟩ := hq
  obtain ⟨ins, operand, offset⟩ := q
  cases ins with
  | mark label => cases hb
  | var op slot =>
    cases hb
    exact encode_var_oneStep h hfits
  | simple op =>
    cases h
    cases hb
    exact oneStep_of_shape (hsimple op rfl)
  | field op r =>
    cases h
    cases hb
    exact oneStep_of_shape (Opcode.shape_of_word (.inl (of_decide_eq_true hfits)))
  | type op name =>
    cases h
    cases hb
    exact oneStep_of_shape (Opcode.shape_of_word (.inr (.inl (of_decide_eq_true hfits))))
  | invoke op r =>
    cases hb
    have hshape := Opcode.shape_of_invoke op (of_decide_eq_true hfits)
    unfold encode at h
    dsimp only at h
    split at h
    · next hop =>
      obtain ⟨d, -, h⟩ := bind_eq_ok.1 h
      cases h
      rw [if_pos hop] at hshape
      exact oneStep_of_shape hshape
    · next hop =>
      cases h
      rw [if_neg hop] at hshape
      exact oneStep_of_shape hshape
  | ldcString text =>
    cases hb
    unfold encode at h
    dsimp only at h
    split at h
    · next hle =>
      cases h
      rw [if_pos hle]
      exact oneStep_of_shape rfl
    · next hle =>
      cases h
      rw [if_neg hle]
      exact oneStep_of_shape rfl
  | jump op label =>
    cases hb
    unfold encode at h
    dsimp only at h
    split at h
    · cases h
    · split at h
      · cases h
        exact oneStep_of_shape (Opcode.shape_of_word (.inr (.inr (of_decide_eq_true hfits))))
      · cases h

/-! ## The whole body -/

/-- Instructions that stand where their bytes start are walked one after the other. -/
theorem walked_of_parts {targetOffset? : Label → Option Nat} {placed : List Placed}
    {parts : List Bytes} {start : Nat}
    (h : List.Forall₂ (fun q bs => encode targetOffset? q = .ok bs) placed parts)
    (hoffset : ∀ k q, placed[k]? = some q → q.offset = start + (parts.take k).flatten.length)
    (hwalkable : ∀ q ∈ placed, Walkable q.instruction) :
    Walk.continueFrom [] start parts.flatten = ⟨placed.filterMap Placed.visit?, none⟩ := by
  induction h generalizing start with
  | nil =>
    unfold Walk.continueFrom
    rfl
  | @cons q bs placed parts hq _ ih =>
    obtain ⟨hwalk, hwalkable⟩ := List.forall_mem_cons.1 hwalkable
    have hstart : q.offset = start := hoffset 0 q rfl
    have hrest := @ih (start + bs.length) (fun k r hk => by
      rw [hoffset (k + 1) r hk, List.take_succ_cons, List.flatten_cons, List.length_append,
        Nat.add_assoc]) hwalkable
    cases hb : q.instruction.firstByte? q.operand with
    | none =>
      have hmark : bs = [] := by
        obtain ⟨ins, operand, offset⟩ := q
        cases ins <;> cases hb
        cases hq
        rfl
      rw [hmark, List.length_nil, Nat.add_zero] at hrest
      have hvisit : q.visit? = none := by rw [Placed.visit?, hb, Option.map_none]
      rw [hmark, List.filterMap_cons, hvisit]
      exact hrest
    | some b =>
      obtain ⟨rest, rfl, hlength⟩ := encode_oneStep hq hwalk hb
      have hvisit : q.visit? = some (start, b) := by
        rw [Placed.visit?, hb, hstart, Option.map_some]
      rw [List.filterMap_cons, hvisit, List.flatten_cons]
      refine (Walk.continueFrom_cons (hlength start parts.flatten)).trans ?_
      change (⟨_ :: (Walk.continueFrom [] _ (((b :: rest) ++ parts.flatten).drop _)).visited,
        (Walk.continueFrom [] _ (((b :: rest) ++ parts.flatten).drop _)).fault⟩ : Walk) = _
      rw [List.drop_left, hrest]

end Assembly

/-! ## Distances and attributes -/

/-- The branch distance of the instruction at a position of the code: the signed 16 bit number behind
its first byte. -/
def Walk.distanceAt? (code : Bytes) (pc : Nat) : Option Int :=
  match code.drop (pc + 1) with
  | hi :: lo :: _ => some (Bytes.word16 hi lo).toInt16.toInt
  | _ => none

theorem Walk.distanceAt?_of_branchBytes {code back : Bytes} {pc : Nat} {op : UInt8} {delta : Int}
    (h : code.drop pc = op :: Assembly.branchBytes delta ++ back)
    (hdelta : -0x8000 ≤ delta ∧ delta < 0x8000) : distanceAt? code pc = some delta := by
  have hdrop : code.drop (pc + 1) = Assembly.branchBytes delta ++ back := by
    rw [← List.drop_drop, h]
    rfl
  unfold distanceAt?
  rw [hdrop]
  change some (Bytes.word16 _ _).toInt16.toInt = some delta
  rw [Bytes.word16_ofWord16, Int16.toInt16_toUInt16,
    Int16.toInt_ofInt_of_le (by omega) (by omega)]

/-- The content of a code attribute starts with the limits and the code. -/
theorem CodeBody.info_of_toAttribute {b : CodeBody} {p p' : Pool} {code : Attribute}
    (h : Succeeds b.toAttribute p code p') :
    ∃ rest, code.info = Bytes.ofWord16 b.maxStack ++ (Bytes.ofWord16 b.maxLocals ++
      (Bytes.ofLength32 b.code.length ++ (b.code ++ rest))) := by
  have hrest : ∀ nested q, Succeeds (do
      let name ← Interning.utf8 Attribute.codeName
      return (⟨name, Bytes.ofWord16 b.maxStack ++ Bytes.ofWord16 b.maxLocals ++
        Bytes.ofLength32 b.code.length ++ b.code ++ Bytes.ofLength16 0 ++ nested⟩ : Attribute))
        q code p' →
      ∃ rest, code.info = Bytes.ofWord16 b.maxStack ++ (Bytes.ofWord16 b.maxLocals ++
        (Bytes.ofLength32 b.code.length ++ (b.code ++ rest))) := by
    intro nested q h
    obtain ⟨name, p₁, -, h⟩ := succeeds_bind.1 h
    obtain ⟨rfl, -⟩ := succeeds_pure.1 h
    exact ⟨Bytes.ofLength16 0 ++ nested, by simp only [List.append_assoc]⟩
  unfold toAttribute at h
  dsimp only at h
  split at h
  · obtain ⟨name, p₁, -, h⟩ := succeeds_bind.1 h
    obtain ⟨nested, p₂, -, h⟩ := succeeds_bind.1 h
    exact hrest nested p₂ h
  · obtain ⟨nested, p₁, -, h⟩ := succeeds_bind.1 h
    exact hrest nested p₁ h

/-- The code in the content of a code attribute is found again. -/
theorem Walk.codeRange_of_info {info code rest : Bytes} {maxStack maxLocals : UInt16}
    (h : info = Bytes.ofWord16 maxStack ++ (Bytes.ofWord16 maxLocals ++
      (Bytes.ofLength32 code.length ++ (code ++ rest)))) (hcode : code.length < 0x100000000) :
    codeRange info = .ok (codeStart, codeStart + code.length) ∧
      (info.drop codeStart).take code.length = code := by
  constructor
  · have hread : Reads readCode (Bytes.ofWord16 maxStack ++ (Bytes.ofWord16 maxLocals ++
        (Bytes.ofLength32 code.length ++ code))) code := by
      refine (reads_word16 _).bind ((reads_word16 _).bind ((reads_word32 _).bind ?_))
      rw [Bytes.toNat_length32 hcode]
      exact reads_bytes code
    have hrun := hread 0 rest
    simp only [List.append_assoc] at hrun
    unfold codeRange Reader.onData Cursor.start
    rw [h, hrun]
    rfl
  · rw [h]
    change (code ++ rest).take code.length = code
    exact List.take_left

/-! ## Assembled methods -/

namespace MethodDecl

variable {m : MethodDecl} {thisClass : String} {withFrames : Bool} {p p' : Pool} {b : CodeBody}

namespace Assembled

open Assembly

variable (a : m.Assembled thisClass withFrames p b p')

theorem walkable (hfits : ∀ ins ∈ m.body, ins.opcodeFits = true) {q : Placed}
    (hq : q ∈ a.plan.placed) : Walkable q.instruction := by
  have hmem : q.instruction ∈ m.body := a.lays.instructions ▸ List.mem_map_of_mem hq
  refine ⟨hfits _ hmem, fun op hop => ?_⟩
  obtain ⟨i, hi⟩ := List.mem_iff_getElem?.1 hmem
  rw [hop, ← a.getElem?_layout] at hi
  obtain ⟨f, f', -, hf'⟩ := a.flows.executed i _ hi rfl
  unfold Layout.executeAt at hf'
  rw [hi] at hf'
  exact Frame.shape_of_after hf'

/-- The walk over the code comes by the instructions. -/
theorem walked (hfits : ∀ ins ∈ m.body, ins.opcodeFits = true) :
    Walk.ofCode b.code = ⟨a.plan.placed.filterMap Placed.visit?, none⟩ := by
  rw [a.code_eq]
  refine walked_of_parts (mapM_eq_ok.1 a.parts_eq) (fun k q hq => ?_) fun q hq => a.walkable hfits hq
  rw [Nat.zero_add]
  exact a.lays.offsets k q hq

/-- The code from an instruction on starts with its bytes. -/
theorem drop_code {k : Nat} {bs : Bytes} (h : a.parts[k]? = some bs) :
    ∃ back, b.code.drop (a.offset k) = bs ++ back := by
  obtain ⟨hk, rfl⟩ := List.getElem?_eq_some_iff.1 h
  refine ⟨(a.parts.drop (k + 1)).flatten, ?_⟩
  have hsplit : a.parts.flatten = (a.parts.take k).flatten ++ (a.parts.drop k).flatten := by
    rw [← List.flatten_append, List.take_append_drop]
  rw [a.code_eq, hsplit, offset, List.drop_left, List.drop_eq_getElem_cons hk, List.flatten_cons]

/-- The bytes of an instruction. -/
theorem encoded {k : Nat} {q : Placed} (hq : a.plan.placed[k]? = some q) :
    ∃ bs, a.parts[k]? = some bs ∧ encode (fun label => (a.plan.labels[label]?).bind
      (a.layout.offsets[·]?)) q = .ok bs := by
  have hparts := mapM_eq_ok.1 a.parts_eq
  obtain ⟨hk, rfl⟩ := List.getElem?_eq_some_iff.1 hq
  have hk' : k < a.parts.length := hparts.length_eq ▸ hk
  exact ⟨_, List.getElem?_eq_getElem hk', hparts.get hk hk'⟩

/-- Marks take no bytes. -/
theorem offset_of_landsAt {k j : Nat} (h : LandsAt m.body k j) : a.offset k = a.offset j := by
  induction hn : j - k generalizing k with
  | zero =>
    have hle := h.le
    obtain rfl : k = j := by omega
    rfl
  | succ n ih =>
    obtain ⟨label, hlabel⟩ := h.marks k (Nat.le_refl k) (by omega)
    obtain ⟨operand, hnext⟩ := a.offset_succ hlabel
    rw [← ih (h.tail (Nat.le_succ k) (by omega)) (by omega)]
    exact hnext.symm

/-- The distance of a jump leads to the instruction behind its label. -/
theorem distance_of_jump {i : Nat} {op : Opcode} {label : Label}
    (hi : m.body[i]? = some (.jump op label)) :
    ∃ j d, JumpsTo m.body i j ∧ Walk.distanceAt? b.code (a.offset i) = some d ∧
      (a.offset i : Int) + d = a.offset j := by
  obtain ⟨q, hq, hins, hoffset⟩ := a.exists_placed hi
  obtain ⟨bs, hbs, hencode⟩ := a.encoded hq
  obtain ⟨back, hcode⟩ := a.drop_code hbs
  unfold encode at hencode
  rw [hins, hoffset] at hencode
  dsimp only at hencode
  split at hencode
  · cases hencode
  · next target htarget =>
    obtain ⟨k, hlabel, htarget⟩ := Option.bind_eq_some_iff.1 htarget
    have hk := a.target_eq_some_iff.1 hlabel
    obtain ⟨j, hj, hlands⟩ := a.exists_jumpsTo_of_bound hi hk
    have hlt := (List.getElem?_eq_some_iff.1 hk).1
    obtain rfl := Option.some.inj (htarget.symm.trans (a.lays.offset_eq hlt))
    split at hencode
    · next hrange =>
      obtain rfl := Except.ok.inj hencode
      refine ⟨j, _, hj, Walk.distanceAt?_of_branchBytes hcode hrange, ?_⟩
      rw [a.offset_of_landsAt hlands]
      omega
    · cases hencode

/-- A `new` pushes an object that is known by where the instruction stands. -/
theorem pushes_of_new {i : Nat} {name : String} (hi : m.body[i]? = some (.type .new name)) :
    ∃ f w, a.analysis.frameAt i = some f ∧ w.toNat = a.offset i ∧
      a.layout.executeAt f i = .ok { f with stack := .uninitialized w :: f.stack } := by
  have hat := (a.getElem?_layout i).trans hi
  obtain ⟨f, f', hf, hf'⟩ := a.flows.executed i _ hat rfl
  have hsmall := a.lays.small i
  unfold maxSize at hsmall
  refine ⟨f, UInt16.ofNat (a.offset i), hf, Bytes.toNat_length16 (by omega), ?_⟩
  unfold Layout.executeAt
  rw [hat]
  dsimp only
  rw [a.getD_offsets hi]
  unfold Frame.after Frame.execute Frame.executeType
  dsimp only
  rw [if_pos (by omega)]
  rfl

/-- The walk over the code of a body agrees with its layout. -/
structure Walked : Prop where
  /-- The walk has no fault and comes by the instructions that are no marks, each with its place in
  the layout and its first byte. -/
  visits : Walk.instructions b.code = .ok (a.plan.placed.filterMap Placed.visit?)
  instructions : a.plan.placed.map Placed.instruction = m.body
  offsets : a.layout.offsets.toList = a.plan.placed.map Placed.offset
  /-- A `new` pushes an object that is known by where the instruction stands. -/
  news : ∀ i q name, a.plan.placed[i]? = some q → q.instruction = .type .new name →
    ∃ f w, a.analysis.frameAt i = some f ∧ w.toNat = q.offset ∧
      a.layout.executeAt f i = .ok { f with stack := .uninitialized w :: f.stack }
  last : ∃ pc op n, (a.plan.placed.filterMap Placed.visit?).getLast? = some (pc, op) ∧
    Walk.instructionLength pc (b.code.drop pc) = .ok n ∧ pc + n = b.code.length
  /-- The distance of a jump leads to the instruction behind its label. -/
  jumps : ∀ i q op label, a.plan.placed[i]? = some q → q.instruction = .jump op label →
    ∃ j t d, JumpsTo m.body i j ∧ a.plan.placed[j]? = some t ∧
      Walk.distanceAt? b.code q.offset = some d ∧ (q.offset : Int) + d = t.offset

include a in
/-- A body has an instruction, which takes bytes. -/
theorem code_ne_nil : b.code ≠ [] := by
  obtain ⟨g, hg, -⟩ := a.flows.entry
  obtain ⟨j, hlands⟩ := a.flows.exists_landsAt hg
  obtain ⟨ins, hins, hmark⟩ := hlands.instruction
  rw [a.toList_layout] at hins
  have hlt := a.offset_lt hins hmark (Nat.lt_succ_self j)
  intro hnil
  have hall : ∀ k, a.offset k = 0 := by
    intro k
    have hflatten := a.code_eq.symm.trans hnil
    unfold offset
    rw [List.length_eq_zero_iff, List.flatten_eq_nil_iff]
    exact fun bs hbs => List.flatten_eq_nil_iff.1 hflatten bs (List.mem_of_mem_take hbs)
  rw [hall, hall] at hlt
  exact absurd hlt (Nat.lt_irrefl 0)

theorem walks (hfits : ∀ ins ∈ m.body, ins.opcodeFits = true) : a.Walked := by
  have hwalk := a.walked hfits
  have hat : ∀ {i q}, a.plan.placed[i]? = some q → m.body[i]? = some q.instruction ∧
      q.offset = a.offset i := by
    intro i q hq
    refine ⟨?_, a.lays.offsets i q hq⟩
    rw [← a.lays.instructions, List.getElem?_map, hq]
    rfl
  refine ⟨?_, a.lays.instructions, rfl, fun i q name hq hnew => ?_, ?_, fun i q op label hq hjump => ?_⟩
  · unfold Walk.instructions
    rw [hwalk]
  · obtain ⟨hi, hoffset⟩ := hat hq
    rw [hoffset]
    exact a.pushes_of_new (hnew ▸ hi)
  · have hends := @Walk.ends_with_code 0 b.code (congrArg Walk.fault hwalk)
      a.code_ne_nil
    obtain ⟨pc, op, n, hlast, -, hlength, hend⟩ := hends
    rw [Nat.sub_zero] at hlength
    rw [Nat.zero_add] at hend
    exact ⟨pc, op, n, (congrArg (·.visited.getLast?) hwalk).symm.trans hlast, hlength, hend⟩
  · obtain ⟨hi, hoffset⟩ := hat hq
    obtain ⟨j, d, hj, hdistance, hsum⟩ := a.distance_of_jump (hjump ▸ hi)
    have hlanding := hj
    obtain ⟨_, _, k, -, -, hlands⟩ := hlanding
    obtain ⟨ins, hins, -⟩ := hlands.instruction
    obtain ⟨t, ht, -, htarget⟩ := a.exists_placed hins
    refine ⟨j, t, d, hj, ht, ?_, ?_⟩
    · rw [hoffset]
      exact hdistance
    · rw [hoffset, htarget]
      exact hsum

end Assembled

variable {r : Member}

/-- Making a member of a method assembles it. -/
theorem succeeds_toMember (h : Succeeds (m.toMember thisClass withFrames) p r p') :
    ∃ b p₁ p₂ code, Succeeds (m.assemble thisClass withFrames) p b p₁ ∧
      Succeeds b.toAttribute p₂ code p' ∧ r.attributes = [code] := by
  unfold toMember at h
  obtain ⟨b, p₁, hb, h⟩ := succeeds_bind.1 h
  obtain ⟨name, p₂, -, h⟩ := succeeds_bind.1 h
  obtain ⟨descriptor, p₃, -, h⟩ := succeeds_bind.1 h
  obtain ⟨code, p₄, hcode, h⟩ := succeeds_bind.1 h
  obtain ⟨rfl, rfl⟩ := succeeds_pure.1 h
  exact ⟨b, p₁, p₃, code, hb, hcode, rfl⟩

/-- The code of a method that was made a member, from any pool, is found in its code attribute, and
the walk over it agrees with the layout of the body. -/
theorem toMember_walked (hfits : ∀ ins ∈ m.body, ins.opcodeFits = true)
    (h : Succeeds (m.toMember thisClass withFrames) p r p') :
    ∃ (b : CodeBody) (p₁ : Pool) (a : m.Assembled thisClass withFrames p b p₁) (code : Attribute),
      r.attributes = [code] ∧
      Walk.codeRange code.info = .ok (Walk.codeStart, Walk.codeStart + b.code.length) ∧
      (code.info.drop Walk.codeStart).take b.code.length = b.code ∧ a.Walked := by
  obtain ⟨b, p₁, p₂, code, hb, hcode, hattributes⟩ := succeeds_toMember h
  obtain ⟨a⟩ := nonempty_assembled hb
  obtain ⟨rest, hinfo⟩ := CodeBody.info_of_toAttribute hcode
  have hlength : b.code.length < 0x100000000 := by
    have hsmall := a.lays.small a.parts.length
    unfold Assembled.offset Assembly.maxSize at hsmall
    rw [List.take_length, ← a.code_eq] at hsmall
    omega
  obtain ⟨hrange, hslice⟩ := Walk.codeRange_of_info hinfo hlength
  exact ⟨b, p₁, a, code, hattributes, hrange, hslice, a.walks hfits⟩

/-- The walk over a method with a jump. -/
theorem toMember_walked_isNonzero :
    ∃ r p', Succeeds (isNonzero.toMember "A" true) .empty r p' ∧
      ∃ (b : CodeBody) (p₁ : Pool) (a : isNonzero.Assembled "A" true .empty b p₁)
        (code : Attribute), r.attributes = [code] ∧
        Walk.codeRange code.info = .ok (Walk.codeStart, Walk.codeStart + b.code.length) ∧
        a.Walked := by
  obtain ⟨r, p', h⟩ := exists_succeeds (x := isNonzero.toMember "A" true) (s := .empty)
    (by decide +kernel)
  obtain ⟨b, p₁, a, code, hattributes, hrange, -, hwalked⟩ := toMember_walked (by decide) h
  exact ⟨r, p', h, b, p₁, a, code, hattributes, hrange, hwalked⟩

end MethodDecl

end EntityLoom
