import EntityLoom.Proofs.Code.Assembly

/-!
# Laid out bodies

A body that was laid out has its instructions one behind the other, and the place of each mark is
found under its label (`Assembly.Plan.Lays`).  Marks take no bytes, so several places can have one
offset.

`MethodDecl.Assembled` holds what each step of an assembly answered; statements about assembled
bodies are made of it.
-/

namespace EntityLoom

/-! ## Layout -/

namespace Instruction

/-- The label that an instruction binds. -/
def bound? : Instruction → Option Label
  | mark label => some label
  | _ => none

theorem encodedLength_pos {i : Instruction} (h : i.isMark = false) (operand : UInt16) :
    0 < i.encodedLength operand := by
  unfold encodedLength
  cases i with
  | mark label => cases h
  | _ =>
    dsimp only
    (try split) <;> (try split) <;> omega

end Instruction

/-- The labels that a body binds, in order. -/
def boundLabels (body : List Instruction) : List Label :=
  body.filterMap Instruction.bound?

theorem mem_boundLabels {body : List Instruction} {label : Label} :
    label ∈ boundLabels body ↔ .mark label ∈ body := by
  unfold boundLabels
  rw [List.mem_filterMap]
  constructor
  · rintro ⟨i, hi, hbound⟩
    cases i <;> cases hbound
    exact hi
  · exact fun h => ⟨_, h, rfl⟩

namespace Assembly

/-- Where the instruction at place `k` of a body starts. -/
def offsetOf (body : List (Instruction × UInt16)) (k : Nat) : Nat :=
  bodySize (body.take k)

theorem offsetOf_cons_succ (x : Instruction × UInt16) (body : List (Instruction × UInt16))
    (k : Nat) : offsetOf (x :: body) (k + 1) = x.1.encodedLength x.2 + offsetOf body k := rfl

theorem offsetOf_succ {body : List (Instruction × UInt16)} {k : Nat} {x : Instruction × UInt16}
    (h : body[k]? = some x) :
    offsetOf body (k + 1) = offsetOf body k + x.1.encodedLength x.2 := by
  induction body generalizing k with
  | nil => cases h
  | cons y rest ih =>
    cases k with
    | zero =>
      obtain rfl := Option.some.inj h
      exact Nat.add_comm _ _
    | succ k =>
      rw [offsetOf_cons_succ, offsetOf_cons_succ, ih h, Nat.add_assoc]

theorem offsetOf_le (body : List (Instruction × UInt16)) (k : Nat) :
    offsetOf body k ≤ bodySize body := by
  induction body generalizing k with
  | nil => rw [offsetOf, List.take_nil]
  | cons x rest ih =>
    cases k with
    | zero => exact Nat.zero_le _
    | succ k =>
      have := ih k
      rw [offsetOf_cons_succ, bodySize_cons]
      omega

theorem encodedLength_le (i : Instruction) (operand : UInt16) : i.encodedLength operand ≤ 5 := by
  unfold Instruction.encodedLength
  split <;> (try split) <;> (try split) <;> omega

/-- No instruction takes more than five bytes. -/
theorem offsetOf_add_le (body : List (Instruction × UInt16)) (k n : Nat) :
    offsetOf body k ≤ offsetOf body (k + n) ∧
      offsetOf body (k + n) ≤ offsetOf body k + 5 * n := by
  induction body generalizing k n with
  | nil =>
    simp only [offsetOf, List.take_nil]
    omega
  | cons x rest ih =>
    have hx := encodedLength_le x.1 x.2
    cases k with
    | zero =>
      cases n with
      | zero => exact ⟨Nat.le_refl _, Nat.le_refl _⟩
      | succ n =>
        have hrest := ih 0 n
        have hzero : ∀ b : List (Instruction × UInt16), offsetOf b 0 = 0 := fun _ => rfl
        rw [hzero, Nat.zero_add] at hrest
        rw [Nat.zero_add, hzero, offsetOf_cons_succ]
        omega
    | succ k =>
      have hrest := ih k n
      rw [Nat.add_right_comm, offsetOf_cons_succ, offsetOf_cons_succ]
      omega

/-- Instructions with their operands, placed one behind the other from an offset on. -/
def placedFrom (offset : Nat) : List (Instruction × UInt16) → List Placed
  | [] => []
  | (i, operand) :: rest => ⟨i, operand, offset⟩ :: placedFrom (offset + i.encodedLength operand) rest

theorem getElem?_placedFrom (offset : Nat) (body : List (Instruction × UInt16)) (k : Nat) :
    (placedFrom offset body)[k]? =
      (body[k]?).map fun x => Placed.mk x.1 x.2 (offset + offsetOf body k) := by
  induction body generalizing offset k with
  | nil => rfl
  | cons x rest ih =>
    cases k with
    | zero => rfl
    | succ k =>
      rw [placedFrom, List.getElem?_cons_succ, List.getElem?_cons_succ, ih, offsetOf_cons_succ,
        Nat.add_assoc]

/-- The rule of a mark, and of what is none, when instructions are laid out. -/
theorem place_cons {acc : List Placed} {labels : LabelTable} {index offset : Nat} {i : Instruction}
    {operand : UInt16} {rest : List (Instruction × UInt16)} :
    place acc labels index offset ((i, operand) :: rest) =
      match i.bound? with
      | some label =>
        if label ∈ labels then .error (.duplicateLabel label)
        else place (⟨i, operand, offset⟩ :: acc) (labels.insert label index) (index + 1)
          (offset + i.encodedLength operand) rest
      | none => place (⟨i, operand, offset⟩ :: acc) labels (index + 1)
          (offset + i.encodedLength operand) rest := by
  rw [place.eq_def]
  cases i <;> rfl

theorem placed_of_place {body : List (Instruction × UInt16)} {acc : List Placed}
    {labels : LabelTable} {index offset : Nat} {plan : Plan}
    (h : place acc labels index offset body = .ok plan) :
    plan.placed = acc.reverse ++ placedFrom offset body := by
  induction body generalizing acc labels index offset with
  | nil =>
    obtain rfl := Except.ok.inj h
    exact (List.append_nil _).symm
  | cons x rest ih =>
    obtain ⟨i, operand⟩ := x
    have hrest : ∃ labels', place (⟨i, operand, offset⟩ :: acc) labels' (index + 1)
        (offset + i.encodedLength operand) rest = .ok plan := by
      rw [place_cons] at h
      split at h
      · split at h
        · cases h
        · exact ⟨_, h⟩
      · exact ⟨_, h⟩
    obtain ⟨labels', hrest⟩ := hrest
    rw [ih hrest, List.reverse_cons, List.append_assoc]
    rfl

/-- The place of the mark of a label in a body that starts at place `index`. -/
def BoundAt (index : Nat) (body : List (Instruction × UInt16)) (label : Label) (i : Nat) : Prop :=
  ∃ k, i = index + k ∧ (body.map Prod.fst)[k]? = some (.mark label)

theorem boundAt_cons {index : Nat} {x : Instruction × UInt16}
    {rest : List (Instruction × UInt16)} {label : Label} {i : Nat} :
    BoundAt index (x :: rest) label i ↔
      x.1 = .mark label ∧ i = index ∨ BoundAt (index + 1) rest label i := by
  constructor
  · rintro ⟨k, rfl, hk⟩
    cases k with
    | zero => exact .inl ⟨Option.some.inj hk, rfl⟩
    | succ k => exact .inr ⟨k, by omega, hk⟩
  · rintro (⟨hx, rfl⟩ | ⟨k, rfl, hk⟩)
    · exact ⟨0, rfl, congrArg some hx⟩
    · exact ⟨k + 1, by omega, hk⟩

/-- Where a body was laid out, the place of each of its marks is found. -/
theorem labels_of_place {body : List (Instruction × UInt16)} {acc : List Placed}
    {labels : LabelTable} {index offset : Nat} {plan : Plan}
    (h : place acc labels index offset body = .ok plan) (label : Label) (i : Nat) :
    plan.labels[label]? = some i ↔ labels[label]? = some i ∨ BoundAt index body label i := by
  induction body generalizing acc labels index offset with
  | nil =>
    obtain rfl := Except.ok.inj h
    refine (or_iff_left ?_).symm
    rintro ⟨k, -, hk⟩
    cases hk
  | cons x rest ih =>
    obtain ⟨ins, operand⟩ := x
    rw [place_cons] at h
    rw [boundAt_cons]
    split at h
    · next bound hbound =>
      split at h
      · cases h
      · next hunbound =>
        have hmark : ins = .mark label ↔ bound = label := by
          cases ins <;> cases hbound
          simp
        rw [ih h, Std.TreeMap.getElem?_insert, hmark]
        by_cases heq : bound = label
        · have hnone : labels[label]? = none := Std.TreeMap.getElem?_eq_none (heq ▸ hunbound)
          rw [if_pos (Std.LawfulEqCmp.compare_eq_iff_eq.2 heq), hnone]
          simp [heq, eq_comm]
        · rw [if_neg fun e => heq (Std.LawfulEqCmp.compare_eq_iff_eq.1 e)]
          simp [heq]
    · next hbound =>
      rw [ih h, or_iff_right (a := _ ∧ _)]
      rintro ⟨hmark, -⟩
      dsimp only at hmark
      rw [hmark] at hbound
      cases hbound

/-- A body whose marks differ can be laid out. -/
theorem place_of_nodup {body : List (Instruction × UInt16)} {acc : List Placed}
    {labels : LabelTable} {index offset : Nat} (hnodup : (boundLabels (body.map Prod.fst)).Nodup)
    (hfresh : ∀ label ∈ boundLabels (body.map Prod.fst), label ∉ labels) :
    ∃ plan, place acc labels index offset body = .ok plan := by
  induction body generalizing acc labels index offset with
  | nil => exact ⟨_, rfl⟩
  | cons x rest ih =>
    obtain ⟨i, operand⟩ := x
    rw [place_cons]
    unfold boundLabels at hnodup hfresh ih
    rw [List.map_cons, List.filterMap_cons] at hnodup hfresh
    cases hbound : i.bound? with
    | none =>
      rw [hbound] at hnodup hfresh
      exact ih hnodup hfresh
    | some bound =>
      rw [hbound] at hnodup hfresh
      obtain ⟨hnotin, hnodup⟩ := List.nodup_cons.1 hnodup
      obtain ⟨hunbound, hfresh⟩ := List.forall_mem_cons.1 hfresh
      have hinserted : ∀ label ∈ (rest.map Prod.fst).filterMap Instruction.bound?,
          label ∉ labels.insert bound index := by
        intro label hlabel
        rw [Std.TreeMap.mem_insert]
        rintro (heq | hmem)
        · obtain rfl := Std.LawfulEqCmp.compare_eq_iff_eq.1 heq
          exact hnotin hlabel
        · exact hfresh label hlabel hmem
      obtain ⟨plan, hplan⟩ := @ih (⟨i, operand, offset⟩ :: acc) (labels.insert bound index)
        (index + 1) (offset + i.encodedLength operand) hnodup hinserted
      exact ⟨plan, (if_neg hunbound).trans hplan⟩

end Assembly

/-! ## Laid out bodies -/

namespace Assembly

/-- A layout of a body: where its instructions start and where its labels are bound. -/
structure Plan.Lays (plan : Plan) (body : List Instruction) (offset : Nat → Nat) : Prop where
  instructions : plan.placed.map Placed.instruction = body
  offsets : ∀ k q, plan.placed[k]? = some q → q.offset = offset k
  labels : ∀ (label : Label) (i : Nat),
    plan.labels[label]? = some i ↔ body[i]? = some (.mark label)
  near : ∀ k n, offset k ≤ offset (k + n) ∧ offset (k + n) ≤ offset k + 5 * n
  small : ∀ k, offset k ≤ maxSize

/-- Instructions that were laid out and are not too large. -/
theorem Plan.lays_of_place {xs : List (Instruction × UInt16)} {plan : Plan}
    (h : place [] ∅ 0 0 xs = .ok plan) (hle : plan.size ≤ maxSize) :
    plan.Lays (xs.map Prod.fst) (offsetOf xs) := by
  have hplaced := placed_of_place h
  have hsize := (place_eq_ok h).2
  rw [List.reverse_nil, List.nil_append] at hplaced
  rw [Nat.zero_add] at hsize
  refine ⟨?_, fun k q hk => ?_, fun label i => ?_, offsetOf_add_le xs, fun k => ?_⟩
  · refine List.ext_getElem? fun k => ?_
    rw [List.getElem?_map, List.getElem?_map, hplaced, getElem?_placedFrom]
    cases xs[k]? <;> rfl
  · rw [hplaced, getElem?_placedFrom, Option.map_eq_some_iff] at hk
    obtain ⟨x, -, rfl⟩ := hk
    exact Nat.zero_add _
  · have hempty : (∅ : LabelTable)[label]? = none := by simp
    rw [labels_of_place h, hempty]
    simp [BoundAt]
  · have := offsetOf_le xs k
    omega

/-- A plan lays out its body. -/
theorem Plan.lays_of_plan {body : List Instruction} {operands : List UInt16} {plan : Plan}
    (hlength : operands.length = body.length)
    (h : Assembly.plan (body.zip operands) = .ok plan) :
    plan.Lays body (offsetOf (body.zip operands)) := by
  unfold Assembly.plan at h
  obtain ⟨plan', hplace, h⟩ := bind_eq_ok.1 h
  split at h
  · next hle =>
    obtain ⟨-, -, h⟩ := bind_eq_ok.1 h
    obtain rfl := Except.ok.inj h
    have hlays := Plan.lays_of_place hplace hle
    rwa [List.map_fst_zip (Nat.le_of_eq hlength.symm)] at hlays
  · cases h

/-- A body whose marks differ and whose jumps have marks is laid out, or is too large. -/
theorem plan_cases {body : List Instruction} {operands : List UInt16}
    (hlength : operands.length = body.length) (hnodup : (boundLabels body).Nodup)
    (hjumps : ∀ op label, .jump op label ∈ body → .mark label ∈ body) :
    (∃ plan offset, Assembly.plan (body.zip operands) = .ok plan ∧ plan.Lays body offset) ∨
      ∃ n, Assembly.plan (body.zip operands) = .error (.codeTooLarge n) := by
  have hfst : (body.zip operands).map Prod.fst = body := List.map_fst_zip (Nat.le_of_eq hlength.symm)
  generalize hxs : body.zip operands = xs at hfst ⊢
  rw [← hfst] at hnodup
  obtain ⟨plan, hplace⟩ := @place_of_nodup xs [] ∅ 0 0 hnodup (by simp)
  unfold Assembly.plan
  rw [hplace]
  simp only [bind, Except.bind]
  by_cases hle : plan.size ≤ maxSize
  · have hlays := Plan.lays_of_place hplace hle
    rw [hfst] at hlays
    refine .inl ⟨plan, offsetOf xs, ?_, hlays⟩
    have hchecks : xs.forM (fun x => checkJump plan.labels x.1) = .ok ⟨⟩ := by
      refine forM_eq_ok.2 fun x hx => ?_
      obtain ⟨i, operand⟩ := x
      have hi : i ∈ body := hfst ▸ List.mem_map_of_mem (f := Prod.fst) hx
      cases i with
      | jump op label =>
        obtain ⟨k, hk⟩ := List.mem_iff_getElem?.1 (hjumps op label hi)
        exact if_pos (Std.TreeMap.mem_iff_isSome_getElem?.2 ((hlays.labels label k).2 hk ▸ rfl))
      | _ => rfl
    rw [if_pos hle]
    change (xs.forM (fun x => checkJump plan.labels x.1) >>= fun _ => _) = _
    rw [hchecks]
    rfl
  · exact .inr ⟨plan.size, by rw [if_neg hle]; rfl⟩

variable {plan : Plan} {body : List Instruction} {offset : Nat → Nat} {thisClass : String}

theorem Plan.Lays.toList (h : plan.Lays body offset) :
    (plan.layout thisClass).instructions.toList = body := h.instructions

theorem Plan.Lays.getElem? (h : plan.Lays body offset) (k : Nat) :
    (plan.layout thisClass).instructions[k]? = body[k]? := by
  rw [← Array.getElem?_toList, h.toList]

theorem Plan.Lays.size (h : plan.Lays body offset) :
    (plan.layout thisClass).instructions.size = body.length := by
  rw [← Array.length_toList, h.toList]

theorem Plan.Lays.offset_eq (h : plan.Lays body offset) {k : Nat} (hk : k < body.length) :
    (plan.layout thisClass).offsets[k]? = some (offset k) := by
  have hlength : plan.placed.length = body.length := by
    rw [← h.instructions, List.length_map]
  have hget := List.getElem?_eq_getElem (hlength.symm ▸ hk)
  change ((plan.placed.map Placed.offset).toArray)[k]? = _
  rw [List.getElem?_toArray, List.getElem?_map, hget]
  exact congrArg some (h.offsets k _ hget)

end Assembly

/-! ## Assembled bodies -/

/-- How a body was assembled for a class: what each step answered, from the pool `p` to the pool
`p'`. -/
structure MethodDecl.Assembled (m : MethodDecl) (thisClass : String) (withFrames : Bool) (p : Pool)
    (b : CodeBody) (p' : Pool) where
  type : MethodDescriptor
  operands : List UInt16
  /-- The pool that interning the operands left. -/
  interned : Pool
  plan : Assembly.Plan
  analysis : Analysis
  /-- The bytes of each instruction. -/
  parts : List Bytes
  /-- The offsets and frames that the stack map is written for. -/
  landings : List (Nat × Frame)
  type_eq : m.type = .ok type
  operands_eq : Succeeds (m.body.mapM Instruction.internOperand) p operands interned
  plan_eq : Assembly.plan (m.body.zip operands) = .ok plan
  analysis_eq : (plan.layout thisClass).analyze
    (Frame.entry thisClass m.name (Access.isStatic m.access) type) = .ok analysis
  parts_eq : plan.placed.mapM (m := Except EmissionError) (Assembly.encode fun label =>
    (plan.labels[label]?).bind ((plan.layout thisClass).offsets[·]?)) = .ok parts
  landings_eq : (if withFrames then Assembly.landingFrames plan.labels (plan.layout thisClass) analysis
    else pure []) = .ok landings
  code_eq : b.code = parts.flatten
  stackMap_eq : match b.stackMap with
    | none => landings = [] ∧ p' = interned
    | some table => landings ≠ [] ∧ Succeeds (StackMap.write
        (Frame.entry thisClass m.name (Access.isStatic m.access) type) landings) interned table p'

namespace MethodDecl

variable {m : MethodDecl} {thisClass : String} {withFrames : Bool} {p p' : Pool} {b : CodeBody}

/-- What an assembly that succeeded went through. -/
theorem nonempty_assembled (h : Succeeds (m.assemble thisClass withFrames) p b p') :
    Nonempty (m.Assembled thisClass withFrames p b p') := by
  unfold assemble at h
  obtain ⟨type, p₁, hs, h⟩ := succeeds_bind.1 h
  obtain ⟨hd, rfl⟩ := succeeds_lift.1 hs
  obtain ⟨operands, p₁, hoperands, h⟩ := succeeds_bind.1 h
  obtain ⟨plan, p₂, hs, h⟩ := succeeds_bind.1 h
  obtain ⟨hplan, rfl⟩ := succeeds_lift.1 hs
  obtain ⟨analysis, p₂, hs, h⟩ := succeeds_bind.1 h
  obtain ⟨hanalysis, rfl⟩ := succeeds_lift.1 hs
  obtain ⟨parts, p₂, hs, h⟩ := succeeds_bind.1 h
  obtain ⟨hparts, rfl⟩ := succeeds_lift.1 hs
  dsimp only at h
  obtain ⟨landings, hlandings, h⟩ : ∃ landings,
      (if withFrames then Assembly.landingFrames plan.labels (plan.layout thisClass) analysis
        else pure []) = .ok landings ∧
      Succeeds (if landings.isEmpty then
          pure none >>= fun table => pure ⟨analysis.maxStack, analysis.maxLocals, parts.flatten, table⟩
        else some <$> StackMap.write
            (Frame.entry thisClass m.name (Access.isStatic m.access) type) landings >>= fun table =>
          pure ⟨analysis.maxStack, analysis.maxLocals, parts.flatten, table⟩) p₁ b p' := by
    split at h
    · next hframes =>
      obtain ⟨landings, p₂, hs, h⟩ := succeeds_bind.1 h
      obtain ⟨hlandings, rfl⟩ := succeeds_lift.1 hs
      exact ⟨landings, (if_pos hframes).trans hlandings, h⟩
    · next hframes => exact ⟨[], if_neg hframes, h⟩
  split at h
  · next hempty =>
    obtain ⟨rfl, rfl⟩ := succeeds_pure.1 h
    exact ⟨⟨type, operands, p₁, plan, analysis, parts, landings, hd, hoperands, hplan, hanalysis,
      hparts, hlandings, rfl, List.isEmpty_iff.1 hempty, rfl⟩⟩
  · next hne =>
    rw [map_eq_pure_bind] at h
    obtain ⟨table, p₂, htable, h⟩ := succeeds_bind.1 h
    obtain ⟨table', p₃, htable', hwrite⟩ := succeeds_bind.1 htable
    obtain ⟨rfl, rfl⟩ := succeeds_pure.1 hwrite
    obtain ⟨rfl, rfl⟩ := succeeds_pure.1 h
    exact ⟨⟨type, operands, p₁, plan, analysis, parts, landings, hd, hoperands, hplan, hanalysis,
      hparts, hlandings, rfl, fun e => hne (List.isEmpty_iff.2 e), htable'⟩⟩

namespace Assembled

variable (a : m.Assembled thisClass withFrames p b p')

/-- The frame on entry to the method. -/
def entry : Frame := Frame.entry thisClass m.name (Access.isStatic m.access) a.type

/-- The body as it was laid out. -/
def layout : Layout := a.plan.layout thisClass

/-- Where the bytes of the instruction at a place start in the code. -/
def offset (k : Nat) : Nat := (a.parts.take k).flatten.length

theorem offset_eq (k : Nat) : a.offset k = Assembly.offsetOf (m.body.zip a.operands) k := by
  have htake : (a.plan.placed.take k).mapM (m := Except EmissionError)
      (Assembly.encode fun label => (a.plan.labels[label]?).bind (a.layout.offsets[·]?)) =
        .ok (a.parts.take k) :=
    mapM_eq_ok.2 (List.forall₂_take k (mapM_eq_ok.1 a.parts_eq))
  rw [offset, Assembly.length_parts htake, List.map_take, (Assembly.plan_eq_ok a.plan_eq).1]
  rfl

/-- The instructions stand where their bytes are. -/
theorem lays : a.plan.Lays m.body a.offset := by
  have hlays := Assembly.Plan.lays_of_plan (Interning.length_of_mapM a.operands_eq) a.plan_eq
  rwa [← funext a.offset_eq] at hlays

/-- An instruction takes the bytes that its form has with some operand. -/
theorem offset_succ {i : Nat} {ins : Instruction} (hins : m.body[i]? = some ins) :
    ∃ operand, a.offset (i + 1) = a.offset i + ins.encodedLength operand := by
  have hlength := Interning.length_of_mapM a.operands_eq
  have hi := (List.getElem?_eq_some_iff.1 hins).1
  obtain ⟨operand, hoperand⟩ : ∃ operand, a.operands[i]? = some operand :=
    ⟨_, List.getElem?_eq_getElem (hlength ▸ hi)⟩
  have hzip : (m.body.zip a.operands)[i]? = some (ins, operand) :=
    List.getElem?_zip_eq_some.2 ⟨hins, hoperand⟩
  refine ⟨operand, ?_⟩
  rw [offset_eq, offset_eq]
  exact Assembly.offsetOf_succ hzip

/-- An instruction stands before all that follow it. -/
theorem offset_lt {i j : Nat} {ins : Instruction} (hins : m.body[i]? = some ins)
    (hmark : ins.isMark = false) (hij : i < j) : a.offset i < a.offset j := by
  obtain ⟨operand, hnext⟩ := a.offset_succ hins
  have hpos := Instruction.encodedLength_pos hmark operand
  have hmono := (a.lays.near (i + 1) (j - (i + 1))).1
  rw [Nat.add_sub_cancel' hij] at hmono
  omega

theorem getD_offsets {i : Nat} {ins : Instruction} (hins : m.body[i]? = some ins) :
    a.layout.offsets.getD i 0 = a.offset i := by
  have hoffset : a.layout.offsets[i]? = some (a.offset i) :=
    a.lays.offset_eq (List.getElem?_eq_some_iff.1 hins).1
  rw [Array.getD_eq_getD_getElem?, hoffset]
  rfl

/-- Where an instruction was placed. -/
theorem exists_placed {i : Nat} {ins : Instruction} (hins : m.body[i]? = some ins) :
    ∃ q, a.plan.placed[i]? = some q ∧ q.instruction = ins ∧ q.offset = a.offset i := by
  rw [← a.lays.instructions, List.getElem?_map, Option.map_eq_some_iff] at hins
  obtain ⟨q, hq, hins⟩ := hins
  exact ⟨q, hq, hins, a.lays.offsets i q hq⟩

end Assembled

end MethodDecl

end EntityLoom
