import EntityLoom.Proofs.Code.Layout
import EntityLoom.Proofs.Code.Typing
import EntityLoom.Proofs.Frame.Typing

/-!
# Typed bodies are emitted

Assembling a typed body whose marks differ succeeds, or meets one of the limits of class files: the
constant pool is full, or the body is too large (`MethodDecl.WellTyped.emitted`).

The frames of a typed body are a typing of its layout, wherever its instructions are placed, and
control reaches all of them; so the analysis records a frame for each.  Its jumps reach their marks,
since no jump of a typed body skips more than `jumpReach` instructions and no instruction takes
more than five bytes.
-/

namespace EntityLoom

/-- Items that can each be made can be made one after the other. -/
theorem mapM_ok_of_forall {ε α β : Type} {g : α → Except ε β} {xs : List α}
    (h : ∀ x ∈ xs, ∃ y, g x = .ok y) : ∃ ys, xs.mapM g = .ok ys := by
  induction xs with
  | nil => exact ⟨[], rfl⟩
  | cons x xs ih =>
    obtain ⟨⟨y, hy⟩, hxs⟩ := List.forall_mem_cons.1 h
    obtain ⟨ys, hys⟩ := ih hxs
    exact ⟨y :: ys, mapM_eq_ok.2 (.cons hy (mapM_eq_ok.1 hys))⟩

/-! ## Limits -/

/-- Whether a fault is one of size: there is no room for the constants or for the code. -/
def EmissionError.IsLimit : EmissionError → Prop
  | constantPoolOverflow | codeTooLarge _ => True
  | _ => False

namespace Interning

variable {α β : Type} {p : Pool}

/-- A step that fails at a limit only, if it fails. -/
def LimitedAt (step : Interning α) (p : Pool) : Prop :=
  ∀ e p', step.run.run p = (.error e, p') → e.IsLimit

theorem LimitedAt.pure (a : α) : LimitedAt (pure a) p := by
  intro e p' h
  cases h

theorem LimitedAt.bind {step : Interning α} {next : α → Interning β} (h : LimitedAt step p)
    (hnext : ∀ a p', Succeeds step p a p' → LimitedAt (next a) p') :
    LimitedAt (step >>= next) p := by
  intro e p'' hrun
  rw [ExceptT.run_bind, StateT.run_bind] at hrun
  cases hstep : step.run.run p with
  | mk result p' =>
    rw [hstep] at hrun
    cases result with
    | ok a => exact hnext a p' hstep e p'' hrun
    | error e' =>
      obtain ⟨he, -⟩ := Prod.mk.inj hrun
      exact Except.error.inj he ▸ h e' p' hstep

theorem LimitedAt.map {step : Interning α} {g : α → β} (h : LimitedAt step p) :
    LimitedAt (g <$> step) p := by
  rw [map_eq_pure_bind]
  exact h.bind fun a p' _ => .pure (g a)

/-- A step that only computes, and what follows it. -/
theorem LimitedAt.lift_bind {x : Except EmissionError α} {next : α → Interning β}
    (h : ∀ e, x = .error e → e.IsLimit) (hnext : ∀ a, x = .ok a → LimitedAt (next a) p) :
    LimitedAt (liftM x >>= next) p := by
  refine LimitedAt.bind (fun e p' hrun => h e (Prod.mk.inj hrun).1) fun a p' ha => ?_
  obtain ⟨hx, rfl⟩ := succeeds_lift.1 ha
  exact hnext a hx

theorem LimitedAt.mapM {step : α → Interning β} (h : ∀ x p, LimitedAt (step x) p) (xs : List α)
    (p : Pool) : LimitedAt (xs.mapM step) p := by
  induction xs generalizing p with
  | nil =>
    rw [List.mapM_nil]
    exact .pure []
  | cons x xs ih =>
    rw [List.mapM_cons]
    exact (h x p).bind fun y p₁ _ => (ih p₁).bind fun ys p₂ _ => .pure (y :: ys)

theorem constant_limited (c : Constant) (p : Pool) : LimitedAt (constant c) p := by
  intro e p' hrun
  unfold constant at hrun
  simp only [ExceptT.run, StateT.run] at hrun
  split at hrun
  · cases hrun
  · split at hrun
    · cases hrun
      trivial
    · cases hrun

theorem classRef_limited (name : String) (p : Pool) : LimitedAt (classRef name) p :=
  (constant_limited _ p).bind fun _ p' _ => constant_limited _ p'

theorem nameAndType_limited (name descriptor : String) (p : Pool) :
    LimitedAt (nameAndType name descriptor) p :=
  (constant_limited _ p).bind fun _ p₁ _ =>
    (constant_limited _ p₁).bind fun _ p₂ _ => constant_limited _ p₂

theorem internOperand_limited (i : Instruction) (p : Pool) : LimitedAt i.internOperand p := by
  unfold Instruction.internOperand
  split
  · exact (classRef_limited _ p).bind fun _ p₁ _ =>
      (nameAndType_limited _ _ p₁).bind fun _ p₂ _ => constant_limited _ p₂
  · exact (classRef_limited _ p).bind fun _ p₁ _ =>
      (nameAndType_limited _ _ p₁).bind fun _ p₂ _ => constant_limited _ p₂
  · exact classRef_limited _ p
  · exact (constant_limited _ p).bind fun _ p' _ => constant_limited _ p'
  · exact .pure 0

end Interning

open Interning (LimitedAt)

theorem VerificationType.write_limited (v : VerificationType) (p : Pool) :
    LimitedAt v.write p := by
  unfold write
  split
  case h_8 => exact (Interning.classRef_limited _ p).bind fun _ _ _ => .pure _
  all_goals exact .pure _

namespace StackMap

theorem writeTypes_limited (vs : List VerificationType) (p : Pool) :
    LimitedAt (writeTypes vs) p :=
  (LimitedAt.mapM VerificationType.write_limited vs p).bind fun _ _ _ => .pure _

theorem writeEntry_limited (distance : Nat) (sameLocals : Bool)
    (locals stack : List VerificationType) (p : Pool) :
    LimitedAt (writeEntry distance sameLocals locals stack) p := by
  unfold writeEntry
  dsimp only
  split
  · exact .pure _
  · next v => exact (v.write_limited p).bind fun _ _ _ => .pure _
  · exact (writeTypes_limited _ p).bind fun _ p₁ _ =>
      (writeTypes_limited _ p₁).bind fun _ _ _ => .pure _

theorem writeEntries_limited (acc : List Bytes) (previous : List VerificationType) (next : Nat)
    (targets : List (Nat × Frame)) (p : Pool) :
    LimitedAt (writeEntries acc previous next targets) p := by
  induction targets generalizing acc previous next p with
  | nil => exact .pure _
  | cons t rest ih =>
    obtain ⟨offset, f⟩ := t
    unfold writeEntries
    dsimp only
    split
    · exact (writeEntry_limited _ _ _ _ p).bind fun entry p' _ => ih _ _ _ p'
    · intro e p' hrun
      cases hrun
      trivial

theorem write_limited (entry : Frame) (targets : List (Nat × Frame)) (p : Pool) :
    LimitedAt (write entry targets) p :=
  (writeEntries_limited _ _ _ targets p).bind fun _ _ _ => .pure _

end StackMap

/-! ## The frames of a typed body -/

/-- A frame for each instruction of a body whose first one is at place `first`: a mark has the frame
of its label, control goes on below the frames, and the marks of jumps are near. -/
def FramesAt (thisClass : String) (labels : Label → Frame) (offset : Nat → UInt16) (first : Nat)
    (body : List Instruction) (frames : Nat → Frame) : Prop :=
  ∀ i ins, body[i]? = some ins →
    (∀ label, ins = .mark label → frames i = labels label) ∧
    ∃ f', (frames i).after thisClass (first + i) (offset i).toNat ins = .ok f' ∧
      (ins.fallsThrough = true → i + 1 < body.length ∧ f'.Below (frames (i + 1))) ∧
      ∀ label ∈ ins.target?, f'.Below (labels label) ∧
        ∃ n, n < jumpReach ∧ body[i + 1 + n]? = some (.mark label)

section Typed

variable {thisClass : String} {labels : Label → Frame} {aimed : List Label} {f? : Option Frame}
  {first : Nat} {offset : Nat → UInt16} {rest body : List Instruction}

theorem FramesAt.cons {i : Instruction} {f f' : Frame} {frames : Nat → Frame}
    (h : FramesAt thisClass labels (fun k => offset (k + 1)) (first + 1) rest frames)
    (hmark : ∀ label, i = .mark label → f = labels label)
    (hafter : f.after thisClass first (offset 0).toNat i = .ok f')
    (hfalls : i.fallsThrough = true → rest ≠ [] ∧ f'.Below (frames 0))
    (htarget : ∀ label ∈ i.target?, f'.Below (labels label) ∧ .mark label ∈ rest.take jumpReach) :
    FramesAt thisClass labels offset first (i :: rest) fun
      | 0 => f
      | k + 1 => frames k := by
  intro k ins hk
  cases k with
  | zero =>
    obtain rfl := Option.some.inj hk
    refine ⟨hmark, f', hafter, fun hf => ⟨?_, (hfalls hf).2⟩, fun label hl => ⟨(htarget label hl).1, ?_⟩⟩
    · have := List.length_pos_iff.2 (hfalls hf).1
      rw [List.length_cons]
      omega
    · obtain ⟨n, hn, hget⟩ := List.mem_iff_getElem.1 (htarget label hl).2
      rw [List.length_take] at hn
      rw [List.getElem_take] at hget
      refine ⟨n, by omega, ?_⟩
      rw [Nat.zero_add, Nat.add_comm 1 n, List.getElem?_cons_succ,
        List.getElem?_eq_getElem (by omega), hget]
  | succ k =>
    obtain ⟨hm, g', hg', hf, ht⟩ := h k ins hk
    refine ⟨hm, g', ?_, fun hfa => ⟨?_, (hf hfa).2⟩, fun label hl => ⟨(ht label hl).1, ?_⟩⟩
    · rw [Nat.add_right_comm] at hg'
      exact hg'
    · have := (hf hfa).1
      rw [List.length_cons]
      omega
    · obtain ⟨n, hn, hget⟩ := (ht label hl).2
      refine ⟨n, hn, ?_⟩
      rw [Nat.add_right_comm, List.getElem?_cons_succ]
      exact hget

/-- A typed body has frames, wherever it is placed. -/
theorem TypedFrom.frames (h : TypedFrom thisClass labels aimed f? body) (first : Nat)
    (offset : Nat → UInt16) :
    ∃ frames, FramesAt thisClass labels offset first body frames ∧
      ∀ f ∈ f?, body ≠ [] ∧ f.Below (frames 0) := by
  induction body generalizing aimed f? first offset with
  | nil =>
    rw [typedFrom_nil] at h
    subst h
    refine ⟨fun _ => default, fun i ins hi => ?_, fun f hf => ?_⟩
    · cases hi
    · cases hf
  | cons i rest ih =>
    by_cases hmark : ∃ label, i = .mark label
    · obtain ⟨label, rfl⟩ := hmark
      rw [TypedFrom] at h
      obtain ⟨-, hbelow, hrest⟩ := h
      obtain ⟨frames, hframes, hstart⟩ := ih hrest (first + 1) fun k => offset (k + 1)
      refine ⟨_, hframes.cons (f := labels label) ?_ rfl (fun _ => hstart _ rfl) ?_, fun f hf =>
        ⟨List.cons_ne_nil _ _, hbelow f hf⟩⟩
      · intro l hl
        cases hl
        rfl
      · intro l hl
        cases hl
    · rw [TypedFrom] at h
      · obtain ⟨f, rfl, hinstr⟩ := h
        obtain ⟨f', hafter, htarget, hrest⟩ := hinstr first (offset 0)
        obtain ⟨frames, hframes, hstart⟩ := ih hrest (first + 1) fun k => offset (k + 1)
        refine ⟨_, hframes.cons (f := f) ?_ hafter (fun hf => ?_) htarget, fun g hg => ?_⟩
        · exact fun l hl => absurd ⟨l, hl⟩ hmark
        · rw [if_pos hf] at hstart
          exact hstart f' rfl
        · obtain rfl := Option.some.inj hg
          exact ⟨List.cons_ne_nil _ _, Frame.Below.refl _⟩
      · exact fun l hl => hmark ⟨l, hl⟩

theorem getElem?_of_split {layout : Layout} {visited : List Instruction} {i : Instruction}
    (h : layout.instructions.toList = visited ++ i :: rest) :
    layout.instructions[visited.length]? = some i := by
  rw [← Array.getElem?_toList, h, List.getElem?_append_right (Nat.le_refl _), Nat.sub_self]
  rfl

/-- Control reaches every instruction of a typed body: from the instruction before it, or, where
control does not come from there, from a jump to its mark. -/
theorem TypedFrom.reached {layout : Layout} {visited : List Instruction}
    (h : TypedFrom thisClass labels aimed f? body)
    (hbody : layout.instructions.toList = visited ++ body)
    (hbound : ∀ k label, layout.instructions[k]? = some (.mark label) →
      layout.target? label = some k)
    (hstart : f? ≠ none → ∃ path, layout.Path path visited.length)
    (haimed : ∀ label ∈ aimed, ∃ j op path, layout.instructions[j]? = some (.jump op label) ∧
      layout.Path path j) :
    ∀ k, visited.length ≤ k → k < layout.instructions.size → ∃ path, layout.Path path k := by
  induction body generalizing aimed f? visited with
  | nil =>
    intro k hle hlt
    rw [← Array.length_toList, hbody, List.append_nil] at hlt
    omega
  | cons i rest ih =>
    have hi := getElem?_of_split hbody
    obtain ⟨path, hpath⟩ : ∃ path, layout.Path path visited.length := by
      cases f? with
      | some f => exact hstart (by simp)
      | none =>
        -- Control does not fall into the first instruction, so it is a mark that was aimed at.
        by_cases hmark : ∃ label, i = .mark label
        · obtain ⟨label, rfl⟩ := hmark
          rw [typedFrom_mark_none] at h
          obtain ⟨j, op, path, hj, hpath⟩ := haimed label h.1
          exact ⟨_, hpath.step (.jump hj (hbound _ _ hi))⟩
        · rw [TypedFrom] at h
          · obtain ⟨f, hf, -⟩ := h
            cases hf
          · exact fun l hl => hmark ⟨l, hl⟩
    obtain ⟨aimed', f?', hrest, haimed', hstart'⟩ :
        ∃ aimed' f?', TypedFrom thisClass labels aimed' f?' rest ∧
          (∀ label ∈ aimed', label ∈ aimed ∨ i.target? = some label) ∧
          (f?' ≠ none → i.fallsThrough = true) := by
      by_cases hmark : ∃ label, i = .mark label
      · obtain ⟨label, rfl⟩ := hmark
        rw [TypedFrom] at h
        exact ⟨aimed, _, h.2.2, fun l hl => .inl hl, fun _ => rfl⟩
      · rw [TypedFrom] at h
        · obtain ⟨f, -, hinstr⟩ := h
          obtain ⟨f', -, -, hrest⟩ := hinstr 0 0
          refine ⟨_, _, hrest, fun l hl => ?_, fun hne => ?_⟩
          · rcases List.mem_append.1 hl with hl | hl
            · exact .inr (Option.mem_toList.1 hl)
            · exact .inl hl
          · by_contra hfalls
            exact hne (if_neg hfalls)
        · exact fun l hl => hmark ⟨l, hl⟩
    have hbody' : layout.instructions.toList = (visited ++ [i]) ++ rest := by
      rw [hbody, List.append_assoc, List.singleton_append]
    have hnext := ih hrest hbody' (fun hne => ?_) (fun label hl => ?_)
    · intro k hle hlt
      rcases Nat.eq_or_lt_of_le hle with rfl | hlt'
      · exact ⟨path, hpath⟩
      · exact hnext k (by rw [List.length_append, List.length_singleton]; exact hlt') hlt
    · rw [List.length_append, List.length_singleton]
      exact ⟨_, hpath.step (.next hi (hstart' hne))⟩
    · rcases haimed' label hl with hl | htarget
      · exact haimed label hl
      · cases i <;> cases htarget
        exact ⟨_, _, path, hi, hpath⟩

end Typed

/-- The descriptor of a call that was executed is one. -/
theorem Frame.methodType_of_after {thisClass : String} {index offset : Nat} {op : Opcode}
    {r : MemberRef} {f f' : Frame} (h : f.after thisClass index offset (.invoke op r) = .ok f') :
    ∃ d, r.methodType = .ok d := by
  obtain ⟨u, hu⟩ := after_eq_ok.1 h
  obtain ⟨d, g, hd, -⟩ := run_bind_eq_ok.1 hu
  exact ⟨d, (run_lift_eq_ok.1 hd).1⟩

/-- Where control goes from an instruction whose label is bound. -/
theorem Worklist.successors_of_bound {layout : Layout} {i : Nat} {ins : Instruction}
    (h : ∀ label ∈ ins.target?, ∃ t, layout.target? label = some t) :
    Worklist.successors layout i ins =
      .ok ((if ins.fallsThrough then [i + 1] else []) ++
        (ins.target?.bind layout.target?).toList) := by
  unfold Worklist.successors
  cases ins with
  | jump op label =>
    obtain ⟨t, ht⟩ := h label rfl
    dsimp only
    rw [ht]
    simp [Instruction.target?, ht]
  | _ => simp [Instruction.target?]

namespace FramesAt

open Assembly

variable {thisClass : String} {labels : Label → Frame} {offset : Nat → Nat}
  {body : List Instruction} {frames : Nat → Frame} {plan : Plan}

/-- The marks of jumps are near and bound in a layout. -/
theorem target {k : Nat} {op : Opcode} {label : Label}
    (h : FramesAt thisClass labels (fun i => UInt16.ofNat (offset i)) 0 body frames)
    (hk : body[k]? = some (.jump op label)) :
    ∃ n, n < jumpReach ∧ body[k + 1 + n]? = some (.mark label) := by
  obtain ⟨-, f', -, -, htarget⟩ := h k _ hk
  exact (htarget label rfl).2

/-- The frames of a typed body are a typing of its layout. -/
theorem typing (h : FramesAt thisClass labels (fun i => UInt16.ofNat (offset i)) 0 body frames)
    (hlays : plan.Lays body offset) {entry : Frame} (hne : body ≠ [])
    (hentry : entry.Below (frames 0)) : (plan.layout thisClass).Typing entry frames := by
  refine ⟨hlays.size ▸ List.length_pos_iff.2 hne, hentry, fun i ins hi => ?_⟩
  rw [hlays.getElem?] at hi
  have hlt : i < body.length := (List.getElem?_eq_some_iff.1 hi).1
  obtain ⟨-, f', hafter, hfalls, htarget⟩ := h i ins hi
  have hoffset : (UInt16.ofNat (offset i)).toNat = (plan.layout thisClass).offsets.getD i 0 := by
    have hsmall := hlays.small i
    unfold maxSize at hsmall
    rw [UInt16.toNat_ofNat', Nat.mod_eq_of_lt (by omega), Array.getD_eq_getD_getElem?,
      hlays.offset_eq hlt]
    rfl
  have hbound : ∀ label ∈ ins.target?, ∃ t, (plan.layout thisClass).target? label = some t ∧
      body[t]? = some (.mark label) ∧ f'.Below (labels label) := by
    intro label hl
    obtain ⟨hbelow, n, -, hn⟩ := htarget label hl
    exact ⟨_, (hlays.labels label _).2 hn, hn, hbelow⟩
  rw [Nat.zero_add, hoffset] at hafter
  refine ⟨f', _, hafter, Worklist.successors_of_bound fun label hl => ?_, fun t ht => ?_⟩
  · obtain ⟨t, ht, -⟩ := hbound label hl
    exact ⟨t, ht⟩
  rw [hlays.size]
  rcases List.mem_append.1 ht with ht | ht
  · split at ht
    · next hf =>
      obtain rfl := List.mem_singleton.1 ht
      exact hfalls hf
    · cases ht
  · obtain ⟨label, hl, htl⟩ := Option.bind_eq_some_iff.1 (Option.mem_toList.1 ht)
    obtain ⟨t', ht', hmark, hbelow⟩ := hbound label hl
    obtain rfl := Option.some.inj (ht'.symm.trans htl)
    obtain ⟨hframe, -⟩ := h t' _ hmark
    exact ⟨(List.getElem?_eq_some_iff.1 hmark).1, hframe label rfl ▸ hbelow⟩

/-- The instructions of a typed body can be encoded: descriptors are read, and no jump goes too
far. -/
theorem encodes (h : FramesAt thisClass labels (fun i => UInt16.ofNat (offset i)) 0 body frames)
    (hlays : plan.Lays body offset) {k : Nat} {q : Placed} (hq : plan.placed[k]? = some q) :
    ∃ bytes, encode (fun label => (plan.labels[label]?).bind
      ((plan.layout thisClass).offsets[·]?)) q = .ok bytes := by
  have hk : body[k]? = some q.instruction := by
    rw [← hlays.instructions, List.getElem?_map, hq]
    rfl
  have hoffset := hlays.offsets k q hq
  unfold encode
  split
  · exact ⟨_, rfl⟩
  · exact ⟨_, rfl⟩
  · split
    · exact ⟨_, rfl⟩
    · split <;> exact ⟨_, rfl⟩
  · next op r hins =>
    split
    · rw [hins] at hk
      obtain ⟨-, f', hafter, -⟩ := h k _ hk
      obtain ⟨d, hd⟩ := Frame.methodType_of_after hafter
      rw [hd]
      exact ⟨_, rfl⟩
    · exact ⟨_, rfl⟩
  · exact ⟨_, rfl⟩
  · exact ⟨_, rfl⟩
  · split <;> exact ⟨_, rfl⟩
  · next op label hins =>
    rw [hins] at hk
    obtain ⟨n, hn, hmark⟩ := h.target hk
    have hlt : k + 1 + n < body.length := (List.getElem?_eq_some_iff.1 hmark).1
    have hnear := hlays.near k (1 + n)
    rw [← Nat.add_assoc] at hnear
    unfold jumpReach at hn
    dsimp only
    rw [(hlays.labels label _).2 hmark, Option.bind_some, hlays.offset_eq hlt]
    dsimp only
    rw [if_pos (by omega)]
    exact ⟨_, rfl⟩

end FramesAt

/-! ## Jump targets -/

namespace Assembly

/-- A mark in a body names an instruction of it. -/
theorem landing_lt {instructions : Array Instruction} {i : Nat} (h : i < instructions.size) :
    landing instructions i < instructions.size := by
  fun_induction landing instructions i with
  | case1 i hi ih => exact ih hi.2
  | case2 i hi => exact h

variable {plan : Plan} {body : List Instruction} {offset : Nat → Nat} {thisClass : String}

/-- Where the analysis recorded a frame for each instruction, all jump targets have one. -/
theorem Plan.Lays.landingFrames (h : plan.Lays body offset) {analysis : Analysis}
    (hframes : ∀ i < body.length, ∃ g, (analysis.frames[i]?).join = some g) :
    ∃ targets, landingFrames plan.labels (plan.layout thisClass) analysis = .ok targets := by
  unfold Assembly.landingFrames
  generalize hlandings : (plan.layout thisClass).instructions.toList.filterMap
    (jumpLanding? plan.labels (plan.layout thisClass).instructions) = landings
  have hframe : ∀ i ∈ landings, ∃ t, landingFrame (plan.layout thisClass) analysis i = .ok t := by
    intro i hi
    rw [← hlandings] at hi
    obtain ⟨ins, -, hins⟩ := List.mem_filterMap.1 hi
    cases ins with
    | jump op label =>
      obtain ⟨t, ht, rfl⟩ := Option.map_eq_some_iff.1 hins
      have hlt : t < body.length := (List.getElem?_eq_some_iff.1 ((h.labels label t).1 ht)).1
      have hsize : (plan.layout thisClass).instructions.size = body.length := h.size
      rw [← hsize] at hlt hframes
      obtain ⟨g, hg⟩ := hframes _ (landing_lt hlt)
      unfold landingFrame
      rw [hg]
      exact ⟨_, rfl⟩
    | _ => cases hins
  have hchecks : (landings.forM fun i => do
      let _ ← landingFrame (plan.layout thisClass) analysis i) = .ok () := by
    refine forM_eq_ok.2 fun i hi => ?_
    obtain ⟨t, ht⟩ := hframe i hi
    rw [ht]
    rfl
  have hsorted : ∀ i ∈ (sortBy (· ≤ ·) landings).eraseReps, ∃ t,
      landingFrame (plan.layout thisClass) analysis i = .ok t := fun i hi =>
    hframe i (mem_sortBy.1 (mem_eraseReps.1 hi))
  obtain ⟨targets, htargets⟩ := mapM_ok_of_forall hsorted
  exact ⟨targets, bind_eq_ok.2 ⟨(), hchecks, htargets⟩⟩

end Assembly

/-! ## Emission -/

namespace TypedFrom

open Assembly

variable {thisClass : String} {labels : Label → Frame} {entry : Frame} {body : List Instruction}
  {plan : Plan} {offset : Nat → Nat}

/-- The jumps of a typed body have marks. -/
theorem mark_mem (h : TypedFrom thisClass labels [] (some entry) body) {op : Opcode}
    {label : Label} (hjump : .jump op label ∈ body) : .mark label ∈ body := by
  obtain ⟨k, hk⟩ := List.mem_iff_getElem?.1 hjump
  -- Where the instructions are placed does not matter.
  let offset : Nat → Nat := fun _ => 0
  obtain ⟨frames, hat, -⟩ := h.frames 0 fun k => UInt16.ofNat (offset k)
  obtain ⟨n, -, hn⟩ := hat.target hk
  exact List.mem_of_getElem? hn

/-- A typed body passes the analysis wherever it is placed, or is too large for it. -/
theorem analyze (h : TypedFrom thisClass labels [] (some entry) body)
    (hlays : plan.Lays body offset) (hentry : Frame.Paired entry.locals) :
    (∃ a, (plan.layout thisClass).analyze entry = .ok a ∧
      ∀ i < body.length, ∃ g, (a.frames[i]?).join = some g) ∨
    ∃ n, (plan.layout thisClass).analyze entry = .error (.codeTooLarge n) := by
  obtain ⟨frames, hat, hstart⟩ := h.frames 0 fun k => UInt16.ofNat (offset k)
  obtain ⟨hne, hbelow⟩ := hstart entry rfl
  have hbody : (plan.layout thisClass).instructions.toList = [] ++ body := hlays.toList
  have hreached := h.reached hbody
    (fun k label hk => (hlays.labels label k).2 (hlays.getElem? k ▸ hk))
    (fun _ => ⟨[], .start⟩) (fun label hl => by cases hl)
  have hanalysis := (hat.typing hlays hne hbelow).analyze hentry fun i hi =>
    hreached i (Nat.zero_le i) hi
  rw [hlays.size] at hanalysis
  exact hanalysis

theorem encodes (h : TypedFrom thisClass labels [] (some entry) body)
    (hlays : plan.Lays body offset) :
    ∃ parts, plan.placed.mapM (encode fun label => (plan.labels[label]?).bind
      ((plan.layout thisClass).offsets[·]?)) = .ok parts := by
  obtain ⟨frames, hat, -⟩ := h.frames 0 fun k => UInt16.ofNat (offset k)
  refine mapM_ok_of_forall fun q hq => ?_
  obtain ⟨k, hk⟩ := List.mem_iff_getElem?.1 hq
  exact hat.encodes hlays hk

end TypedFrom

namespace MethodDecl

/-- The method can be emitted for a class: its body is typed from the entry frame, and its marks
differ once its operands found room in a pool. -/
structure WellTyped (m : MethodDecl) (thisClass : String) : Prop where
  typed : ∃ d labels, m.type = .ok d ∧ TypedFrom thisClass labels []
    (some (Frame.entry thisClass m.name (Access.isStatic m.access) d)) m.body
  marks : ∀ ⦃pool operands pool'⦄, pool.Built →
    Succeeds (m.body.mapM Instruction.internOperand) pool operands pool' →
    (boundLabels m.body).Nodup

/-- The outcomes of emitting a body that is well formed. -/
inductive Emitted (m : MethodDecl) (thisClass : String) (withFrames : Bool) (pool : Pool) : Prop
  | ok {body : CodeBody} {pool' : Pool}
    (h : (m.assemble thisClass withFrames).run.run pool = (.ok body, pool'))
  | constantPoolOverflow {pool' : Pool}
    (h : (m.assemble thisClass withFrames).run.run pool = (.error .constantPoolOverflow, pool'))
  | codeTooLarge {size : Nat} {pool' : Pool}
    (h : (m.assemble thisClass withFrames).run.run pool = (.error (.codeTooLarge size), pool'))

theorem emitted_of_limited {m : MethodDecl} {thisClass : String} {withFrames : Bool} {pool : Pool}
    (h : LimitedAt (m.assemble thisClass withFrames) pool) :
    m.Emitted thisClass withFrames pool := by
  rcases hrun : (m.assemble thisClass withFrames).run.run pool with ⟨e | body, pool'⟩
  · have he := h e pool' hrun
    cases e <;> first | exact .constantPoolOverflow hrun | exact .codeTooLarge hrun | cases he
  · exact .ok hrun

/-- A well typed method is emitted, unless it meets a limit of class files. -/
theorem WellTyped.emitted {m : MethodDecl} {thisClass : String} (h : m.WellTyped thisClass)
    (withFrames : Bool) {pool : Pool} (hpool : pool.Built) :
    m.Emitted thisClass withFrames pool := by
  refine emitted_of_limited ?_
  obtain ⟨d, labels, hd, htyped⟩ := h.typed
  unfold assemble
  refine .lift_bind (fun e he => by rw [hd] at he; cases he) fun d' hd' => ?_
  obtain rfl := Except.ok.inj (hd.symm.trans hd')
  refine (LimitedAt.mapM Interning.internOperand_limited m.body pool).bind
    fun operands pool₁ hoperands => ?_
  have hlength := Interning.length_of_mapM hoperands
  rcases Assembly.plan_cases hlength (h.marks hpool hoperands) (fun _ _ => htyped.mark_mem) with
    ⟨plan, offset, hplan, hlays⟩ | ⟨n, hplan⟩
  case inr =>
    exact .lift_bind (fun e he => by rw [hplan] at he; cases he; trivial) fun plan' hplan' => by
      rw [hplan] at hplan'
      cases hplan'
  refine .lift_bind (fun e he => by rw [hplan] at he; cases he) fun plan' hplan' => ?_
  obtain rfl := Except.ok.inj (hplan.symm.trans hplan')
  rcases htyped.analyze hlays (Frame.paired_entry thisClass m.name _ d) with
    ⟨analysis, hanalysis, hframes⟩ | ⟨n, hanalysis⟩
  case inr =>
    exact .lift_bind (fun e he => by rw [hanalysis] at he; cases he; trivial) fun a ha => by
      rw [hanalysis] at ha
      cases ha
  refine .lift_bind (fun e he => by rw [hanalysis] at he; cases he) fun a ha => ?_
  obtain rfl := Except.ok.inj (hanalysis.symm.trans ha)
  obtain ⟨parts, hparts⟩ := htyped.encodes hlays
  refine .lift_bind (fun e he => by rw [hparts] at he; cases he) fun parts' _ => ?_
  dsimp only
  split
  · obtain ⟨landings, hlandings⟩ := @Assembly.Plan.Lays.landingFrames _ _ _ thisClass hlays _ hframes
    refine .lift_bind (fun e he => by rw [hlandings] at he; cases he) fun landings' _ => ?_
    split
    · exact .pure _
    · exact (LimitedAt.map (StackMap.write_limited _ _ pool₁)).bind fun _ _ _ => .pure _
  · exact .pure _

end MethodDecl

end EntityLoom
