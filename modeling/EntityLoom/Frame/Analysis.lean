import EntityLoom.Frame.Execution
import EntityLoom.Frame.Join

/-!
# Frame analysis

The frames on entry to each instruction of a body, and the limits of its stack and locals.  The
analysis starts with the entry frame at the first instruction and carries frames along the flow of
control: a frame that arrives is joined with the one recorded there, and an instruction whose frame
changed waits in a queue to be executed again.

The analysis goes in rounds.  A round ends when control reaches an instruction for the first time,
or when no instruction waits.  So there are no more rounds than instructions, and within a round
each step makes the recorded frames less high or, changing no frame, shortens the queue: that is
what `unreached_round_lt` and `next_further` say.  Hence the analysis ends for every body, label
table and entry frame.  `run_invariant` is the rule for reasoning about its end: what every step
keeps holds there, and no instruction waits.
-/

namespace EntityLoom

/-- A body laid out for analysis. -/
structure Layout where
  /-- The class whose method the body is of. -/
  thisClass : String
  instructions : Array Instruction
  /-- The bytecode offset of each instruction. -/
  offsets : Array Nat
  /-- The place of the mark of each label. -/
  target? : Label → Option Nat

/-- The outcome of a frame analysis. -/
structure Analysis where
  maxStack : UInt16
  maxLocals : UInt16
  /-- The frame on entry to each instruction that control reaches. -/
  frames : Array (Option Frame)
  deriving DecidableEq, Repr

/-- The state of a frame analysis. -/
structure Worklist where
  /-- The frames recorded so far. -/
  frames : Array (Option Frame)
  /-- The instructions that wait to be executed, first come first. -/
  queue : List Nat
  /-- The most stack slots seen in use. -/
  maxStack : Nat
  /-- The most locals seen in use. -/
  maxLocals : Nat
  /-- Whether control reached an instruction for the first time in this round. -/
  fresh : Bool

namespace Worklist

/-! ## Steps -/

/-- Puts an instruction at the end of the queue unless it waits already. -/
def enqueue (queue : List Nat) (i : Nat) : List Nat :=
  if i ∈ queue then queue else queue ++ [i]

/-- Lets a frame arrive at an instruction.  An arrival past the last instruction fails. -/
def arrive (f : Frame) (w : Worklist) (i : Nat) : Except EmissionError Worklist :=
  if h : i < w.frames.size then
    match w.frames[i] with
    | none =>
      .ok { w with
        frames := w.frames.set i (some f.trim), queue := enqueue w.queue i, fresh := true }
    | some recorded => do
      let joined ← recorded.join i f
      if joined = recorded then .ok w
      else .ok { w with frames := w.frames.set i (some joined), queue := enqueue w.queue i }
  else .error .fallOffEnd

/-- The instructions that control can go to from an instruction: the next one, and then the target
of a jump. -/
def successors (body : Layout) (index : Nat) (i : Instruction) : Except EmissionError (List Nat) :=
  let next := if i.fallsThrough then [index + 1] else []
  match i with
  | .jump _ label =>
    match body.target? label with
    | some target => .ok (next ++ [target])
    | none => .error (.unresolvedLabel label)
  | _ => .ok next

/-- Executes an instruction from its recorded frame and carries the result along. -/
def step (body : Layout) (w : Worklist) (index : Nat) : Except EmissionError Worklist :=
  match (w.frames[index]?).join, body.instructions[index]? with
  | some f, some i => do
    let f' ← f.after body.thisClass index (body.offsets.getD index 0) i
    let targets ← successors body index i
    targets.foldlM (arrive f')
      { w with
        maxStack := max (max w.maxStack f.stackSlots) f'.stackSlots
        maxLocals := max w.maxLocals f'.locals.length }
  | _, _ => .ok w

/-! ## Termination -/

/-- How many instructions have no frame yet. -/
def unreached (w : Worklist) : Nat :=
  w.frames.toList.countP Option.isNone

/-- How far the recorded frames can still rise together. -/
def totalHeight (w : Worklist) : Nat :=
  total (fun f => f.elim 0 Frame.height) w.frames.toList

/-- What the steps of a round make smaller.  A step that lowers a frame may let an instruction wait,
so a unit of height counts twice. -/
def load (w : Worklist) : Nat :=
  2 * w.totalHeight + w.queue.length

/-- Whether an analysis came further: it reached a new instruction, or reached none and has less to
do. -/
def Further (w w' : Worklist) : Prop :=
  w'.fresh = true ∧ w'.unreached < w.unreached ∨
    w'.fresh = w.fresh ∧ w'.unreached = w.unreached ∧ w'.load < w.load

theorem Further.trans {w₁ w₂ w₃ : Worklist} (h : Further w₁ w₂) (h' : Further w₂ w₃) :
    Further w₁ w₃ := by
  rcases h with ⟨hf, hu⟩ | ⟨hf, hu, hl⟩ <;> rcases h' with ⟨hf', hu'⟩ | ⟨hf', hu', hl'⟩
  · exact .inl ⟨hf', by omega⟩
  · exact .inl ⟨hf'.trans hf, by omega⟩
  · exact .inl ⟨hf', by omega⟩
  · exact .inr ⟨hf'.trans hf, by omega, by omega⟩

theorem length_enqueue_le (queue : List Nat) (i : Nat) :
    (enqueue queue i).length ≤ queue.length + 1 := by
  unfold enqueue
  split <;> simp

/-- An arrival changes no frame and leaves the queue, or brings the analysis further. -/
theorem arrive_further {f : Frame} {w w' : Worklist} {i : Nat} (h : w.arrive f i = .ok w') :
    w' = w ∨ Further w w' := by
  unfold arrive at h
  split at h
  case isFalse => simp at h
  case isTrue hi =>
    have hi' : i < w.frames.toList.length := by simpa using hi
    split at h
    · next hnone =>
      simp only [Except.ok.injEq] at h
      subst h
      refine .inr (.inl ⟨rfl, ?_⟩)
      have := total_set (fun x : Option Frame => x.isNone.toNat) hi' (some f.trim)
      simp only [unreached, Array.toList_set, countP_eq_total]
      simp only [Array.getElem_toList, hnone, Option.isNone_none, Option.isNone_some,
        Bool.toNat_true, Bool.toNat_false] at this
      omega
    · next recorded hsome =>
      cases hj : recorded.join i f with
      | error e => simp [hj, bind, Except.bind] at h
      | ok joined =>
        simp only [hj, bind, Except.bind] at h
        split at h
        · simp only [Except.ok.injEq] at h
          exact .inl h.symm
        · next hne =>
          simp only [Except.ok.injEq] at h
          subst h
          refine .inr (.inr ⟨rfl, ?_, ?_⟩)
          · have := total_set (fun x : Option Frame => x.isNone.toNat) hi' (some joined)
            simp only [unreached, Array.toList_set, countP_eq_total]
            simp only [Array.getElem_toList, hsome, Option.isNone_some, Bool.toNat_false] at this
            omega
          · have hlt := Frame.height_join_lt hj hne
            have := total_set (fun x : Option Frame => x.elim 0 Frame.height) hi' (some joined)
            have hq := length_enqueue_le w.queue i
            simp only [load, totalHeight, Array.toList_set]
            simp only [Array.getElem_toList, hsome, Option.elim_some] at this
            omega

theorem foldlM_arrive_further {f : Frame} {targets : List Nat} {w w' : Worklist}
    (h : targets.foldlM (arrive f) w = .ok w') : w' = w ∨ Further w w' := by
  induction targets generalizing w with
  | nil => exact .inl (by simpa [pure, Except.pure] using h.symm)
  | cons i rest ih =>
    simp only [List.foldlM_cons, bind, Except.bind] at h
    split at h
    · simp at h
    · next w₁ h₁ =>
      rcases arrive_further h₁ with rfl | hf
      · exact ih h
      · rcases ih h with rfl | hf'
        · exact .inr hf
        · exact .inr (hf.trans hf')

/-- A step changes no frame and leaves the queue, or brings the analysis further. -/
theorem step_further {body : Layout} {w w' : Worklist} {index : Nat}
    (h : w.step body index = .ok w') :
    w'.fresh = w.fresh ∧ w'.frames = w.frames ∧ w'.queue = w.queue ∨ Further w w' := by
  unfold step at h
  split at h
  · next f i _ _ =>
    simp only [bind, Except.bind] at h
    split at h
    · simp at h
    · split at h
      · simp at h
      · rcases foldlM_arrive_further h with rfl | hf
        · exact .inl ⟨rfl, rfl, rfl⟩
        · exact .inr hf
  · simp only [Except.ok.injEq] at h
    subst h
    exact .inl ⟨rfl, rfl, rfl⟩

/-- Taking an instruction off the queue, wherever it stands there, and executing it brings the
analysis further. -/
theorem next_further {body : Layout} {w w' : Worklist} {index : Nat} {rest : List Nat}
    (hq : rest.length < w.queue.length) (h : { w with queue := rest }.step body index = .ok w') :
    Further w w' := by
  have hlt : { w with queue := rest }.load < w.load := by
    simp only [load, totalHeight]
    omega
  rcases step_further h with ⟨hf, hfr, hq'⟩ | ⟨hf, hu⟩ | ⟨hf, hu, hl⟩
  · refine .inr ⟨hf, ?_, ?_⟩
    · simp only [unreached, hfr]
    · simp only [load, totalHeight, hfr, hq'] at hlt ⊢
      exact hlt
  · exact .inl ⟨hf, hu⟩
  · exact .inr ⟨hf, hu, Nat.lt_trans hl hlt⟩

/-! ## Rounds -/

/-- Executes instructions until none waits or control reaches one for the first time. -/
def round (body : Layout) (w : Worklist) : Except EmissionError Worklist :=
  match _hq : w.queue with
  | [] => .ok w
  | index :: rest =>
    match _h : { w with queue := rest }.step body index with
    | .error e => .error e
    | .ok w' => if _hf : w'.fresh then .ok w' else round body w'
termination_by w.load
decreasing_by
  rcases next_further (by simp [_hq]) _h with ⟨hf, _⟩ | ⟨_, _, hl⟩
  · exact absurd hf _hf
  · exact hl

/-- A round in which control reaches a new instruction leaves fewer for the next one. -/
theorem unreached_round_lt {body : Layout} {w w' : Worklist} (h : w.round body = .ok w')
    (hw : w.fresh = false) (hf : w'.fresh = true) : w'.unreached < w.unreached := by
  fun_induction round body w with
  | case1 w hq => simp_all
  | case2 => simp at h
  | case3 w index rest hq w₁ h₁ hf₁ =>
    obtain rfl : w₁ = w' := by simpa using h
    rcases next_further (by simp [hq]) h₁ with ⟨_, hu⟩ | ⟨hf', _, _⟩
    · exact hu
    · simp_all
  | case4 w index rest hq w₁ h₁ hf₁ ih =>
    rcases next_further (by simp [hq]) h₁ with ⟨hf', _⟩ | ⟨_, hu, _⟩
    · exact absurd hf' hf₁
    · exact hu ▸ ih h (by simpa using hf₁)

/-- Executes instructions until none waits. -/
def run (body : Layout) (w : Worklist) : Except EmissionError Worklist :=
  match _h : { w with fresh := false }.round body with
  | .error e => .error e
  | .ok w' => if _hf : w'.fresh then run body w' else .ok w'
termination_by w.unreached
decreasing_by exact unreached_round_lt (w := { w with fresh := false }) _h rfl _hf

theorem round_invariant {body : Layout} {Inv : Worklist → Prop}
    (hstep : ∀ w index rest w', w.queue = index :: rest →
      { w with queue := rest }.step body index = .ok w' → Inv w → Inv w')
    {w w' : Worklist} (h : w.round body = .ok w') (hw : Inv w) :
    Inv w' ∧ (w'.fresh = false → w'.queue = []) := by
  fun_induction round body w with
  | case1 w hq =>
    obtain rfl : w = w' := by simpa using h
    exact ⟨hw, fun _ => hq⟩
  | case2 => simp at h
  | case3 w index rest hq w₁ h₁ hf₁ =>
    obtain rfl : w₁ = w' := by simpa using h
    exact ⟨hstep _ _ _ _ hq h₁ hw, fun hf => by simp_all⟩
  | case4 w index rest hq w₁ h₁ hf₁ ih => exact ih h (hstep _ _ _ _ hq h₁ hw)

/-- What every step keeps holds at the end of a run, and then no instruction waits. -/
theorem run_invariant {body : Layout} {Inv : Worklist → Prop}
    (hstep : ∀ w index rest w', w.queue = index :: rest →
      { w with queue := rest }.step body index = .ok w' → Inv w → Inv w')
    (hround : ∀ w, Inv w → Inv { w with fresh := false })
    {w w' : Worklist} (h : w.run body = .ok w') (hw : Inv w) : Inv w' ∧ w'.queue = [] := by
  fun_induction run body w with
  | case1 => simp at h
  | case2 w w₁ h₁ hf ih => exact ih h (round_invariant hstep h₁ (hround _ hw)).1
  | case3 w w₁ h₁ hf =>
    obtain rfl : w₁ = w' := by simpa using h
    obtain ⟨hi, hq⟩ := round_invariant hstep h₁ (hround _ hw)
    exact ⟨hi, hq (by simpa using hf)⟩

/-- The state before any instruction was executed. -/
def start (size : Nat) (entry : Frame) : Worklist :=
  { frames := (Array.replicate size none).setIfInBounds 0 (some entry)
    queue := [0]
    maxStack := 0
    maxLocals := entry.locals.length
    fresh := false }

/-- The first instruction that control never reaches; marks do not count. -/
def firstDead? (body : Layout) (w : Worklist) : Option Nat :=
  (List.range body.instructions.size).find? fun i =>
    (w.frames[i]?).join.isNone && !(body.instructions[i]?).any Instruction.isMark

/-- Gives a limit its 16 bit form. -/
def limit (n : Nat) : Except EmissionError UInt16 :=
  if n < 0x10000 then .ok (UInt16.ofNat n) else .error (.codeTooLarge n)

end Worklist

/-- Computes the frames and limits of a body from its entry frame. -/
def Layout.analyze (body : Layout) (entry : Frame) : Except EmissionError Analysis := do
  if body.instructions.isEmpty then throw .fallOffEnd
  let w ← Worklist.run body (.start body.instructions.size entry)
  match w.firstDead? body with
  | some dead => throw (.unreachable dead)
  | none => pure ()
  let maxStack ← Worklist.limit w.maxStack
  let maxLocals ← Worklist.limit w.maxLocals
  return ⟨maxStack, maxLocals, w.frames⟩

end EntityLoom
