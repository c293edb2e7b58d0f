import EntityLoom.Proofs.Frame.Least

/-!
# How deep the stack gets

The limit of the stack counts slots on the recorded frames, while paths run with frames below them.
A frame below another has as many values on its stack, but it can take more slots: where a long or
double meets a value of another type, the join is `top`, which takes one.  `Layout.analyze_depth`
accounts for the difference.  Along every path the stack takes the slots of the recorded frame and
one more for each wide value that the recorded frame does not know to be wide, so the limit holds of
all paths where no join hides a slot (`Layout.KeepsSlots`), and the recorded depths are those of the
paths there only.

The difference between a path and the recorded frames changes at joins alone, since an instruction
changes the slots of every stack that it accepts by the same number (`Frame.stackSlots_after`).  That
the recorded frames stay within the limit, before and after their instructions, is an invariant of
the analysis (`Worklist.Measured`).
-/

namespace EntityLoom

/-! ## The slots that an instruction takes and leaves -/

/-- How many slots the accepted values take. -/
def Expectation.slots : Expectation → Nat
  | long | double => 2
  | _ => 1

theorem Expectation.slots_of_accepts {e : Expectation} {v : VerificationType}
    (h : e.accepts v = true) : v.slots = e.slots := by
  cases e <;> cases v <;>
    simp_all [accepts, slots, VerificationType.slots, VerificationType.isWide,
      VerificationType.isReference]

theorem Expectation.slots_ofDescriptor (d : Descriptor) :
    (Expectation.ofDescriptor d).slots = (VerificationType.ofDescriptor d).slots := by
  cases d <;> rfl

namespace Opcode

/-- How many stack slots an instruction without operands leaves beyond those it takes. -/
def simpleSlotChange : Opcode → Int
  | aconstNull | iconst0 | iconst1 | dup => 1
  | pop | athrow | areturn | ireturn | freturn => -1
  | lreturn | dreturn => -2
  | _ => 0

/-- The same for an instruction on a field of the given type. -/
def fieldSlotChange (op : Opcode) (d : Descriptor) : Int :=
  match op with
  | getfield => (VerificationType.ofDescriptor d).slots - 1
  | putfield => -(VerificationType.ofDescriptor d).slots - 1
  | getstatic => (VerificationType.ofDescriptor d).slots
  | _ => -(VerificationType.ofDescriptor d).slots

/-- The same for a call of a method of the given type. -/
def invokeSlotChange (op : Opcode) (d : MethodDescriptor) : Int :=
  (if d.result = .void then 0 else (VerificationType.ofDescriptor d.result).slots : Nat) -
    total (fun p => (VerificationType.ofDescriptor p).slots) d.params -
    (if op = .invokestatic then 0 else 1 : Nat)

/-- The same for a jump. -/
def jumpSlotChange : Opcode → Int
  | ifeq | ifne | ifnull | ifnonnull => -1
  | ifAcmpeq | ifAcmpne => -2
  | _ => 0

/-- An instruction that does not read a field writes it. -/
theorem fieldSlotChange_of_ne {op : Opcode} {d : Descriptor} (hget : op ≠ getfield)
    (hput : op ≠ putfield) (hstatic : op ≠ getstatic) :
    op.fieldSlotChange d = -(VerificationType.ofDescriptor d).slots := by
  unfold fieldSlotChange
  split <;> first | contradiction | rfl

end Opcode

/-- How many stack slots an instruction leaves beyond those it takes. -/
def Instruction.slotChange : Instruction → Int
  | .mark _ => 0
  | .simple op => op.simpleSlotChange
  | .var op _ =>
    if op.isLoad then (Expectation.ofLocalOp op).slots else -(Expectation.ofLocalOp op).slots
  | .field op r => r.fieldType.toOption.elim 0 op.fieldSlotChange
  | .invoke op r => r.methodType.toOption.elim 0 op.invokeSlotChange
  | .type op _ => if op = .new then 1 else 0
  | .ldcString _ => 1
  | .jump op _ => op.jumpSlotChange

namespace Frame

variable {thisClass : String} {index offset : Nat} {f f' : Frame} {u : Unit}

theorem stackSlots_push {v : VerificationType} (h : (push v).run f = .ok (u, f')) :
    f'.stackSlots = v.slots + f.stackSlots := by
  rw [push_eq_ok.1 h, stackSlots, total_cons, stackSlots]

theorem stackSlots_pop {v : VerificationType} (h : f.stack = v :: f'.stack) :
    f.stackSlots = v.slots + f'.stackSlots := by
  rw [stackSlots, h, total_cons, stackSlots]

theorem stackSlots_popExpecting {e : Expectation} {v : VerificationType}
    (h : (popExpecting index e).run f = .ok (v, f')) : f.stackSlots = e.slots + f'.stackSlots := by
  obtain ⟨hacc, hstack, -⟩ := popExpecting_eq_ok.1 h
  rw [stackSlots_pop hstack, Expectation.slots_of_accepts hacc]

theorem stackSlots_popDeclared {d : Descriptor} (h : (popDeclared index d).run f = .ok (u, f')) :
    f.stackSlots = (VerificationType.ofDescriptor d).slots + f'.stackSlots := by
  obtain ⟨v, hacc, hstack, -⟩ := popDeclared_eq_ok.1 h
  rw [stackSlots_pop hstack, Expectation.slots_of_accepts hacc, Expectation.slots_ofDescriptor]

theorem stackSlots_forM_popDeclared {ds : List Descriptor} {u : PUnit}
    (h : (ds.forM (popDeclared index)).run f = .ok (u, f')) :
    f.stackSlots =
      total (fun p => (VerificationType.ofDescriptor p).slots) ds + f'.stackSlots := by
  induction ds generalizing f with
  | nil =>
    obtain ⟨-, rfl⟩ := run_pure_eq_ok.1 h
    rw [total_nil, Nat.zero_add]
  | cons d ds ih =>
    obtain ⟨_, g, hd, h⟩ := run_bind_eq_ok.1 h
    rw [stackSlots_popDeclared hd, ih h, total_cons, Nat.add_assoc]

/-- An object takes one slot before and after its constructor. -/
theorem stackSlots_replace {old : VerificationType} {name : String} (hold : IsUnconstructed old)
    (f : Frame) : (replace old (.object name) f).stackSlots = f.stackSlots := by
  have hslots : ∀ v : VerificationType,
      (if v = old then VerificationType.object name else v).slots = v.slots := by
    intro v
    by_cases hv : v = old
    · rw [if_pos hv, hv]
      rcases hold with rfl | ⟨offset, rfl⟩ <;> rfl
    · rw [if_neg hv]
  obtain ⟨locals, stack⟩ := f
  induction stack with
  | nil => rfl
  | cons v stack ih =>
    show (if v = old then VerificationType.object name else v).slots +
      (replace old (.object name) ⟨locals, stack⟩).stackSlots = v.slots + total _ stack
    rw [hslots, ih, stackSlots]

theorem stackSlots_popReceiver {op : Opcode} {r : MemberRef}
    (h : (popReceiver thisClass index op r).run f = .ok (u, f')) :
    f.stackSlots = (if op = .invokestatic then 0 else 1) + f'.stackSlots := by
  unfold popReceiver at h
  by_cases hop : op = .invokestatic
  · rw [if_pos hop] at h ⊢
    obtain ⟨-, rfl⟩ := run_pure_eq_ok.1 h
    rw [Nat.zero_add]
  · rw [if_neg hop] at h ⊢
    obtain ⟨v, g, hpop, h⟩ := run_bind_eq_ok.1 h
    rw [stackSlots_popExpecting hpop]
    unfold construct at h
    split at h
    · split at h
      · next name hname =>
        rw [modify_eq_ok.1 h, stackSlots_replace (isUnconstructed_of_constructedClass? hname)]
        rfl
      · exact absurd h run_throw_ne_ok
    · obtain ⟨-, rfl⟩ := run_pure_eq_ok.1 h
      rfl

theorem stackSlots_pushResult {d : Descriptor} (h : (pushResult d).run f = .ok (u, f')) :
    f'.stackSlots =
      (if d = .void then 0 else (VerificationType.ofDescriptor d).slots) + f.stackSlots := by
  unfold pushResult at h
  by_cases hd : d = .void
  · rw [if_pos hd] at h ⊢
    obtain ⟨-, rfl⟩ := run_pure_eq_ok.1 h
    rw [Nat.zero_add]
  · rw [if_neg hd] at h ⊢
    exact stackSlots_push h

theorem stackSlots_popped {e : Expectation}
    (h : (do let _ ← popExpecting index e : FrameAction Unit).run f = .ok (u, f')) :
    f.stackSlots = e.slots + f'.stackSlots := by
  obtain ⟨v, g, hpop, hpure⟩ := run_bind_eq_ok.1 h
  obtain ⟨-, rfl⟩ := run_pure_eq_ok.1 hpure
  exact stackSlots_popExpecting hpop

theorem stackSlots_executeSimple {op : Opcode}
    (h : (executeSimple index op).run f = .ok (u, f')) :
    (f'.stackSlots : Int) = f.stackSlots + op.simpleSlotChange := by
  have hpushed : ∀ {v : VerificationType}, (push v).run f = .ok (u, f') → v.slots = 1 →
      (f'.stackSlots : Int) = f.stackSlots + 1 := by
    intro v hpush hv
    have := stackSlots_push hpush
    omega
  have hpopped : ∀ {e : Expectation},
      (do let _ ← popExpecting index e : FrameAction Unit).run f = .ok (u, f') → e.slots = 1 →
      (f'.stackSlots : Int) = f.stackSlots + -1 := by
    intro e hpop he
    have := stackSlots_popped hpop
    omega
  have hreturned : ∀ {d : Descriptor} {n : Nat}, (popDeclared index d).run f = .ok (u, f') →
      (VerificationType.ofDescriptor d).slots = n → (f'.stackSlots : Int) = f.stackSlots + -n := by
    intro d n hpop hd
    have := stackSlots_popDeclared hpop
    omega
  unfold executeSimple at h
  split at h
  · exact hpushed h rfl
  · exact hpushed h rfl
  · exact hpushed h rfl
  · exact hpopped h rfl
  · obtain ⟨v, g, hpop, h⟩ := run_bind_eq_ok.1 h
    obtain ⟨_, g', hpush, hpush'⟩ := run_bind_eq_ok.1 h
    have hv : v.slots = 1 := Expectation.slots_of_accepts (popExpecting_eq_ok.1 hpop).1
    have hpop : f.stackSlots = 1 + g.stackSlots := stackSlots_popExpecting hpop
    have hpush := stackSlots_push hpush
    have hpush' := stackSlots_push hpush'
    show (f'.stackSlots : Int) = f.stackSlots + 1
    omega
  · exact hpopped h rfl
  · exact hpopped h rfl
  · exact hreturned (n := 1) h rfl
  · exact hreturned (n := 2) h rfl
  · exact hreturned (n := 1) h rfl
  · exact hreturned (n := 2) h rfl
  · obtain ⟨-, rfl⟩ := run_pure_eq_ok.1 h
    exact (Int.add_zero _).symm
  · exact absurd h run_throw_ne_ok

theorem stackSlots_executeField {op : Opcode} {r : MemberRef}
    (h : (executeField index op r).run f = .ok (u, f')) :
    (f'.stackSlots : Int) = f.stackSlots + (Instruction.field op r).slotChange := by
  have hone : Expectation.reference.slots = 1 := rfl
  unfold executeField at h
  obtain ⟨d, g, hd, h⟩ := run_bind_eq_ok.1 h
  obtain ⟨htype, rfl⟩ := run_lift_eq_ok.1 hd
  have hchange : (Instruction.field op r).slotChange = op.fieldSlotChange d := by
    rw [Instruction.slotChange, htype]
    rfl
  rw [hchange]
  split at h
  · obtain ⟨v, g, hpop, hpush⟩ := run_bind_eq_ok.1 h
    have hpop := stackSlots_popExpecting hpop
    have hpush := stackSlots_push hpush
    show (f'.stackSlots : Int) = f.stackSlots + ((VerificationType.ofDescriptor d).slots - 1)
    omega
  · obtain ⟨_, g, hvalue, h⟩ := run_bind_eq_ok.1 h
    have hvalue := stackSlots_popDeclared hvalue
    have howner := stackSlots_popped h
    show (f'.stackSlots : Int) = f.stackSlots + (-(VerificationType.ofDescriptor d).slots - 1)
    omega
  · have hpush := stackSlots_push h
    show (f'.stackSlots : Int) = f.stackSlots + (VerificationType.ofDescriptor d).slots
    omega
  · next hget hput hstatic =>
    have hpop := stackSlots_popDeclared h
    rw [Opcode.fieldSlotChange_of_ne hget hput hstatic]
    omega

theorem stackSlots_executeInvoke {op : Opcode} {r : MemberRef}
    (h : (executeInvoke thisClass index op r).run f = .ok (u, f')) :
    (f'.stackSlots : Int) = f.stackSlots + (Instruction.invoke op r).slotChange := by
  unfold executeInvoke at h
  obtain ⟨d, f₀, hd, h⟩ := run_bind_eq_ok.1 h
  obtain ⟨htype, rfl⟩ := run_lift_eq_ok.1 hd
  obtain ⟨_, f₁, hparams, h⟩ := run_bind_eq_ok.1 h
  obtain ⟨_, f₂, hreceiver, hresult⟩ := run_bind_eq_ok.1 h
  have hparams := stackSlots_forM_popDeclared hparams
  have hreceiver := stackSlots_popReceiver hreceiver
  have hresult := stackSlots_pushResult hresult
  have hchange : (Instruction.invoke op r).slotChange = op.invokeSlotChange d := by
    rw [Instruction.slotChange, htype]
    rfl
  rw [total_reverse] at hparams
  rw [hchange, Opcode.invokeSlotChange]
  omega

theorem stackSlots_executeType {op : Opcode} {name : String}
    (h : (executeType index offset op name).run f = .ok (u, f')) :
    (f'.stackSlots : Int) = f.stackSlots + (Instruction.type op name).slotChange := by
  have hswapped : ∀ {v : VerificationType}, v.slots = 1 →
      (do let _ ← popExpecting index .reference; push v : FrameAction Unit).run f = .ok (u, f') →
      (f'.stackSlots : Int) = f.stackSlots := by
    intro v hv h
    obtain ⟨w, g, hpop, hpush⟩ := run_bind_eq_ok.1 h
    have hpop : f.stackSlots = 1 + g.stackSlots := stackSlots_popExpecting hpop
    have hpush := stackSlots_push hpush
    omega
  unfold executeType at h
  split at h
  · split at h
    · have hpush : f'.stackSlots = 1 + f.stackSlots := stackSlots_push h
      show (f'.stackSlots : Int) = f.stackSlots + 1
      omega
    · exact absurd h run_throw_ne_ok
  · rw [Instruction.slotChange, if_neg (by decide), Int.add_zero]
    exact hswapped rfl h
  · next hnew _ =>
    rw [Instruction.slotChange, if_neg hnew, Int.add_zero]
    exact hswapped rfl h

theorem stackSlots_executeJump {op : Opcode}
    (h : (executeJump index op).run f = .ok (u, f')) :
    (f'.stackSlots : Int) = f.stackSlots + op.jumpSlotChange := by
  have htested : f.stackSlots = 1 + f'.stackSlots → (f'.stackSlots : Int) = f.stackSlots + -1 := by
    intro hpop
    omega
  have hcompared : (do
      let _ ← popExpecting index .reference
      let _ ← popExpecting index .reference : FrameAction Unit).run f = .ok (u, f') →
      (f'.stackSlots : Int) = f.stackSlots + -2 := by
    intro h
    obtain ⟨v, g, hpop, h⟩ := run_bind_eq_ok.1 h
    have hpop : f.stackSlots = 1 + g.stackSlots := stackSlots_popExpecting hpop
    have hpop' : g.stackSlots = 1 + f'.stackSlots := stackSlots_popped h
    omega
  unfold executeJump at h
  split at h
  · exact htested (stackSlots_popDeclared h)
  · exact htested (stackSlots_popDeclared h)
  · exact hcompared h
  · exact hcompared h
  · exact htested (stackSlots_popped h)
  · exact htested (stackSlots_popped h)
  · obtain ⟨-, rfl⟩ := run_pure_eq_ok.1 h
    have hchange : op.jumpSlotChange = 0 := by
      unfold Opcode.jumpSlotChange
      split <;> first | contradiction | rfl
    rw [hchange, Int.add_zero]

/-- An instruction changes the slots of every stack that it accepts by the same number. -/
theorem stackSlots_after {ins : Instruction}
    (h : f.after thisClass index offset ins = .ok f') :
    (f'.stackSlots : Int) = f.stackSlots + ins.slotChange := by
  obtain ⟨u, hu⟩ := after_eq_ok.1 h
  unfold execute at hu
  split at hu
  · obtain ⟨-, rfl⟩ := run_pure_eq_ok.1 hu
    exact (Int.add_zero _).symm
  · exact stackSlots_executeSimple hu
  · next op slot =>
    rw [Instruction.slotChange]
    split at hu
    · next hload =>
      obtain ⟨hacc, rfl⟩ := load_eq_ok.1 hu
      have hslots := Expectation.slots_of_accepts hacc
      have hpush : stackSlots { f with stack := slotOf f.locals slot.toNat :: f.stack } =
        (slotOf f.locals slot.toNat).slots + f.stackSlots := rfl
      rw [if_pos hload]
      omega
    · next hload =>
      obtain ⟨v, hacc, hstack, -⟩ := store_eq_ok.1 hu
      have hslots := Expectation.slots_of_accepts hacc
      have hpop := stackSlots_pop hstack
      rw [if_neg hload]
      omega
  · exact stackSlots_executeField hu
  · exact stackSlots_executeInvoke hu
  · exact stackSlots_executeType hu
  · have hpush := stackSlots_push hu
    have hone : (VerificationType.object "java/lang/String").slots = 1 := rfl
    show (f'.stackSlots : Int) = f.stackSlots + 1
    omega
  · exact stackSlots_executeJump hu

end Frame

/-! ## Slots that a recorded frame hides -/

namespace Frame

variable {f g : Frame}

/-- How many values on a stack are wide where another frame does not know them to be. -/
def hiddenSlots (f g : Frame) : Nat :=
  (f.stack.zip g.stack).countP fun p => p.1.isWide && !p.2.isWide

/-- A stack takes the slots of one above it, and those that it hides. -/
theorem Below.stackSlots_eq (h : f.Below g) :
    f.stackSlots = g.stackSlots + f.hiddenSlots g := by
  obtain ⟨flocals, fstack⟩ := f
  obtain ⟨glocals, gstack⟩ := g
  have hstack : List.Forall₂ VerificationType.Below fstack gstack := h.stack
  clear h
  unfold stackSlots hiddenSlots
  dsimp only
  induction hstack with
  | nil => rfl
  | @cons a b as bs hab _ ih =>
    have hwide : b.isWide = true → a.isWide = true := by
      intro hb
      have htop : b ≠ .top := fun heq => by
        rw [heq] at hb
        cases hb
      rw [VerificationType.isWide_of_below hab htop]
      exact hb
    rw [total_cons, total_cons, List.zip_cons_cons, List.countP_cons, ih, VerificationType.slots,
      VerificationType.slots]
    cases ha : a.isWide <;> cases hb : b.isWide <;> simp_all <;> omega

/-- An instruction hides no slot and shows none: what it leaves of two stacks differs as they did. -/
theorem Below.stackSlots_executeAt {body : Layout} {i : Nat} {f' g' : Frame} (h : f.Below g)
    (hf : body.executeAt f i = .ok f') (hg : body.executeAt g i = .ok g') :
    f'.stackSlots = g'.stackSlots + f.hiddenSlots g := by
  unfold Layout.executeAt at hf hg
  split at hf
  · next ins hins =>
    rw [hins] at hg
    have hbefore := h.stackSlots_eq
    have hf' := Frame.stackSlots_after hf
    have hg' := Frame.stackSlots_after hg
    omega
  · cases hf

end Frame

/-! ## The limit holds of the recorded frames -/

namespace Worklist

variable {body : Layout} {entry : Frame} {w w' : Worklist}

/-- Before and after its instruction, a recorded frame that does not wait is within the limit. -/
def Measured (body : Layout) (w : Worklist) : Prop :=
  ∀ i f f', i ∉ w.queue → w.frameAt i = some f → body.executeAt f i = .ok f' →
    f.stackSlots ≤ w.maxStack ∧ f'.stackSlots ≤ w.maxStack

theorem Measured.step {index : Nat} {rest : List Nat} (hw : w.Measured body)
    (hq : w.queue = index :: rest) (h : { w with queue := rest }.step body index = .ok w') :
    w'.Measured body := by
  have hidle : ∀ i, i ≠ index → i ∉ rest → i ∉ w.queue := by
    intro i hindex hi
    rw [hq, List.mem_cons, not_or]
    exact ⟨hindex, hi⟩
  rcases step_eq_ok h with ⟨f, ins, f', targets, hf, hins, hafter, -, harrive⟩ | ⟨hnone, rfl⟩
  · have hadv := (foldlM_arrive harrive).1
    have hlimit : w'.maxStack = max (max w.maxStack f.stackSlots) f'.stackSlots := hadv.maxStack
    intro i k k' hi hk hk'
    obtain ⟨hi₀, hsame⟩ := hadv.waits i hi
    have hbefore : w.frameAt i = some k := hsame.symm.trans hk
    by_cases hindex : i = index
    · subst hindex
      obtain rfl := Option.some.inj (hf.symm.trans hbefore)
      have hexecuted : body.executeAt f i = .ok f' := by
        rw [Layout.executeAt, hins]
        exact hafter
      obtain rfl := Except.ok.inj (hexecuted.symm.trans hk')
      omega
    · have hold := hw i k k' (hidle i hindex hi₀) hbefore hk'
      omega
  · intro i k k' hi hk hk'
    by_cases hindex : i = index
    · subst hindex
      unfold Layout.executeAt at hk'
      split at hk'
      · next ins hins => exact absurd hins (hnone k ins hk)
      · cases hk'
    · exact hw i k k' (hidle i hindex hi) hk hk'

theorem start_measured {size : Nat} : (start size entry).Measured body := by
  intro i f f' hi hf _
  obtain ⟨rfl, -, -⟩ := frameAt_start.1 hf
  exact absurd (List.mem_singleton.2 rfl) hi

end Worklist

/-! ## The depth of a path -/

namespace Layout

variable {body : Layout} {entry : Frame} {a : Analysis}

/-- Before and after its instruction, a recorded frame is within the limit. -/
theorem measured_of_analyze (h : body.analyze entry = .ok a) {i : Nat} {g g' : Frame}
    (hg : a.frameAt i = some g) (hg' : body.executeAt g i = .ok g') :
    g.stackSlots ≤ a.maxStack.toNat ∧ g'.stackSlots ≤ a.maxStack.toNat := by
  obtain ⟨w, -, hrun, -, hlimit, -, hframes⟩ := analyze_eq_ok h
  have hmeasured : w.Measured body ∧ w.queue = [] :=
    Worklist.run_invariant (fun _ _ _ _ hq hstep hw => hw.step hq hstep) (fun _ hw => hw) hrun
      Worklist.start_measured
  rw [Analysis.frameAt, hframes] at hg
  rw [hlimit]
  exact hmeasured.1 i g g' (by simp [hmeasured.2]) hg hg'

/-- No join hides a slot: where control goes on, every value that an instruction leaves on the stack
is recorded as wide if it is. -/
def KeepsSlots (body : Layout) (a : Analysis) : Prop :=
  ∀ i j f f' g, a.frameAt i = some f → body.Edge i j → body.executeAt f i = .ok f' →
    a.frameAt j = some g → f'.hiddenSlots g = 0

section Analyzed

variable (hentry : Frame.Paired entry.locals) (h : body.analyze entry = .ok a)
include hentry h

/-- The frame of a path and the recorded one, before and after the instruction where the path
arrives. -/
theorem path_frames {visited : List Nat} {i : Nat} (hpath : body.Path visited i) :
    ∃ f f' g g' : Frame, body.executeAlong entry visited = .ok f ∧ body.executeAt f i = .ok f' ∧
      a.frameAt i = some g ∧ f.Below g ∧ f'.stackSlots = g'.stackSlots + f.hiddenSlots g ∧
      g.stackSlots ≤ a.maxStack.toNat ∧ g'.stackSlots ≤ a.maxStack.toNat := by
  have htyped := (leastTyping_of_analyze hentry h).1.typed
  obtain ⟨f, g, hf, hg, hfg⟩ := htyped.executeAlong_below hpath
  obtain ⟨f', g', hf', hg', -, -⟩ := htyped.executeAt_below hg hfg
  exact ⟨f, f', g, g', hf, hf', hg, hfg, hfg.stackSlots_executeAt hf' hg',
    measured_of_analyze h hg hg'⟩

/-- Where a path goes on, it hides the slots that it hid before and those that the join hides. -/
theorem hiddenSlots_step {visited : List Nat} {i j : Nat} (hpath : body.Path visited i)
    (hedge : body.Edge i j) :
    ∃ f f' g g' k, body.executeAlong entry visited = .ok f ∧
      body.executeAlong entry (visited ++ [i]) = .ok f' ∧
      a.frameAt i = some g ∧ body.executeAt g i = .ok g' ∧ a.frameAt j = some k ∧
      f'.hiddenSlots k = f.hiddenSlots g + g'.hiddenSlots k := by
  have htyped := (leastTyping_of_analyze hentry h).1.typed
  obtain ⟨f, g, hf, hg, hfg⟩ := htyped.executeAlong_below hpath
  obtain ⟨f', g', hf', hg', hfg', hgoes⟩ := htyped.executeAt_below hg hfg
  obtain ⟨k, hk, hgk⟩ := hgoes j hedge
  have hexecuted := hfg.stackSlots_executeAt hf' hg'
  have hjoined := hgk.stackSlots_eq
  have harrived := (hfg'.trans hgk).stackSlots_eq
  exact ⟨f, f', g, g', k, hf, (executeAlong_append_singleton hf).trans hf', hg, hg', hk, by omega⟩

/-- Where no join hides a slot, none is hidden along a path. -/
theorem hiddenSlots_of_keepsSlots (hstack : entry.stack = []) (hkeeps : body.KeepsSlots a)
    {visited : List Nat} {i : Nat} (hpath : body.Path visited i) {f g : Frame}
    (hf : body.executeAlong entry visited = .ok f) (hg : a.frameAt i = some g) :
    f.hiddenSlots g = 0 := by
  induction hpath generalizing f g with
  | start =>
    obtain rfl := Except.ok.inj hf
    rw [Frame.hiddenSlots, hstack]
    rfl
  | @step visited i j hpath hedge ih =>
    obtain ⟨l, f', k, k', g', hl, hf', hk, hk', hg', hslots⟩ := hiddenSlots_step hentry h hpath hedge
    obtain rfl := Except.ok.inj (hf.symm.trans hf')
    obtain rfl := Option.some.inj (hg.symm.trans hg')
    rw [hslots, ih hl hk, hkeeps i j k k' g hk hedge hk' hg]

/-- A slot that a join hides is hidden along each path that goes there. -/
theorem keepsSlots_of_hiddenSlots
    (hpaths : ∀ visited i f g, body.Path visited i → body.executeAlong entry visited = .ok f →
      a.frameAt i = some g → f.hiddenSlots g = 0) : body.KeepsSlots a := by
  intro i j k k' g hk hedge hk' hg
  obtain ⟨visited, hpath⟩ := ((leastTyping_of_analyze hentry h).1.reached i).1 ⟨k, hk⟩
  obtain ⟨l, f, k₁, k₁', g₁, -, hf, hk₁, hk₁', hg₁, hslots⟩ :=
    hiddenSlots_step hentry h hpath hedge
  obtain rfl := Option.some.inj (hk.symm.trans hk₁)
  obtain rfl := Except.ok.inj (hk'.symm.trans hk₁')
  obtain rfl := Option.some.inj (hg.symm.trans hg₁)
  have hnone := hpaths _ j f g (hpath.step hedge) hf hg
  omega

end Analyzed

/-- The depth of every path of an analysed body, before and after the instruction where it arrives:
the limit of the stack, and one slot more for each wide value that the recorded frame does not know
to be wide.  The limit holds of all paths where no join hides a slot, and there alone the paths are
as deep as the recorded frames. -/
theorem analyze_depth {owner method : String} {isStatic : Bool} {d : MethodDescriptor}
    (h : body.analyze (Frame.entry owner method isStatic d) = .ok a) :
    (∀ visited i, body.Path visited i → ∃ f f' g,
      body.executeAlong (Frame.entry owner method isStatic d) visited = .ok f ∧
      body.executeAt f i = .ok f' ∧ a.frameAt i = some g ∧
      f.stackSlots = g.stackSlots + f.hiddenSlots g ∧
      f.stackSlots ≤ a.maxStack.toNat + f.hiddenSlots g ∧
      f'.stackSlots ≤ a.maxStack.toNat + f.hiddenSlots g ∧
      (body.KeepsSlots a → f.stackSlots ≤ a.maxStack.toNat ∧ f'.stackSlots ≤ a.maxStack.toNat)) ∧
    (body.KeepsSlots a ↔ ∀ visited i f g, body.Path visited i →
      body.executeAlong (Frame.entry owner method isStatic d) visited = .ok f →
      a.frameAt i = some g → f.stackSlots = g.stackSlots) := by
  have hentry := Frame.paired_entry owner method isStatic d
  have hstack : (Frame.entry owner method isStatic d).stack = [] := rfl
  generalize Frame.entry owner method isStatic d = entry at h hentry hstack ⊢
  have hdiffers : ∀ visited i f g, body.Path visited i → body.executeAlong entry visited = .ok f →
      a.frameAt i = some g → f.stackSlots = g.stackSlots + f.hiddenSlots g := by
    intro visited i f g hpath hf hg
    obtain ⟨f₁, -, g₁, -, hf₁, -, hg₁, hbelow, -⟩ := path_frames hentry h hpath
    obtain rfl := Except.ok.inj (hf.symm.trans hf₁)
    obtain rfl := Option.some.inj (hg.symm.trans hg₁)
    exact hbelow.stackSlots_eq
  refine ⟨fun visited i hpath => ?_, fun hkeeps visited i f g hpath hf hg => ?_, fun hpaths => ?_⟩
  · obtain ⟨f, f', g, g', hf, hf', hg, hbelow, hslots, hlimit, hlimit'⟩ :=
      path_frames hentry h hpath
    have hfg := hbelow.stackSlots_eq
    refine ⟨f, f', g, hf, hf', hg, hfg, by omega, by omega, fun hkeeps => ?_⟩
    have hnone := hiddenSlots_of_keepsSlots hentry h hstack hkeeps hpath hf hg
    omega
  · have hnone := hiddenSlots_of_keepsSlots hentry h hstack hkeeps hpath hf hg
    have hfg := hdiffers visited i f g hpath hf hg
    omega
  · refine keepsSlots_of_hiddenSlots hentry h fun visited i f g hpath hf hg => ?_
    have hsame := hpaths visited i f g hpath hf hg
    have hfg := hdiffers visited i f g hpath hf hg
    omega

/-- A body with a join of a long and an int on the stack. -/
def joinedBody : Layout :=
  { thisClass := "a/B"
    instructions := #[.var .iload 0, .jump .ifeq 0, .var .lload 1, .jump .goto 1, .mark 0,
      .simple .iconst0, .mark 1, .simple .iconst0, .simple .iconst0, .simple .pop, .simple .pop,
      .simple .returnVoid]
    offsets := #[0, 1, 4, 5, 8, 8, 9, 9, 10, 11, 12, 13]
    target? := fun label => if label = 0 then some 4 else if label = 1 then some 6 else none }

theorem path_joinedBody : joinedBody.Path [0, 1, 2, 3, 6, 7, 8] 9 :=
  .step (.step (.step (.step (.step (.step (.step .start (.next rfl rfl)) (.next rfl rfl))
    (.next rfl rfl)) (.jump rfl rfl)) (.next rfl rfl)) (.next rfl rfl)) (.next rfl rfl)

/-- The path with the long takes a slot more than the limit. -/
theorem analyze_depth_joined :
    ∃ a f g, joinedBody.analyze (Frame.entry "a/B" "run" true ⟨[.int, .long], .void⟩) = .ok a ∧
      joinedBody.executeAlong (Frame.entry "a/B" "run" true ⟨[.int, .long], .void⟩)
        [0, 1, 2, 3, 6, 7, 8] = .ok f ∧
      a.frameAt 9 = some g ∧ f.stackSlots = g.stackSlots + f.hiddenSlots g ∧
      a.maxStack = 3 ∧ f.stackSlots = 4 ∧ ¬joinedBody.KeepsSlots a := by
  have hlimit : ∃ a, joinedBody.analyze (Frame.entry "a/B" "run" true ⟨[.int, .long], .void⟩) =
      .ok a ∧ a.maxStack = 3 := by
    decide +kernel
  have hdepth : ∃ f, joinedBody.executeAlong
      (Frame.entry "a/B" "run" true ⟨[.int, .long], .void⟩) [0, 1, 2, 3, 6, 7, 8] = .ok f ∧
      f.stackSlots = 4 := by
    decide +kernel
  obtain ⟨a, ha, hlimit⟩ := hlimit
  obtain ⟨f, hf, hdepth⟩ := hdepth
  obtain ⟨f₁, f', g, hf₁, -, hg, hslots, -, -, hkeeps⟩ := (analyze_depth ha).1 _ _ path_joinedBody
  obtain rfl := Except.ok.inj (hf.symm.trans hf₁)
  refine ⟨a, f, g, ha, hf, hg, hslots, hlimit, hdepth, fun hkept => ?_⟩
  have hwithin := (hkeeps hkept).1
  rw [hlimit, hdepth] at hwithin
  exact absurd hwithin (by decide)

end Layout

end EntityLoom
