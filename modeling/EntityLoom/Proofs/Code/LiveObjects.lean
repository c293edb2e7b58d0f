import EntityLoom.Proofs.Code.Escapes
import EntityLoom.Proofs.Code.Layout
import EntityLoom.Proofs.Frame.Least

/-!
# One object for each `new`

A recorded frame names an object that is not constructed yet by the offset of the `new` that made
it.  In a loop one `new` makes many objects, and nothing removes the earlier ones from a frame when
it is executed again.  A constructor call still gives its class to copies of one object only, the one
that its `new` made last (`Layout.analyze_one_object_per_new`).

* `Objects` are the objects that the local variables and the stack hold along a path.  An object is
  named by the number of instructions that were executed before the `new` that made it.
* `Frame.Holds` relates the types of a frame to the objects in the same places.  A relation that says
  nothing of values but those that are not constructed is kept by every instruction
  (`Frame.Holds.after`), and by going over to a frame above (`Frame.Holds.below`).
* Where a `new` is recorded, its frame has none of its own objects
  (`Layout.LeastTyping.not_holds_own`).  This is so on the shortest way there, which did not
  execute the `new` before, and the recorded frame is above the one of that way.
-/

namespace EntityLoom

open EntityLoom.Frame (slotOf constructorName)

/-! ## The objects in the places of a frame -/

/-- The new objects that the local variables and the stack hold, topmost value first.  Where there is
another value, or an object from elsewhere, stands `none`. -/
structure Objects where
  locals : Nat → Option Nat
  stack : List (Option Nat)

namespace Objects

/-- Nothing new. -/
def nothing : Objects := ⟨fun _ => none, []⟩

def top (s : Objects) : Option Nat := s.stack.head?.join

def push (x : Option Nat) (s : Objects) : Objects := { s with stack := x :: s.stack }

def drop (n : Nat) (s : Objects) : Objects := { s with stack := s.stack.drop n }

/-- Writes to a slot, and over the next one if the value is wide. -/
def write (slot : Nat) (wide : Bool) (x : Option Nat) (s : Objects) : Objects :=
  { s with locals := fun k =>
      if k = slot then x else if wide ∧ k = slot + 1 then none else s.locals k }

/-- The objects after an instruction.  `step` is the number of instructions before it, and `answer`
is what a field or a call answers, which can be any object or none. -/
def after (step : Nat) (answer : Option Nat) (s : Objects) : Instruction → Objects
  | .mark _ => s
  | .simple op =>
    match op with
    | .aconstNull | .iconst0 | .iconst1 => s.push none
    | .dup => s.push s.top
    | .returnVoid => s
    | _ => s.drop 1
  | .var op slot =>
    if op.isLoad then s.push (s.locals slot.toNat)
    else (s.drop 1).write slot.toNat (op = .lstore ∨ op = .dstore) s.top
  | .field op _ =>
    match op with
    | .getfield => (s.drop 1).push answer
    | .putfield => s.drop 2
    | .getstatic => s.push answer
    | _ => s.drop 1
  | .invoke op r =>
    match r.methodType with
    | .error _ => s
    | .ok d =>
      let below := s.drop (d.params.length + if op = .invokestatic then 0 else 1)
      if d.result = .void then below else below.push answer
  | .type op _ =>
    match op with
    | .new => s.push (some step)
    | .checkcast => s
    | _ => (s.drop 1).push none
  | .ldcString _ => s.push none
  | .jump op _ =>
    match op with
    | .ifeq | .ifne | .ifnull | .ifnonnull => s.drop 1
    | .ifAcmpeq | .ifAcmpne => s.drop 2
    | _ => s

end Objects

/-! ## Types and objects in the same places -/

/-- A relation between types and objects that says nothing of a value, unless its type is that of an
object that a `new` made and that is not constructed. -/
def OfUninitialized (K : VerificationType → Option Nat → Prop) : Prop :=
  ∀ v x, (∀ o, v ≠ .uninitialized o) → K v x

namespace Frame

variable {K K' : VerificationType → Option Nat → Prop} {f f' g : Frame} {s : Objects}
  {v : VerificationType} {x : Option Nat} {thisClass : String} {index offset step : Nat}
  {answer : Option Nat} {u : Unit}

/-- A relation holds between the type and the object in every place. -/
structure Holds (K : VerificationType → Option Nat → Prop) (f : Frame) (s : Objects) : Prop where
  locals : ∀ k, K (slotOf f.locals k) (s.locals k)
  stack : List.Forall₂ K f.stack s.stack

/-- A relation goes over to one that says as much of the types in the frame. -/
theorem Holds.mono (h : f.Holds K s) {P : VerificationType → Prop}
    (hlocals : ∀ k, P (slotOf f.locals k)) (hstack : ∀ v ∈ f.stack, P v)
    (himp : ∀ v x, P v → K v x → K' v x) : f.Holds K' s :=
  ⟨fun k => himp _ _ (hlocals k) (h.locals k),
    ((List.forall₂_and_left _ _).2 ⟨hstack, h.stack⟩).imp fun _ _ hv => himp _ _ hv.1 hv.2⟩

/-- A frame above says as much of objects that are not constructed, or less. -/
theorem Holds.below (hK : OfUninitialized K) (h : f.Holds K s) (hfg : f.Below g) : g.Holds K s := by
  have hgo : ∀ v w x, v.Below w → K v x → K w x := by
    intro v w x hvw hv
    by_cases hw : ∃ o, w = .uninitialized o
    · obtain ⟨o, rfl⟩ := hw
      exact VerificationType.eq_of_below hvw (by simp) (by simp) ▸ hv
    · exact hK w x fun o e => hw ⟨o, e⟩
  refine ⟨fun k => hgo _ _ _ (hfg.locals k) (h.locals k), ?_⟩
  have hflip : List.Forall₂ (fun w v => v.Below w) g.stack f.stack := hfg.stack.flip
  refine (List.forall₂_iff_get.2 ⟨hflip.length_eq.trans h.stack.length_eq, fun i hg hs => ?_⟩)
  have hf : i < f.stack.length := hflip.length_eq ▸ hg
  exact hgo _ _ _ (hfg.stack.get hf hg) (h.stack.get hf hs)

theorem Holds.push (h : f.Holds K s) (hv : K v x) :
    ({ f with stack := v :: f.stack } : Frame).Holds K (s.push x) :=
  ⟨h.locals, .cons hv h.stack⟩

theorem Holds.drop (h : f.Holds K s) (vs : List VerificationType)
    (hstack : f.stack = vs ++ f'.stack) (hlocals : f'.locals = f.locals) :
    f'.Holds K (s.drop vs.length) := by
  refine ⟨hlocals ▸ h.locals, ?_⟩
  have hdrop := List.forall₂_drop vs.length h.stack
  rwa [hstack, List.drop_left] at hdrop

theorem Holds.drop_one (h : f.Holds K s) (hpop : f.stack = v :: f'.stack ∧ f'.locals = f.locals) :
    f'.Holds K (s.drop 1) :=
  h.drop [v] hpop.1 hpop.2

theorem Holds.drop_two {w : VerificationType} (h : f.Holds K s)
    (hpop : f.stack = v :: g.stack ∧ g.locals = f.locals)
    (hpop' : g.stack = w :: f'.stack ∧ f'.locals = g.locals) : f'.Holds K (s.drop 2) :=
  h.drop [v, w] (by rw [hpop.1, hpop'.1]; rfl) (hpop'.2.trans hpop.2)

theorem Holds.top (h : f.Holds K s) (hstack : f.stack = v :: f'.stack) : K v s.top := by
  have hs := h.stack
  rw [hstack] at hs
  obtain ⟨x, xs, hx, -, heq⟩ := List.forall₂_cons_left_iff.1 hs
  rw [Objects.top, heq]
  exact hx

/-! ## What instructions keep -/

theorem ofDescriptor_ne_uninitialized (d : Descriptor) (o : UInt16) :
    VerificationType.ofDescriptor d ≠ .uninitialized o := by
  cases d <;> simp [VerificationType.ofDescriptor]

theorem holds_executeSimple (hK : OfUninitialized K) (h : f.Holds K s) {op : Opcode}
    (hrun : (executeSimple index op).run f = .ok (u, f')) :
    f'.Holds K (s.after step answer (.simple op)) := by
  have hconst : ∀ {v}, (∀ o, v ≠ VerificationType.uninitialized o) →
      (Frame.push v).run f = .ok (u, f') → f'.Holds K (s.push none) := by
    intro v hv hpush
    rw [push_eq_ok.1 hpush]
    exact h.push (hK _ _ hv)
  have hpopped : ∀ {e}, (do let _ ← popExpecting index e : FrameAction Unit).run f = .ok (u, f') →
      f'.Holds K (s.drop 1) := by
    intro e hpop
    simp only [run_bind_eq_ok, popExpecting_eq_ok, run_pure_eq_ok] at hpop
    obtain ⟨v, g, ⟨-, hpop⟩, -, rfl⟩ := hpop
    exact h.drop_one hpop
  have hdeclared : ∀ {d}, (popDeclared index d).run f = .ok (u, f') → f'.Holds K (s.drop 1) := by
    intro d hpop
    obtain ⟨v, -, hpop⟩ := popDeclared_eq_ok.1 hpop
    exact h.drop_one hpop
  unfold executeSimple at hrun
  split at hrun
  · exact hconst (by simp) hrun
  · exact hconst (by simp) hrun
  · exact hconst (by simp) hrun
  · exact hpopped hrun
  · simp only [run_bind_eq_ok, popExpecting_eq_ok, push_eq_ok] at hrun
    obtain ⟨v, g, ⟨-, hstack, hlocals⟩, -, g', rfl, rfl⟩ := hrun
    have hv := h.top hstack
    have hf : f = { g with stack := v :: g.stack } := by
      obtain ⟨locals, stack⟩ := f
      exact congr (congrArg Frame.mk hlocals.symm) hstack
    exact (hf ▸ h).push hv
  · exact hpopped hrun
  · exact hpopped hrun
  · exact hdeclared hrun
  · exact hdeclared hrun
  · exact hdeclared hrun
  · exact hdeclared hrun
  · obtain ⟨-, rfl⟩ := run_pure_eq_ok.1 hrun
    exact h
  · exact absurd hrun run_throw_ne_ok

theorem holds_executeField (hK : OfUninitialized K) (h : f.Holds K s) {op : Opcode} {r : MemberRef}
    (hrun : (executeField index op r).run f = .ok (u, f')) :
    f'.Holds K (s.after step answer (.field op r)) := by
  unfold executeField at hrun
  obtain ⟨d, g, hd, hrun⟩ := run_bind_eq_ok.1 hrun
  obtain ⟨-, rfl⟩ := run_lift_eq_ok.1 hd
  have hanswer : K (.ofDescriptor d) answer := hK _ _ (ofDescriptor_ne_uninitialized d)
  split at hrun
  · simp only [run_bind_eq_ok, popExpecting_eq_ok, push_eq_ok] at hrun
    obtain ⟨v, g, ⟨-, hpop⟩, rfl⟩ := hrun
    exact (h.drop_one hpop).push hanswer
  · simp only [run_bind_eq_ok, popExpecting_eq_ok, popDeclared_eq_ok, run_pure_eq_ok] at hrun
    obtain ⟨-, g, ⟨v, -, hpop⟩, w, g', ⟨-, hpop'⟩, -, rfl⟩ := hrun
    exact h.drop_two hpop hpop'
  · rw [push_eq_ok.1 hrun]
    exact h.push hanswer
  · next hget hput hstatic =>
    obtain ⟨v, -, hpop⟩ := popDeclared_eq_ok.1 hrun
    have hafter : s.after step answer (.field op r) = s.drop 1 := by
      unfold Objects.after
      split <;> simp_all
    rw [hafter]
    exact h.drop_one hpop

theorem holds_replace (hK : OfUninitialized K) (h : f.Holds K s) {old : VerificationType}
    (hold : old ≠ .top) (name : String) : (replace old (.object name) f).Holds K s := by
  have hswap : ∀ v x, K v x → K (if v = old then .object name else v) x := by
    intro v x hv
    split
    · exact hK _ _ (by simp)
    · exact hv
  refine ⟨fun k => ?_, ?_⟩
  · have hslot : slotOf (replace old (.object name) f).locals k =
        if slotOf f.locals k = old then .object name else slotOf f.locals k :=
      slotOf_map (g := fun v => if v = old then .object name else v) (if_neg (Ne.symm hold)) k
    exact hslot ▸ hswap _ _ (h.locals k)
  · exact List.forall₂_map_left_iff.2 (h.stack.imp hswap)

/-- The parts of a call that was executed: it took its arguments, then its receiver, and left its
result. -/
theorem executeInvoke_parts {op : Opcode} {r : MemberRef}
    (h : (executeInvoke thisClass index op r).run f = .ok (u, f')) :
    ∃ d vs f₁ f₂, r.methodType = .ok d ∧ f.stack = vs ++ f₁.stack ∧ vs.length = d.params.length ∧
      f₁.locals = f.locals ∧ (popReceiver thisClass index op r).run f₁ = .ok (u, f₂) ∧
      f' = if d.result = .void then f₂
        else { f₂ with stack := .ofDescriptor d.result :: f₂.stack } := by
  unfold executeInvoke at h
  obtain ⟨d, f₀, hlift, h⟩ := run_bind_eq_ok.1 h
  obtain ⟨hd, rfl⟩ := run_lift_eq_ok.1 hlift
  obtain ⟨_, f₁, hparams, h⟩ := run_bind_eq_ok.1 h
  obtain ⟨_, f₂, hreceiver, hresult⟩ := run_bind_eq_ok.1 h
  obtain ⟨vs, hstack, hlength, -⟩ := knows_of_forM_popDeclared hparams
  rw [List.length_reverse] at hlength
  refine ⟨d, vs, f₁, f₂, hd, hstack, hlength, (forM_popDeclared_eq_ok hparams).1, hreceiver, ?_⟩
  unfold pushResult at hresult
  split at hresult
  · next hvoid =>
    rw [if_pos hvoid]
    exact (run_pure_eq_ok.1 hresult).2.symm
  · next hvoid =>
    rw [if_neg hvoid]
    exact push_eq_ok.1 hresult

/-- What a call makes of its receiver: it takes it, and a constructor call gives its class to
everything of its type. -/
theorem popReceiver_parts {op : Opcode} {r : MemberRef} (hop : op ≠ .invokestatic)
    (h : (popReceiver thisClass index op r).run f = .ok (u, f')) :
    ∃ v g, f.stack = v :: g.stack ∧ g.locals = f.locals ∧
      if r.name = constructorName then
        ∃ name, constructedClass? thisClass r.owner v = some name ∧ f' = replace v (.object name) g
      else f' = g := by
  obtain ⟨v, g, -, hstack, hlocals, h⟩ := (popReceiver_eq_ok hop).1 h
  refine ⟨v, g, hstack, hlocals, ?_⟩
  unfold construct at h
  split at h
  · next hname =>
    rw [if_pos hname]
    split at h
    · next name hclass => exact ⟨name, hclass, modify_eq_ok.1 h⟩
    · exact absurd h run_throw_ne_ok
  · next hname =>
    rw [if_neg hname]
    exact (run_pure_eq_ok.1 h).2.symm

theorem holds_executeInvoke (hK : OfUninitialized K) (h : f.Holds K s) {op : Opcode} {r : MemberRef}
    (hrun : (executeInvoke thisClass index op r).run f = .ok (u, f')) :
    f'.Holds K (s.after step answer (.invoke op r)) := by
  obtain ⟨d, vs, f₁, f₂, hd, hstack, hlength, hlocals, hreceiver, hf'⟩ := executeInvoke_parts hrun
  have hbelow : f₂.Holds K (s.drop (d.params.length + if op = .invokestatic then 0 else 1)) := by
    by_cases hop : op = .invokestatic
    · subst hop
      obtain rfl : f₁ = f₂ := by
        unfold popReceiver at hreceiver
        exact (run_pure_eq_ok.1 hreceiver).2
      rw [if_pos rfl, Nat.add_zero, ← hlength]
      exact h.drop vs hstack hlocals
    · obtain ⟨v, g, hstack₁, hlocals₁, hg⟩ := popReceiver_parts hop hreceiver
      have htaken : (vs ++ [v]).length = d.params.length + 1 := by simp [hlength]
      have hgholds : g.Holds K (s.drop (d.params.length + 1)) := by
        rw [← htaken]
        exact h.drop (vs ++ [v]) (by rw [hstack, hstack₁]; simp) (hlocals₁.trans hlocals)
      rw [if_neg hop]
      split at hg
      · obtain ⟨name, hclass, rfl⟩ := hg
        refine holds_replace hK hgholds ?_ name
        rintro rfl
        simp [constructedClass?] at hclass
      · exact hg ▸ hgholds
  have hafter : s.after step answer (.invoke op r) =
      if d.result = .void then s.drop (d.params.length + if op = .invokestatic then 0 else 1)
      else (s.drop (d.params.length + if op = .invokestatic then 0 else 1)).push answer := by
    unfold Objects.after
    simp only [hd]
  rw [hafter, hf']
  split
  · exact hbelow
  · exact hbelow.push (hK _ _ (ofDescriptor_ne_uninitialized _))

theorem holds_executeType (hK : OfUninitialized K) (h : f.Holds K s) {op : Opcode} {name : String}
    (hnew : op = .new → offset < 0x10000 → K (.uninitialized (UInt16.ofNat offset)) (some step))
    (hrun : (executeType index offset op name).run f = .ok (u, f')) :
    f'.Holds K (s.after step answer (.type op name)) := by
  unfold executeType at hrun
  split at hrun
  · split at hrun
    · next hlt =>
      rw [push_eq_ok.1 hrun]
      exact h.push (hnew rfl hlt)
    · exact absurd hrun run_throw_ne_ok
  · simp only [run_bind_eq_ok, popExpecting_eq_ok, push_eq_ok] at hrun
    obtain ⟨v, g, ⟨-, hstack, hlocals⟩, rfl⟩ := hrun
    -- The object stays where it is and gets another type.
    have hs := h.stack
    rw [hstack] at hs
    obtain ⟨x, xs, -, hxs, heq⟩ := List.forall₂_cons_left_iff.1 hs
    refine ⟨fun k => ?_, ?_⟩
    · exact hlocals ▸ h.locals k
    · show List.Forall₂ K (.object name :: g.stack) s.stack
      rw [heq]
      exact .cons (hK _ _ (by simp)) hxs
  · next hnew hcast =>
    simp only [run_bind_eq_ok, popExpecting_eq_ok, push_eq_ok] at hrun
    obtain ⟨v, g, ⟨-, hpop⟩, rfl⟩ := hrun
    have hafter : s.after step answer (.type op name) = (s.drop 1).push none := by
      unfold Objects.after
      split <;> simp_all
    rw [hafter]
    exact (h.drop_one hpop).push (hK _ _ (by simp))

theorem holds_executeJump (h : f.Holds K s) {op : Opcode} {label : Label}
    (hrun : (executeJump index op).run f = .ok (u, f')) :
    f'.Holds K (s.after step answer (.jump op label)) := by
  unfold executeJump at hrun
  split at hrun
  · obtain ⟨v, -, hpop⟩ := popDeclared_eq_ok.1 hrun
    exact h.drop_one hpop
  · obtain ⟨v, -, hpop⟩ := popDeclared_eq_ok.1 hrun
    exact h.drop_one hpop
  · simp only [run_bind_eq_ok, popExpecting_eq_ok, run_pure_eq_ok] at hrun
    obtain ⟨v, g, ⟨-, hpop⟩, w, g', ⟨-, hpop'⟩, -, rfl⟩ := hrun
    exact h.drop_two hpop hpop'
  · simp only [run_bind_eq_ok, popExpecting_eq_ok, run_pure_eq_ok] at hrun
    obtain ⟨v, g, ⟨-, hpop⟩, w, g', ⟨-, hpop'⟩, -, rfl⟩ := hrun
    exact h.drop_two hpop hpop'
  · simp only [run_bind_eq_ok, popExpecting_eq_ok, run_pure_eq_ok] at hrun
    obtain ⟨v, g, ⟨-, hpop⟩, -, rfl⟩ := hrun
    exact h.drop_one hpop
  · simp only [run_bind_eq_ok, popExpecting_eq_ok, run_pure_eq_ok] at hrun
    obtain ⟨v, g, ⟨-, hpop⟩, -, rfl⟩ := hrun
    exact h.drop_one hpop
  · obtain ⟨-, rfl⟩ := run_pure_eq_ok.1 hrun
    have hafter : s.after step answer (.jump op label) = s := by
      unfold Objects.after
      split <;> simp_all
    rw [hafter]
    exact h

/-- What a store writes, and where it writes over the second slot of a wide value. -/
theorem holds_write (hK : OfUninitialized K) (h : f.Holds K s) (slot : Nat) {wide : Bool}
    (hv : K v x) (hwide : wide = true → v.isWide = true) :
    ({ f with locals := write slot v f.locals } : Frame).Holds K (s.write slot wide x) := by
  refine ⟨fun k => ?_, h.stack⟩
  have hslot := slotOf_write slot v f.locals k
  unfold Objects.write
  dsimp only
  rw [hslot]
  by_cases hk : k = slot
  · rw [if_pos hk, if_pos hk]
    exact hv
  · rw [if_neg hk, if_neg hk]
    split
    · exact hK _ _ (by simp)
    · next hkeep =>
      rw [if_neg fun hnext => hkeep (.inl ⟨hwide hnext.1, hnext.2⟩)]
      exact h.locals k

/-- An instruction keeps what a relation says of objects that are not constructed, if the relation
says it of the object that a `new` makes. -/
theorem Holds.after (hK : OfUninitialized K) (h : f.Holds K s) {ins : Instruction}
    (hnew : ∀ name, ins = .type .new name → offset < 0x10000 →
      K (.uninitialized (UInt16.ofNat offset)) (some step))
    (hafter : f.after thisClass index offset ins = .ok f') (answer : Option Nat) :
    f'.Holds K (s.after step answer ins) := by
  obtain ⟨u, hu⟩ := after_eq_ok.1 hafter
  unfold execute at hu
  split at hu
  · obtain ⟨-, rfl⟩ := run_pure_eq_ok.1 hu
    exact h
  · exact holds_executeSimple hK h hu
  · next op slot =>
    unfold Objects.after
    dsimp only
    split at hu
    · next hload =>
      rw [if_pos hload, (load_eq_ok.1 hu).2]
      exact h.push (h.locals _)
    · next hload =>
      obtain ⟨v, hacc, hstack, hlocals⟩ := store_eq_ok.1 hu
      rw [if_neg hload]
      have hpopped : ({ f' with locals := f.locals } : Frame).Holds K (s.drop 1) :=
        h.drop_one ⟨hstack, rfl⟩
      have hwide : decide (op = .lstore ∨ op = .dstore) = true → v.isWide = true := by
        intro hop
        refine Layout.isWide_of_accepts ?_ hacc
        simpa using Or.inr (Or.inr (of_decide_eq_true hop))
      have hwritten := holds_write hK hpopped slot.toNat (h.top hstack) hwide
      have hf' : f' = { f' with locals := write slot.toNat v f.locals } := by
        rw [← hlocals]
      rw [hf']
      exact hwritten
  · exact holds_executeField hK h hu
  · exact holds_executeInvoke hK h hu
  · next op name => exact holds_executeType hK h (fun hop => hnew name (by rw [hop])) hu
  · rw [push_eq_ok.1 hu]
    exact h.push (hK _ _ (by simp))
  · exact holds_executeJump h hu

end Frame

namespace Layout

open EntityLoom.Frame (Holds)

variable {body : Layout} {entry : Frame} {frames : Nat → Option Frame}
  {K : VerificationType → Option Nat → Prop} {visited : List Nat} {i j t t' : Nat} {o o' : UInt16}
  {s : Objects}

/-! ## Runs -/

/-- A `new` stands at a place, and its bytes start at an offset. -/
def Creates (body : Layout) (i : Nat) (o : UInt16) : Prop :=
  ∃ name, body.instructions[i]? = some (.type .new name) ∧ body.offsets.getD i 0 = o.toNat

/-- No offset is that of two `new`s. -/
def OffsetsApart (body : Layout) : Prop :=
  ∀ i j o, body.Creates i o → body.Creates j o → i = j

/-- Control can arrive at a place with the given objects, after it went through the given places. -/
inductive Traces (body : Layout) : List Nat → Nat → Objects → Prop
  | start : Traces body [] 0 .nothing
  | step {visited : List Nat} {i j : Nat} {s : Objects} {ins : Instruction}
    (trace : Traces body visited i s) (at_ : body.instructions[i]? = some ins)
    (edge : body.Edge i j) (answer : Option Nat) :
    Traces body (visited ++ [i]) j (s.after visited.length answer ins)

/-- An object is the last one that the `new` at an offset made. -/
structure Newest (body : Layout) (visited : List Nat) (o : UInt16) (t : Nat) : Prop where
  made : ∃ i, visited[t]? = some i ∧ body.Creates i o
  last : ∀ t' i, t < t' → visited[t']? = some i → ¬body.Creates i o

/-- A type that names the `new` at an offset stands for the last object that was made there. -/
def NamesNewest (body : Layout) (visited : List Nat) (v : VerificationType) (x : Option Nat) : Prop :=
  ∀ o, v = .uninitialized o → ∃ t, x = some t ∧ body.Newest visited o t

theorem Creates.offset_eq (h : body.Creates i o) (h' : body.Creates i o') : o = o' := by
  obtain ⟨-, -, ho⟩ := h
  obtain ⟨-, -, ho'⟩ := h'
  exact UInt16.toNat_inj.1 (ho.symm.trans ho')

theorem Newest.unique (h : body.Newest visited o t) (h' : body.Newest visited o t') : t = t' := by
  obtain ⟨i, hi, hcreates⟩ := h.made
  obtain ⟨i', hi', hcreates'⟩ := h'.made
  by_contra hne
  rcases Nat.lt_or_gt_of_ne hne with hlt | hlt
  · exact h.last t' i' hlt hi' hcreates'
  · exact h'.last t i hlt hi hcreates

/-- An object stays the last one where another instruction is executed. -/
theorem Newest.append (h : body.Newest visited o t) (hi : ¬body.Creates i o) :
    body.Newest (visited ++ [i]) o t := by
  obtain ⟨i', hi', hcreates⟩ := h.made
  have hlt : t < visited.length := (List.getElem?_eq_some_iff.1 hi').1
  refine ⟨⟨i', ?_, hcreates⟩, fun t' k hlater hk => ?_⟩
  · rw [List.getElem?_append_left hlt]
    exact hi'
  · by_cases hbefore : t' < visited.length
    · rw [List.getElem?_append_left hbefore] at hk
      exact h.last t' k hlater hk
    · rw [List.getElem?_append_right (Nat.le_of_not_lt hbefore)] at hk
      obtain rfl : k = i := by
        have hmem := List.mem_of_getElem? hk
        simpa using hmem
      exact hi

theorem newest_append_self (h : body.Creates i o) :
    body.Newest (visited ++ [i]) o visited.length := by
  refine ⟨⟨i, by simp, h⟩, fun t' k hlater hk => ?_⟩
  have hlt := (List.getElem?_eq_some_iff.1 hk).1
  rw [List.length_append, List.length_singleton] at hlt
  omega

theorem namesNewest_ofUninitialized (body : Layout) (visited : List Nat) :
    OfUninitialized (body.NamesNewest visited) :=
  fun _ _ hv o ho => absurd ho (hv o)

/-- A run goes along a path, and every path can be run. -/
theorem exists_traces_iff : (∃ s, body.Traces visited i s) ↔ body.Path visited i := by
  constructor
  · rintro ⟨s, htrace⟩
    induction htrace with
    | start => exact .start
    | step _ _ hedge _ ih => exact .step ih hedge
  · intro hpath
    induction hpath with
    | start => exact ⟨_, .start⟩
    | step _ hedge ih =>
      obtain ⟨s, htrace⟩ := ih
      obtain ⟨ins, hins⟩ := hedge.instruction
      exact ⟨_, .step htrace hins hedge none⟩

/-- An executed instruction keeps what a relation says of objects that are not constructed. -/
theorem holds_executeAt {f f' : Frame} {ins : Instruction} (hK : OfUninitialized K)
    (h : f.Holds K s) (hins : body.instructions[i]? = some ins) {step : Nat}
    (hnew : ∀ o, body.Creates i o → K (.uninitialized o) (some step))
    (hexecute : body.executeAt f i = .ok f') (answer : Option Nat) :
    f'.Holds K (s.after step answer ins) := by
  unfold executeAt at hexecute
  rw [hins] at hexecute
  refine h.after hK (fun name hname hlt => hnew _ ⟨name, hname ▸ hins, ?_⟩) hexecute answer
  rw [UInt16.toNat_ofNat']
  exact (Nat.mod_eq_of_lt hlt).symm

/-- What a relation says of the objects that are made on a path holds at its end. -/
theorem Traces.holds (htrace : body.Traces visited i s) (hK : OfUninitialized K)
    (hentry : entry.Holds K .nothing)
    (hnew : ∀ t j o, visited[t]? = some j → body.Creates j o → K (.uninitialized o) (some t))
    {f : Frame} (hf : body.executeAlong entry visited = .ok f) : f.Holds K s := by
  induction htrace generalizing f with
  | start =>
    obtain rfl := Except.ok.inj hf
    exact hentry
  | @step visited i j s ins _ hins _ answer ih =>
    obtain ⟨g, hg, hexecute⟩ := exists_executeAlong_of_append_singleton hf
    have hbefore := ih (fun t k o hk => hnew t k o (by
      rw [List.getElem?_append_left (List.getElem?_eq_some_iff.1 hk).1]
      exact hk)) hg
    exact holds_executeAt hK hbefore hins (fun o => hnew visited.length i o (by simp)) hexecute
      answer

/-! ## A `new` finds none of its own objects -/

/-- A place on a path is reached by one that did not come there before. -/
theorem Path.exists_first (h : body.Path visited i) :
    ∀ j ∈ visited ++ [i], ∃ first, body.Path first j ∧ j ∉ first := by
  induction h with
  | start =>
    intro j hj
    obtain rfl : j = 0 := by simpa using hj
    exact ⟨[], .start, List.not_mem_nil⟩
  | @step visited i k hpath hedge ih =>
    intro j hj
    rcases List.mem_append.1 hj with hj | hj
    · exact ih j hj
    · obtain rfl := List.mem_singleton.1 hj
      by_cases hmem : j ∈ visited ++ [i]
      · exact ih j hmem
      · exact ⟨_, .step hpath hedge, hmem⟩

/-- The frame recorded at a `new` has none of the objects that it made before. -/
theorem LeastTyping.not_holds_own (h : body.LeastTyping entry frames) (hapart : body.OffsetsApart)
    (hentry : ∀ o, entry.Holds (fun v _ => v ≠ .uninitialized o) .nothing)
    (hcreates : body.Creates i o) {g : Frame} (hg : frames i = some g) :
    .uninitialized o ∉ g.locals ∧ .uninitialized o ∉ g.stack := by
  obtain ⟨visited, hpath⟩ := (h.reached i).1 ⟨g, hg⟩
  obtain ⟨first, hfirst, hmem⟩ := hpath.exists_first i (by simp)
  obtain ⟨s, htrace⟩ := exists_traces_iff.2 hfirst
  obtain ⟨f, g', hf, hg', hbelow⟩ := h.typed.executeAlong_below hfirst
  obtain rfl := Option.some.inj (hg.symm.trans hg')
  have hK : OfUninitialized fun v _ => v ≠ .uninitialized o := fun v _ hv => hv o
  have hnew : ∀ (t j : Nat) (o' : UInt16), first[t]? = some j → body.Creates j o' →
      VerificationType.uninitialized o' ≠ .uninitialized o := by
    intro t j o' hj hcreates' e
    obtain rfl := VerificationType.uninitialized.inj e
    obtain rfl := hapart _ _ _ hcreates hcreates'
    exact hmem (List.mem_of_getElem? hj)
  have hholds := (htrace.holds hK (hentry o) hnew hf).below hK hbelow
  refine ⟨fun hlocals => ?_, fun hstack => ?_⟩
  · obtain ⟨k, hk⟩ := (Frame.mem_iff_exists_slotOf (by simp)).1 hlocals
    exact hholds.locals k hk
  · obtain ⟨x, -, hne⟩ := exists_mem_of_forall₂ hholds.stack.flip hstack
    exact hne rfl

/-- Wherever a run arrives, the recorded frame names the newest objects only. -/
theorem LeastTyping.holds_newest (h : body.LeastTyping entry frames) (hapart : body.OffsetsApart)
    (hentry : ∀ k o, slotOf entry.locals k ≠ .uninitialized o) (hstack : entry.stack = [])
    (htrace : body.Traces visited i s) :
    ∃ g, frames i = some g ∧ g.Holds (body.NamesNewest visited) s := by
  have hnothing : ∀ {K}, OfUninitialized K → entry.Holds K .nothing := by
    intro K hK
    refine ⟨fun k => hK _ _ (hentry k), ?_⟩
    rw [hstack]
    exact .nil
  induction htrace with
  | start =>
    obtain ⟨g, hg, hbelow⟩ := h.typed.entry
    have hK := namesNewest_ofUninitialized body []
    exact ⟨g, hg, (hnothing hK).below hK hbelow⟩
  | @step visited i j s ins _ hins hedge answer ih =>
    obtain ⟨g, hg, hholds⟩ := ih
    obtain ⟨g', g'', hexecute, -, hrefl, hgoes⟩ := h.typed.executeAt_below hg (Frame.Below.refl g)
    obtain ⟨k, hk, hbelow⟩ := hgoes j hedge
    have hK := namesNewest_ofUninitialized body (visited ++ [i])
    -- Objects of the instruction itself are not in its frame, so all others are still the newest.
    have hown : ∀ o, body.Creates i o →
        .uninitialized o ∉ g.locals ∧ .uninitialized o ∉ g.stack :=
      fun o hcreates => h.not_holds_own hapart
        (fun o => ⟨fun k => hentry k o, by rw [hstack]; exact .nil⟩) hcreates hg
    have hkept : g.Holds (body.NamesNewest (visited ++ [i])) s := by
      refine hholds.mono (P := fun v => ∀ o, body.Creates i o → v ≠ .uninitialized o)
        (fun k o hcreates e =>
          (hown o hcreates).1 ((Frame.mem_iff_exists_slotOf (by simp)).2 ⟨k, e⟩))
        (fun v hv o hcreates e => (hown o hcreates).2 (e ▸ hv)) fun v x hv hx o ho => ?_
      obtain ⟨t, ht, hnewest⟩ := hx o ho
      exact ⟨t, ht, hnewest.append fun hcreates => hv o hcreates ho⟩
    have hnew : ∀ o, body.Creates i o →
        body.NamesNewest (visited ++ [i]) (.uninitialized o) (some visited.length) := by
      intro o hcreates o' ho
      obtain rfl := VerificationType.uninitialized.inj ho
      exact ⟨_, rfl, newest_append_self hcreates⟩
    have hafter := holds_executeAt hK hkept hins hnew hexecute answer
    exact ⟨k, hk, hafter.below hK (hrefl.trans hbelow)⟩

/-! ## Constructor calls -/

/-- The type of a value after the objects that the `new` at an offset made got their class. -/
def constructedAs (o : UInt16) (name : String) (v : VerificationType) : VerificationType :=
  if v = .uninitialized o then .object name else v

/-- What a constructor call does that is made on an object of the `new` at an offset: its receiver is
the object that was made there last, it gives its class to everything of the type of its receiver,
and each place that gets the class holds that object. -/
structure Constructs (body : Layout) (visited : List Nat) (s : Objects) (r : MemberRef)
    (d : MethodDescriptor) (o : UInt16) (t : Nat) (g g' : Frame) : Prop where
  newest : body.Newest visited o t
  receiver : s.stack[d.params.length]? = some (some t)
  locals : g'.locals = g.locals.map (constructedAs o r.owner)
  stack : ∃ result, g'.stack =
    result ++ (g.stack.drop (d.params.length + 1)).map (constructedAs o r.owner)
  localCopies : ∀ k, slotOf g.locals k = .uninitialized o → s.locals k = some t
  stackCopies : ∀ k : Nat, g.stack[k]? = some (.uninitialized o) → s.stack[k]? = some (some t)

theorem constructs_of_holds {g g' : Frame} (hholds : g.Holds (body.NamesNewest visited) s)
    {op : Opcode} {r : MemberRef} {d : MethodDescriptor}
    (hins : body.instructions[i]? = some (.invoke op r)) (hop : op ≠ .invokestatic)
    (hname : r.name = constructorName) (hd : r.methodType = .ok d)
    (hreceiver : g.stack[d.params.length]? = some (.uninitialized o))
    (hexecute : body.executeAt g i = .ok g') :
    ∃ t, body.Constructs visited s r d o t g g' := by
  have hstackObject : ∀ k : Nat, g.stack[k]? = some (.uninitialized o) →
      ∃ t, s.stack[k]? = some (some t) ∧ body.Newest visited o t := by
    intro k hk
    obtain ⟨hlt, hget⟩ := List.getElem?_eq_some_iff.1 hk
    have hlt' : k < s.stack.length := hholds.stack.length_eq ▸ hlt
    obtain ⟨t, ht, hnewest⟩ := hholds.stack.get hlt hlt' o hget
    exact ⟨t, (List.getElem?_eq_getElem hlt').trans (congrArg some ht), hnewest⟩
  obtain ⟨t, ht, hnewest⟩ := hstackObject _ hreceiver
  unfold executeAt at hexecute
  rw [hins] at hexecute
  obtain ⟨u, hrun⟩ := Frame.after_eq_ok.1 hexecute
  obtain ⟨d', vs, f₁, f₂, hd', hstack, hlength, hlocals, hpop, hg'⟩ :=
    Frame.executeInvoke_parts hrun
  obtain rfl := Except.ok.inj (hd.symm.trans hd')
  obtain ⟨v, f₃, hstack₁, hlocals₁, hreplaced⟩ := Frame.popReceiver_parts hop hpop
  rw [if_pos hname] at hreplaced
  obtain ⟨name, hclass, rfl⟩ := hreplaced
  obtain rfl : v = .uninitialized o := by
    rw [hstack, hstack₁, ← hlength, List.getElem?_append_right (Nat.le_refl _),
      Nat.sub_self] at hreceiver
    exact Option.some.inj hreceiver
  obtain rfl : r.owner = name := Option.some.inj hclass
  have hdrop : g.stack.drop (d.params.length + 1) = f₃.stack := by
    rw [hstack, hstack₁, ← hlength, List.drop_length_add_append]
    rfl
  refine ⟨t, hnewest, ht, ?_, ?_, fun k hk => ?_, fun k hk => ?_⟩
  · rw [← hlocals, ← hlocals₁, hg']
    split <;> rfl
  · rw [hdrop, hg']
    split
    · exact ⟨[], rfl⟩
    · exact ⟨[_], rfl⟩
  · obtain ⟨t', ht', hnewest'⟩ := hholds.locals k o hk
    rw [ht', hnewest.unique hnewest']
  · obtain ⟨t', ht', hnewest'⟩ := hstackObject k hk
    rw [ht', hnewest.unique hnewest']

/-! ## Bodies that were laid out -/

/-- No two instructions that take bytes start at the same offset. -/
theorem offsetsApart_of_plan {xs : List (Instruction × UInt16)} {plan : Assembly.Plan}
    (h : Assembly.plan xs = .ok plan) (thisClass : String) :
    (plan.layout thisClass).OffsetsApart := by
  have hzip : (xs.map Prod.fst).zip (xs.map Prod.snd) = xs := by
    rw [← List.unzip_fst, ← List.unzip_snd, List.zip_unzip]
  have hlays : plan.Lays (xs.map Prod.fst) (Assembly.offsetOf xs) := by
    have hplan := @Assembly.Plan.lays_of_plan (xs.map Prod.fst) (xs.map Prod.snd) plan (by simp)
      (by rwa [hzip])
    rwa [hzip] at hplan
  have hlt : ∀ i j o o', (plan.layout thisClass).Creates i o → (plan.layout thisClass).Creates j o' →
      i < j → o.toNat < o'.toNat := by
    rintro i j o o' ⟨name, hi, ho⟩ ⟨name', hj, ho'⟩ hij
    rw [hlays.getElem?] at hi hj
    have hoffset : ∀ {k ins}, (xs.map Prod.fst)[k]? = some ins →
        (plan.layout thisClass).offsets.getD k 0 = Assembly.offsetOf xs k := by
      intro k ins hk
      rw [Array.getD_eq_getD_getElem?, hlays.offset_eq (List.getElem?_eq_some_iff.1 hk).1]
      rfl
    rw [hoffset hi] at ho
    rw [hoffset hj] at ho'
    rw [List.getElem?_map, Option.map_eq_some_iff] at hi
    obtain ⟨x, hx, hfst⟩ := hi
    have hnext := Assembly.offsetOf_succ hx
    rw [hfst] at hnext
    have hlength : (Instruction.type .new name).encodedLength x.2 = 3 := rfl
    have hnear := (hlays.near (i + 1) (j - (i + 1))).1
    rw [Nat.add_sub_cancel' hij] at hnear
    omega
  intro i j o hi hj
  by_contra hne
  rcases Nat.lt_or_gt_of_ne hne with hij | hij
  · exact Nat.lt_irrefl _ (hlt i j o o hi hj hij)
  · exact Nat.lt_irrefl _ (hlt j i o o hj hi hij)

theorem entry_ne_uninitialized (owner method : String) (isStatic : Bool) (d : MethodDescriptor)
    (k : Nat) (o : UInt16) :
    slotOf (Frame.entry owner method isStatic d).locals k ≠ .uninitialized o := by
  intro hslot
  have hmem : VerificationType.uninitialized o ∈ (Frame.entry owner method isStatic d).locals :=
    (Frame.mem_iff_exists_slotOf (by simp)).2 ⟨k, hslot⟩
  unfold Frame.entry Frame.receiver at hmem
  rcases List.mem_append.1 hmem with hmem | hmem
  · revert hmem
    split
    · simp
    · split <;> simp
  · obtain ⟨p, -, hp⟩ := List.mem_flatMap.1 hmem
    have hne := Frame.ofDescriptor_ne_uninitialized p o
    unfold Frame.valueSlots at hp
    split at hp
    · rcases List.mem_cons.1 hp with e | hp
      · exact hne e.symm
      · exact absurd (List.mem_singleton.1 hp) (by simp)
    · exact hne (List.mem_singleton.1 hp).symm

/-- In a body that was laid out and analyzed, the frame recorded at each `new` has none of the
objects that the `new` made before.  So wherever a run arrives, the types of the recorded frame that
name the `new` at an offset stand for one object, the one that was made there last, and a constructor
call gives its class to copies of this object only. -/
theorem analyze_one_object_per_new {xs : List (Instruction × UInt16)} {plan : Assembly.Plan}
    {owner method : String} {isStatic : Bool} {d : MethodDescriptor} {a : Analysis}
    (hplan : Assembly.plan xs = .ok plan)
    (h : (plan.layout owner).analyze (Frame.entry owner method isStatic d) = .ok a) :
    (∀ i o, (plan.layout owner).Creates i o → ∃ g, a.frameAt i = some g ∧
      .uninitialized o ∉ g.locals ∧ .uninitialized o ∉ g.stack) ∧
    ∀ visited i s, (plan.layout owner).Traces visited i s → ∃ g, a.frameAt i = some g ∧
      g.Holds ((plan.layout owner).NamesNewest visited) s ∧
      ∀ op r d o, (plan.layout owner).instructions[i]? = some (.invoke op r) →
        op ≠ .invokestatic → r.name = constructorName → r.methodType = .ok d →
        g.stack[d.params.length]? = some (.uninitialized o) →
        ∃ g' t, (plan.layout owner).executeAt g i = .ok g' ∧
          (plan.layout owner).Constructs visited s r d o t g g' := by
  have hapart := offsetsApart_of_plan hplan owner
  have hentry := entry_ne_uninitialized owner method isStatic d
  obtain ⟨hleast, hlive⟩ := leastTyping_of_analyze (Frame.paired_entry owner method isStatic d) h
  refine ⟨fun i o hcreates => ?_, fun visited i s htrace => ?_⟩
  · have ⟨name, hins, _⟩ := hcreates
    obtain ⟨g, hg⟩ := (hleast.reached i).2 (hlive i _ hins rfl)
    exact ⟨g, hg, hleast.not_holds_own hapart (fun o => ⟨fun k => hentry k o, .nil⟩) hcreates hg⟩
  · obtain ⟨g, hg, hholds⟩ := hleast.holds_newest hapart hentry rfl htrace
    refine ⟨g, hg, hholds, fun op r d o hins hop hname hd hreceiver => ?_⟩
    obtain ⟨g', -, hexecute, -⟩ := hleast.typed.executeAt_below hg (Frame.Below.refl g)
    obtain ⟨t, hconstructs⟩ :=
      constructs_of_holds hholds hins hop hname hd hreceiver hexecute
    exact ⟨g', t, hexecute, hconstructs⟩

/-- Code that makes a new object until a number is not zero, and then constructs the last one. -/
def rebuilding : Assembly.Plan :=
  { placed := [⟨.mark 0, 0, 0⟩, ⟨.type .new "a/C", 1, 0⟩, ⟨.var .astore 0, 0, 3⟩,
      ⟨.simple .iconst0, 0, 4⟩, ⟨.jump .ifeq 0, 0, 5⟩, ⟨.var .aload 0, 0, 8⟩,
      ⟨.invoke .invokespecial ⟨"a/C", "<init>", "()V"⟩, 2, 9⟩, ⟨.simple .returnVoid, 0, 12⟩]
    labels := (∅ : Assembly.LabelTable).insert 0 0
    size := 13 }

theorem plan_rebuilding :
    Assembly.plan (rebuilding.placed.map fun p => (p.instruction, p.operand)) = .ok rebuilding := rfl

/-- Two rounds, and the constructor call after them. -/
theorem traces_rebuilding : ∃ s, s.stack = [some 6] ∧
    (rebuilding.layout "a/B").Traces [0, 1, 2, 3, 4, 0, 1, 2, 3, 4, 5] 6 s := by
  have hround : ∀ {visited s}, (rebuilding.layout "a/B").Traces visited 0 s →
      (rebuilding.layout "a/B").Traces (visited ++ [0] ++ [1] ++ [2] ++ [3]) 4 _ :=
    fun h => .step (.step (.step (.step h rfl (.next rfl rfl) none) rfl (.next rfl rfl) none) rfl
      (.next rfl rfl) none) rfl (.next rfl rfl) none
  have hagain := hround (.step (hround .start) rfl (.jump rfl rfl) none)
  exact ⟨_, rfl, .step (.step hagain rfl (.next rfl rfl) none) rfl (.next rfl rfl) none⟩

/-- After two rounds the constructor gets the object of the second one, which the `new` at offset 0
made after six other instructions. -/
theorem analyze_one_object_per_new_rebuilding :
    ∃ a s g g', Assembly.plan (rebuilding.placed.map fun p => (p.instruction, p.operand)) =
        .ok rebuilding ∧
      (rebuilding.layout "a/B").analyze (Frame.entry "a/B" "run" true ⟨[], .void⟩) = .ok a ∧
      (rebuilding.layout "a/B").Traces [0, 1, 2, 3, 4, 0, 1, 2, 3, 4, 5] 6 s ∧
      a.frameAt 6 = some g ∧ (rebuilding.layout "a/B").executeAt g 6 = .ok g' ∧
      (rebuilding.layout "a/B").Constructs [0, 1, 2, 3, 4, 0, 1, 2, 3, 4, 5] s
        ⟨"a/C", "<init>", "()V"⟩ ⟨[], .void⟩ 0 6 g g' := by
  have hok : ((rebuilding.layout "a/B").analyze
      (Frame.entry "a/B" "run" true ⟨[], .void⟩)).toOption.any fun a =>
        a.frameAt 6 = some ⟨[.uninitialized 0], [.uninitialized 0]⟩ := by
    decide +kernel
  obtain ⟨s, hs, htrace⟩ := traces_rebuilding
  cases h : (rebuilding.layout "a/B").analyze (Frame.entry "a/B" "run" true ⟨[], .void⟩) with
  | error e => simp [h, Except.toOption] at hok
  | ok a =>
    have hat : a.frameAt 6 = some ⟨[.uninitialized 0], [.uninitialized 0]⟩ := by
      simpa [h, Except.toOption] using hok
    obtain ⟨g, hg, -, hcall⟩ := (analyze_one_object_per_new plan_rebuilding h).2 _ _ s htrace
    obtain rfl := Option.some.inj (hat.symm.trans hg)
    obtain ⟨g', t, hexecute, hconstructs⟩ := hcall .invokespecial ⟨"a/C", "<init>", "()V"⟩
      ⟨[], .void⟩ 0 rfl (by decide) rfl (by decide +kernel) rfl
    have ht := hconstructs.receiver
    rw [hs] at ht
    obtain rfl : 6 = t := Option.some.inj (Option.some.inj ht)
    exact ⟨a, s, _, g', plan_rebuilding, rfl, htrace, hat, hexecute, hconstructs⟩

end Layout

end EntityLoom
