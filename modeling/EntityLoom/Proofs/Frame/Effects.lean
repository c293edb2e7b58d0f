import EntityLoom.Proofs.Frame.Monotone
import EntityLoom.Proofs.Outcomes

/-!
# What an instruction can do to a frame

Each action on a frame is inverted once: the lemmas that end in `_eq_ok` say what a run that
succeeds found and left.  Put together they give what later proofs ask of an instruction.

* `locals_after`: an instruction leaves the locals as they are, or writes one value to a slot, or
  gives an object that a constructor was called on its class.
* `length_stack_after_le`: an instruction makes the stack at most one value higher.
* `Paired`, the shape of locals in which the second slot of every wide value is `top`: it holds of
  an entry frame and is kept by all that an analysis does to a frame.
-/

namespace EntityLoom.Frame

variable {index offset : Nat} {thisClass : String}

/-! ## The actions, inverted -/

theorem push_eq_ok {v : VerificationType} {f f' : Frame} {u : Unit} :
    (push v).run f = .ok (u, f') ↔ f' = { f with stack := v :: f.stack } := by
  constructor
  · intro h
    exact (Prod.mk.inj (Except.ok.inj h)).2.symm
  · rintro rfl
    rfl

theorem modify_eq_ok {s : Frame → Frame} {f f' : Frame} {u : Unit} :
    (modify s : FrameAction Unit).run f = .ok (u, f') ↔ f' = s f := by
  constructor
  · intro h
    exact (Prod.mk.inj (Except.ok.inj h)).2.symm
  · rintro rfl
    rfl

theorem check_eq_ok {e : Expectation} {v : VerificationType} {f f' : Frame} {u : Unit} :
    (check index e v).run f = .ok (u, f') ↔ e.accepts v ∧ f = f' := by
  unfold check
  by_cases h : e.accepts v
  · rw [if_pos h, run_pure_eq_ok]
    simp [h]
  · rw [if_neg h]
    exact ⟨fun hr => absurd hr run_throw_ne_ok, fun hr => absurd hr.1 h⟩

theorem pop_eq_ok {f f' : Frame} {v : VerificationType} :
    (pop index).run f = .ok (v, f') ↔ f.stack = v :: f'.stack ∧ f'.locals = f.locals := by
  obtain ⟨locals, stack⟩ := f
  obtain ⟨locals', stack'⟩ := f'
  cases stack with
  | nil => simp [pop, StateT.run]
  | cons w ws =>
    constructor
    · intro h
      obtain ⟨rfl, hf⟩ := Prod.mk.inj (Except.ok.inj h)
      obtain ⟨rfl, rfl⟩ := Frame.mk.inj hf
      exact ⟨rfl, rfl⟩
    · rintro ⟨hstack, hlocals⟩
      obtain ⟨rfl, rfl⟩ := List.cons.inj hstack
      obtain rfl : locals' = locals := hlocals
      rfl

theorem popExpecting_eq_ok {e : Expectation} {f f' : Frame} {v : VerificationType} :
    (popExpecting index e).run f = .ok (v, f') ↔
      e.accepts v ∧ f.stack = v :: f'.stack ∧ f'.locals = f.locals := by
  unfold popExpecting
  simp only [run_bind_eq_ok, pop_eq_ok, check_eq_ok, run_pure_eq_ok]
  constructor
  · rintro ⟨w, g, hpop, u, g', ⟨hw, rfl⟩, rfl, rfl⟩
    exact ⟨hw, hpop⟩
  · rintro ⟨hw, hpop⟩
    exact ⟨v, f', hpop, (), f', ⟨hw, rfl⟩, rfl, rfl⟩

theorem popDeclared_eq_ok {d : Descriptor} {f f' : Frame} {u : Unit} :
    (popDeclared index d).run f = .ok (u, f') ↔
      ∃ v, (Expectation.ofDescriptor d).accepts v ∧ f.stack = v :: f'.stack ∧
        f'.locals = f.locals := by
  unfold popDeclared
  simp only [run_bind_eq_ok, popExpecting_eq_ok, run_pure_eq_ok]
  constructor
  · rintro ⟨v, g, hv, -, rfl⟩
    exact ⟨v, hv⟩
  · rintro ⟨v, hv⟩
    exact ⟨v, f', hv, trivial, rfl⟩

theorem load_eq_ok {op : Opcode} {slot : UInt16} {f f' : Frame} {u : Unit} :
    (load index op slot).run f = .ok (u, f') ↔
      (Expectation.ofLocalOp op).accepts (slotOf f.locals slot.toNat) ∧
        f' = { f with stack := slotOf f.locals slot.toNat :: f.stack } := by
  unfold load
  simp only [run_bind_eq_ok, check_eq_ok, push_eq_ok]
  constructor
  · rintro ⟨g, g', hget, -, g'', ⟨hacc, rfl⟩, rfl⟩
    obtain ⟨rfl, rfl⟩ := Prod.mk.inj (Except.ok.inj hget)
    exact ⟨hacc, rfl⟩
  · rintro ⟨hacc, rfl⟩
    exact ⟨f, f, rfl, (), f, ⟨hacc, rfl⟩, rfl⟩

theorem store_eq_ok {op : Opcode} {slot : UInt16} {f f' : Frame} {u : Unit} :
    (store index op slot).run f = .ok (u, f') ↔
      ∃ v, (Expectation.ofLocalOp op).accepts v ∧ f.stack = v :: f'.stack ∧
        f'.locals = write slot.toNat v f.locals := by
  unfold store
  simp only [run_bind_eq_ok, popExpecting_eq_ok, modify_eq_ok]
  constructor
  · rintro ⟨v, g, ⟨hacc, hstack, hlocals⟩, rfl⟩
    exact ⟨v, hacc, hstack, by rw [hlocals]⟩
  · rintro ⟨v, hacc, hstack, hlocals⟩
    refine ⟨v, { f' with locals := f.locals }, ⟨hacc, hstack, rfl⟩, ?_⟩
    rw [← hlocals]

/-! ## Locals and stack after an instruction -/

/-- What an instruction can do to the locals of a frame. -/
inductive LocalsEffect (locals : List VerificationType) : Instruction → List VerificationType → Prop
  | same (i : Instruction) : LocalsEffect locals i locals
  | write {op : Opcode} {slot : UInt16} {v : VerificationType} (store : op.isLoad = false)
    (accepted : (Expectation.ofLocalOp op).accepts v) :
    LocalsEffect locals (.var op slot) (write slot.toNat v locals)
  | construct {op : Opcode} {r : MemberRef} {old : VerificationType} (name : String)
    (unconstructed : IsUnconstructed old) :
    LocalsEffect locals (.invoke op r)
      (locals.map fun v => if v = old then .object name else v)

/-- How many values higher an instruction can make the stack. -/
def growth : Instruction → Nat
  | .mark _ | .jump _ _ => 0
  | _ => 1

/-- What an instruction can do to a frame. -/
structure Effect (f : Frame) (i : Instruction) (f' : Frame) : Prop where
  locals : LocalsEffect f.locals i f'.locals
  height : f'.stack.length ≤ f.stack.length + growth i

theorem Effect.of_eq {f f' : Frame} {i : Instruction} (hlocals : f'.locals = f.locals)
    (height : f'.stack.length ≤ f.stack.length + growth i) : Effect f i f' :=
  ⟨hlocals ▸ .same i, height⟩

theorem Effect.of_pop {f f' : Frame} {i : Instruction} {v : VerificationType}
    (h : f.stack = v :: f'.stack ∧ f'.locals = f.locals) : Effect f i f' := by
  refine .of_eq h.2 ?_
  rw [h.1, List.length_cons]
  omega

theorem Effect.of_pop₂ {f g f' : Frame} {i : Instruction} {v w : VerificationType}
    (h : f.stack = v :: g.stack ∧ g.locals = f.locals)
    (h' : g.stack = w :: f'.stack ∧ f'.locals = g.locals) : Effect f i f' := by
  refine .of_eq (h'.2.trans h.2) ?_
  rw [h.1, h'.1, List.length_cons, List.length_cons]
  omega

theorem Effect.of_push {f f' : Frame} {i : Instruction} {v : VerificationType}
    (h : f' = { f with stack := v :: f.stack }) (hi : growth i = 1) : Effect f i f' := by
  refine .of_eq (by rw [h]) ?_
  rw [h, hi]
  exact Nat.le_refl _

theorem Effect.of_pop_push {f g f' : Frame} {i : Instruction} {v w : VerificationType}
    (h : f.stack = v :: g.stack ∧ g.locals = f.locals)
    (h' : f' = { g with stack := w :: g.stack }) : Effect f i f' := by
  refine .of_eq (by rw [h']; exact h.2) ?_
  rw [h', h.1, List.length_cons, List.length_cons]
  omega

theorem executeSimple_effect {op : Opcode} {f f' : Frame} {u : Unit}
    (h : (executeSimple index op).run f = .ok (u, f')) : Effect f (.simple op) f' := by
  unfold executeSimple at h
  split at h
  · exact .of_push (push_eq_ok.1 h) rfl
  · exact .of_push (push_eq_ok.1 h) rfl
  · exact .of_push (push_eq_ok.1 h) rfl
  · simp only [run_bind_eq_ok, popExpecting_eq_ok, run_pure_eq_ok] at h
    obtain ⟨v, g, ⟨-, hpop⟩, -, rfl⟩ := h
    exact .of_pop hpop
  · simp only [run_bind_eq_ok, popExpecting_eq_ok, push_eq_ok] at h
    obtain ⟨v, g, ⟨-, hstack, hlocals⟩, -, g', rfl, rfl⟩ := h
    refine .of_eq hlocals ?_
    rw [hstack]
    exact Nat.le_refl _
  · simp only [run_bind_eq_ok, popExpecting_eq_ok, run_pure_eq_ok] at h
    obtain ⟨v, g, ⟨-, hpop⟩, -, rfl⟩ := h
    exact .of_pop hpop
  · simp only [run_bind_eq_ok, popExpecting_eq_ok, run_pure_eq_ok] at h
    obtain ⟨v, g, ⟨-, hpop⟩, -, rfl⟩ := h
    exact .of_pop hpop
  · obtain ⟨v, -, hpop⟩ := popDeclared_eq_ok.1 h
    exact .of_pop hpop
  · obtain ⟨v, -, hpop⟩ := popDeclared_eq_ok.1 h
    exact .of_pop hpop
  · obtain ⟨v, -, hpop⟩ := popDeclared_eq_ok.1 h
    exact .of_pop hpop
  · obtain ⟨v, -, hpop⟩ := popDeclared_eq_ok.1 h
    exact .of_pop hpop
  · obtain ⟨-, rfl⟩ := run_pure_eq_ok.1 h
    exact .of_eq rfl (Nat.le_add_right _ _)
  · exact absurd h run_throw_ne_ok

theorem executeField_effect {op : Opcode} {r : MemberRef} {f f' : Frame} {u : Unit}
    (h : (executeField index op r).run f = .ok (u, f')) : Effect f (.field op r) f' := by
  unfold executeField at h
  obtain ⟨d, g, hd, h⟩ := run_bind_eq_ok.1 h
  obtain ⟨-, rfl⟩ := run_lift_eq_ok.1 hd
  split at h
  · simp only [run_bind_eq_ok, popExpecting_eq_ok, push_eq_ok] at h
    obtain ⟨v, g, ⟨-, hpop⟩, hpush⟩ := h
    exact .of_pop_push hpop hpush
  · simp only [run_bind_eq_ok, popExpecting_eq_ok, popDeclared_eq_ok, run_pure_eq_ok] at h
    obtain ⟨-, g, ⟨v, -, hpop⟩, w, g', ⟨-, hpop'⟩, -, rfl⟩ := h
    exact .of_pop₂ hpop hpop'
  · exact .of_push (push_eq_ok.1 h) rfl
  · obtain ⟨v, -, hpop⟩ := popDeclared_eq_ok.1 h
    exact .of_pop hpop

theorem forM_popDeclared_eq_ok {ds : List Descriptor} {f f' : Frame} {u : PUnit}
    (h : (ds.forM (popDeclared index)).run f = .ok (u, f')) :
    f'.locals = f.locals ∧ f'.stack.length ≤ f.stack.length := by
  induction ds generalizing f with
  | nil =>
    obtain ⟨-, rfl⟩ := run_pure_eq_ok.1 h
    exact ⟨rfl, Nat.le_refl _⟩
  | cons d ds ih =>
    obtain ⟨_, g, hd, h⟩ := run_bind_eq_ok.1 h
    obtain ⟨v, -, hstack, hlocals⟩ := popDeclared_eq_ok.1 hd
    obtain ⟨hl, hs⟩ := ih h
    refine ⟨hl.trans hlocals, ?_⟩
    rw [hstack, List.length_cons]
    omega

/-- What a call does to its receiver. -/
theorem popReceiver_effect {op : Opcode} {r : MemberRef} {f f' : Frame} {u : Unit}
    (h : (popReceiver thisClass index op r).run f = .ok (u, f')) :
    LocalsEffect f.locals (.invoke op r) f'.locals ∧ f'.stack.length ≤ f.stack.length := by
  unfold popReceiver at h
  split at h
  · obtain ⟨-, rfl⟩ := run_pure_eq_ok.1 h
    exact ⟨.same _, Nat.le_refl _⟩
  · obtain ⟨v, g, hv, h⟩ := run_bind_eq_ok.1 h
    obtain ⟨-, hstack, hlocals⟩ := popExpecting_eq_ok.1 hv
    unfold construct at h
    split at h
    · split at h
      · next name hname =>
        rw [modify_eq_ok.1 h, ← hlocals]
        refine ⟨.construct name (isUnconstructed_of_constructedClass? hname), ?_⟩
        simp only [replace, List.length_map]
        rw [hstack, List.length_cons]
        omega
      · exact absurd h run_throw_ne_ok
    · obtain ⟨-, rfl⟩ := run_pure_eq_ok.1 h
      rw [hlocals]
      refine ⟨.same _, ?_⟩
      rw [hstack, List.length_cons]
      omega

theorem executeInvoke_effect {op : Opcode} {r : MemberRef} {f f' : Frame} {u : Unit}
    (h : (executeInvoke thisClass index op r).run f = .ok (u, f')) :
    Effect f (.invoke op r) f' := by
  unfold executeInvoke at h
  obtain ⟨d, f₀, hd, h⟩ := run_bind_eq_ok.1 h
  obtain ⟨-, rfl⟩ := run_lift_eq_ok.1 hd
  obtain ⟨_, f₁, hparams, h⟩ := run_bind_eq_ok.1 h
  obtain ⟨hlocals₁, hheight₁⟩ := forM_popDeclared_eq_ok hparams
  obtain ⟨_, f₂, hreceiver, h⟩ := run_bind_eq_ok.1 h
  obtain ⟨heffect, hheight₂⟩ := popReceiver_effect hreceiver
  rw [hlocals₁] at heffect
  unfold pushResult at h
  split at h
  · obtain ⟨-, rfl⟩ := run_pure_eq_ok.1 h
    exact ⟨heffect, by omega⟩
  · rw [push_eq_ok.1 h]
    refine ⟨heffect, ?_⟩
    have hgrowth : growth (.invoke op r) = 1 := rfl
    rw [hgrowth, List.length_cons]
    omega

theorem executeType_effect {op : Opcode} {name : String} {f f' : Frame} {u : Unit}
    (h : (executeType index offset op name).run f = .ok (u, f')) : Effect f (.type op name) f' := by
  unfold executeType at h
  split at h
  · split at h
    · exact .of_push (push_eq_ok.1 h) rfl
    · exact absurd h run_throw_ne_ok
  · simp only [run_bind_eq_ok, popExpecting_eq_ok, push_eq_ok] at h
    obtain ⟨v, g, ⟨-, hpop⟩, hpush⟩ := h
    exact .of_pop_push hpop hpush
  · simp only [run_bind_eq_ok, popExpecting_eq_ok, push_eq_ok] at h
    obtain ⟨v, g, ⟨-, hpop⟩, hpush⟩ := h
    exact .of_pop_push hpop hpush

theorem executeJump_effect {op : Opcode} {label : Label} {f f' : Frame} {u : Unit}
    (h : (executeJump index op).run f = .ok (u, f')) : Effect f (.jump op label) f' := by
  unfold executeJump at h
  split at h
  · obtain ⟨v, -, hpop⟩ := popDeclared_eq_ok.1 h
    exact .of_pop hpop
  · obtain ⟨v, -, hpop⟩ := popDeclared_eq_ok.1 h
    exact .of_pop hpop
  · simp only [run_bind_eq_ok, popExpecting_eq_ok, run_pure_eq_ok] at h
    obtain ⟨v, g, ⟨-, hpop⟩, w, g', ⟨-, hpop'⟩, -, rfl⟩ := h
    exact .of_pop₂ hpop hpop'
  · simp only [run_bind_eq_ok, popExpecting_eq_ok, run_pure_eq_ok] at h
    obtain ⟨v, g, ⟨-, hpop⟩, w, g', ⟨-, hpop'⟩, -, rfl⟩ := h
    exact .of_pop₂ hpop hpop'
  · simp only [run_bind_eq_ok, popExpecting_eq_ok, run_pure_eq_ok] at h
    obtain ⟨v, g, ⟨-, hpop⟩, -, rfl⟩ := h
    exact .of_pop hpop
  · simp only [run_bind_eq_ok, popExpecting_eq_ok, run_pure_eq_ok] at h
    obtain ⟨v, g, ⟨-, hpop⟩, -, rfl⟩ := h
    exact .of_pop hpop
  · obtain ⟨-, rfl⟩ := run_pure_eq_ok.1 h
    exact .of_eq rfl (Nat.le_add_right _ _)

/-- An instruction that succeeds does no more to a frame than its `Effect` says. -/
theorem after_effect {i : Instruction} {f f' : Frame}
    (h : f.after thisClass index offset i = .ok f') : Effect f i f' := by
  obtain ⟨u, hu⟩ := after_eq_ok.1 h
  unfold execute at hu
  split at hu
  · obtain ⟨-, rfl⟩ := run_pure_eq_ok.1 hu
    exact .of_eq rfl (Nat.le_refl _)
  · exact executeSimple_effect hu
  · split at hu
    · exact .of_push (load_eq_ok.1 hu).2 rfl
    · next hload =>
      obtain ⟨v, hacc, hstack, hlocals⟩ := store_eq_ok.1 hu
      refine ⟨hlocals ▸ .write (by simpa using hload) hacc, ?_⟩
      rw [hstack, List.length_cons]
      omega
  · exact executeField_effect hu
  · exact executeInvoke_effect hu
  · exact executeType_effect hu
  · exact .of_push (push_eq_ok.1 hu) rfl
  · exact executeJump_effect hu

/-! ## Wide values in the locals -/

/-- The second slot of every wide value is there and holds `top`. -/
def Paired (locals : List VerificationType) : Prop :=
  ∀ i, (slotOf locals i).isWide = true → i + 1 < locals.length ∧ slotOf locals (i + 1) = .top

theorem slotOf_append_left {xs ys : List VerificationType} {i : Nat} (h : i < xs.length) :
    slotOf (xs ++ ys) i = slotOf xs i := by
  unfold slotOf
  rw [List.getD_eq_getElem?_getD, List.getD_eq_getElem?_getD, List.getElem?_append_left h]

theorem slotOf_append_right (xs ys : List VerificationType) (i : Nat) :
    slotOf (xs ++ ys) (xs.length + i) = slotOf ys i := by
  unfold slotOf
  rw [List.getD_eq_getElem?_getD, List.getD_eq_getElem?_getD,
    List.getElem?_append_right (Nat.le_add_right _ _), Nat.add_sub_cancel_left]

theorem Paired.append {xs ys : List VerificationType} (hx : Paired xs) (hy : Paired ys) :
    Paired (xs ++ ys) := by
  intro i hi
  rw [List.length_append]
  by_cases hlt : i < xs.length
  · rw [slotOf_append_left hlt] at hi
    obtain ⟨hlen, htop⟩ := hx i hi
    rw [slotOf_append_left hlen]
    exact ⟨by omega, htop⟩
  · obtain ⟨k, rfl⟩ := Nat.exists_eq_add_of_le (Nat.le_of_not_lt hlt)
    rw [slotOf_append_right] at hi
    obtain ⟨hlen, htop⟩ := hy k hi
    rw [Nat.add_assoc, slotOf_append_right]
    exact ⟨by omega, htop⟩

theorem paired_valueSlots (v : VerificationType) : Paired (valueSlots v) := by
  unfold valueSlots
  intro i hi
  by_cases hv : v.isWide
  · rw [if_pos hv] at hi ⊢
    cases i with
    | zero => exact ⟨by simp, rfl⟩
    | succ i => exact absurd hi (by cases i <;> simp [slotOf, VerificationType.isWide])
  · rw [if_neg hv] at hi
    cases i with
    | zero => exact absurd hi hv
    | succ i => exact absurd hi (by simp [slotOf, VerificationType.isWide])

theorem paired_entry (thisClass method : String) (isStatic : Bool) (d : MethodDescriptor) :
    Paired (entry thisClass method isStatic d).locals := by
  unfold entry
  refine Paired.append ?_ ?_
  · intro i hi
    cases isStatic with
    | true => exact absurd hi (by simp [slotOf, VerificationType.isWide])
    | false =>
      cases i with
      | zero =>
        simp only [receiver, slotOf, Bool.false_eq_true, if_false, List.getD_cons_zero] at hi
        split at hi <;> exact absurd hi (by simp [VerificationType.isWide])
      | succ i => exact absurd hi (by simp [slotOf, VerificationType.isWide])
  · induction d.params with
    | nil =>
      intro i hi
      exact absurd hi (by simp [slotOf, VerificationType.isWide])
    | cons p params ih =>
      rw [List.flatMap_cons]
      exact (paired_valueSlots _).append ih

theorem paired_write {locals : List VerificationType} (h : Paired locals) (slot : Nat)
    (v : VerificationType) : Paired (write slot v locals) := by
  intro i hi
  rw [slotOf_write] at hi
  rw [length_write]
  have hslots : v.slots = if v.isWide then 2 else 1 := rfl
  by_cases hs : i = slot
  · rw [if_pos hs] at hi
    rw [if_pos hi] at hslots
    refine ⟨by omega, ?_⟩
    rw [slotOf_write, if_neg (by omega), if_pos (.inl ⟨hi, by omega⟩)]
  · rw [if_neg hs] at hi
    split at hi
    · exact absurd hi (by decide)
    · next hbreak =>
      obtain ⟨hlen, htop⟩ := h i hi
      refine ⟨by omega, ?_⟩
      have hne : i + 1 ≠ slot := fun e => hbreak (.inr ⟨e, hi⟩)
      rw [slotOf_write, if_neg hne, htop]
      simp

theorem paired_map_swap {locals : List VerificationType} (h : Paired locals)
    {old : VerificationType} (name : String) (hold : IsUnconstructed old) :
    Paired (locals.map fun v => if v = old then .object name else v) := by
  have htop : (if VerificationType.top = old then VerificationType.object name else .top) = .top := by
    rcases hold with rfl | ⟨offset, rfl⟩ <;> simp
  intro i hi
  rw [slotOf_map (g := fun v => if v = old then .object name else v) htop] at hi ⊢
  rw [List.length_map]
  split at hi
  · exact absurd hi (by simp [VerificationType.isWide])
  · obtain ⟨hlen, hnext⟩ := h i hi
    exact ⟨hlen, by rw [hnext]; exact htop⟩

theorem paired_after {i : Instruction} {f f' : Frame} (hf : Paired f.locals)
    (h : f.after thisClass index offset i = .ok f') : Paired f'.locals := by
  have heffect := (after_effect h).locals
  generalize f'.locals = locals' at heffect
  cases heffect with
  | same => exact hf
  | write _ _ => exact paired_write hf _ _
  | construct name hold => exact paired_map_swap hf name hold

theorem length_joinLocals (xs ys : List VerificationType) :
    (joinLocals xs ys).length = max xs.length ys.length := by
  unfold joinLocals
  simp only [List.length_zipWith, length_padTo]
  omega

theorem paired_joinLocals {xs : List VerificationType} (hx : Paired xs)
    (ys : List VerificationType) :
    Paired (joinLocals xs ys) := by
  intro i hi
  rw [slotOf_joinLocals] at hi ⊢
  have htop : (slotOf xs i).merge (slotOf ys i) ≠ .top := by
    intro e
    rw [e] at hi
    exact absurd hi (by decide)
  have hxi : (slotOf xs i).isWide = true := by
    rw [VerificationType.isWide_of_below (VerificationType.below_merge_left _ _) htop]
    exact hi
  obtain ⟨hlenx, hnext⟩ := hx i hxi
  rw [length_joinLocals, hnext]
  exact ⟨by omega, VerificationType.top_merge _⟩

/-- What precedes the `top`s that trimming drops is no wide value. -/
theorem trimReversed_head {xs : List VerificationType} {n : Nat} {v : VerificationType}
    (hn : 0 < n) (h : xs = List.replicate n .top ++ trimReversed xs)
    (hv : (trimReversed xs).head? = some v) : v.isWide = false := by
  rw [← trimReversed_trimReversed] at hv
  generalize hys : trimReversed xs = ys at *
  have hx : trimReversed xs = if 0 < n ∧ ys.head?.any VerificationType.isWide then .top :: ys
      else trimReversed ys := by
    rw [h, trimReversed_replicate]
  by_contra hw
  have hys' : trimReversed ys = ys := by
    rw [← hys, trimReversed_trimReversed]
  rw [hys'] at hv
  rw [if_pos ⟨hn, by rw [hv]; simpa using hw⟩, hys] at hx
  exact absurd (congrArg List.length hx) (by simp)

theorem paired_trimLocals {locals : List VerificationType} (h : Paired locals) :
    Paired (trimLocals locals) := by
  intro i hi
  obtain ⟨n, hn⟩ := exists_eq_trimReversed locals.reverse
  have hlocals : locals = trimLocals locals ++ List.replicate n .top := by
    have := congrArg List.reverse hn
    rwa [List.reverse_reverse, List.reverse_append, List.reverse_replicate] at this
  have hlt : i < (trimLocals locals).length := by
    apply lt_length_of_slotOf_ne_top
    intro e
    rw [e] at hi
    exact absurd hi (by decide)
  rw [slotOf_trimLocals] at hi ⊢
  obtain ⟨hlen, htop⟩ := h i hi
  refine ⟨?_, htop⟩
  by_contra hle
  -- The wide value would be the last one that trimming keeps, and its second slot a dropped one.
  have hi' : i + 1 = (trimLocals locals).length := by omega
  have hlen' := congrArg List.length hlocals
  rw [List.length_append, List.length_replicate] at hlen'
  have hlast : (trimReversed locals.reverse).head? = some (slotOf locals i) := by
    rw [← slotOf_trimLocals, ← List.getLast?_reverse, ← trimLocals, List.getLast?_eq_getElem?,
      ← hi', Nat.add_sub_cancel, slotOf, List.getD_eq_getElem?_getD, List.getElem?_eq_getElem hlt]
    rfl
  have := trimReversed_head (by omega) hn hlast
  rw [hi] at this
  exact absurd this (by decide)

end EntityLoom.Frame
