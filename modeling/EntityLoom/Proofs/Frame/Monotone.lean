import EntityLoom.Frame.Execution
import EntityLoom.Proofs.Frame.Order

/-!
# Execution is monotone

An instruction that succeeds on a frame succeeds on every frame below it, and its results are
ordered the same way (`after_mono`).

Execution is put together from actions, so the statement is one about actions.  `Follows R x y` says
that where `y` succeeds, `x` does so on every frame below, answers a value related by `R` and leaves
a frame below.  It is kept by sequencing (`Follows.bind`), and each action follows itself.  The one
action that depends on a value it was given is the start of a constructor: there the values on both
sides are the same, since nothing but itself is below an object that is not constructed yet.
-/

namespace EntityLoom.Frame

variable {α β γ δ : Type} {index : Nat}

/-! ## Following -/

/-- Where `y` succeeds on a frame, `x` succeeds on every frame below it, with a value related by `R`
and a frame below. -/
def Follows (R : α → β → Prop) (x : FrameAction α) (y : FrameAction β) : Prop :=
  ∀ ⦃f g : Frame⦄, f.Below g → ∀ ⦃b : β⦄ ⦃g' : Frame⦄, y.run g = .ok (b, g') →
    ∃ (a : α) (f' : Frame), x.run f = .ok (a, f') ∧ R a b ∧ f'.Below g'

theorem Follows.pure {R : α → β → Prop} {a : α} {b : β} (h : R a b) :
    Follows R (pure a) (pure b) := by
  intro f g hfg b' g' hy
  obtain ⟨rfl, rfl⟩ := Prod.mk.inj (Except.ok.inj hy)
  exact ⟨a, f, rfl, h, hfg⟩

theorem Follows.throw {R : α → β → Prop} (x : FrameAction α) (e : EmissionError) :
    Follows R x (throw e) := by
  intro f g _ b g' hy
  cases hy

theorem Follows.bind {R : α → β → Prop} {S : γ → δ → Prop} {x : FrameAction α} {y : FrameAction β}
    {k : α → FrameAction γ} {l : β → FrameAction δ} (h : Follows R x y)
    (hk : ∀ a b, R a b → Follows S (k a) (l b)) : Follows S (x >>= k) (y >>= l) := by
  intro f g hfg d g' hy
  rw [StateT.run_bind] at hy
  cases hyg : y.run g with
  | error e =>
    rw [hyg] at hy
    exact absurd hy (by simp [Bind.bind, Except.bind])
  | ok r =>
    obtain ⟨b, g₁⟩ := r
    obtain ⟨a, f₁, hxf, hR, hfg₁⟩ := h hfg hyg
    rw [hyg] at hy
    obtain ⟨c, f', hkf, hS, hfg'⟩ := hk a b hR hfg₁ hy
    refine ⟨c, f', ?_, hS, hfg'⟩
    rw [StateT.run_bind, hxf]
    exact hkf

/-! ## The actions on a frame -/

theorem follows_push {v w : VerificationType} (h : v.Below w) :
    Follows (fun _ _ => True) (push v) (push w) := by
  intro f g hfg b g' hy
  obtain ⟨rfl, rfl⟩ := Prod.mk.inj (Except.ok.inj hy)
  exact ⟨(), _, rfl, trivial, .cons h hfg.stack, hfg.locals⟩

theorem follows_pop : Follows VerificationType.Below (pop index) (pop index) := by
  intro f g hfg b g' hy
  obtain ⟨glocals, gstack⟩ := g
  cases gstack with
  | nil => simp [pop, StateT.run] at hy
  | cons w ws =>
    obtain ⟨rfl, rfl⟩ := Prod.mk.inj (Except.ok.inj hy)
    obtain ⟨flocals, fstack⟩ := f
    have hstack := hfg.stack
    cases hstack with
    | cons hv hvs => exact ⟨_, ⟨flocals, _⟩, rfl, hv, hvs, hfg.locals⟩

theorem follows_check {e : Expectation} {v w : VerificationType} (h : v.Below w) :
    Follows (fun _ _ => e.accepts w) (check index e v) (check index e w) := by
  unfold check
  by_cases hw : e.accepts w
  · rw [if_pos hw, if_pos (Expectation.accepts_of_below h hw)]
    exact .pure hw
  · rw [if_neg hw]
    exact .throw _ _

theorem follows_popExpecting (e : Expectation) :
    Follows (fun v w => v.Below w ∧ e.accepts w) (popExpecting index e) (popExpecting index e) := by
  unfold popExpecting
  refine follows_pop.bind fun v w hvw => ?_
  exact (follows_check hvw).bind fun _ _ hw => .pure ⟨hvw, hw⟩

theorem follows_popDeclared (d : Descriptor) :
    Follows (fun _ _ => True) (popDeclared index d) (popDeclared index d) := by
  unfold popDeclared
  exact (follows_popExpecting _).bind fun _ _ _ => .pure trivial

theorem follows_forM_popDeclared (ds : List Descriptor) :
    Follows (fun _ _ => True) (ds.forM (popDeclared index)) (ds.forM (popDeclared index)) := by
  induction ds with
  | nil => exact .pure trivial
  | cons d ds ih =>
    exact (follows_popDeclared d).bind fun _ _ _ => ih

theorem follows_get : Follows Below get get := by
  intro f g hfg b g' hy
  obtain ⟨rfl, rfl⟩ := Prod.mk.inj (Except.ok.inj hy)
  exact ⟨f, f, rfl, hfg, hfg⟩

/-- A change of the frame follows another that keeps the order. -/
theorem follows_modify {s t : Frame → Frame} (h : ∀ f g, f.Below g → (s f).Below (t g)) :
    Follows (fun _ _ => True) (modify s) (modify t) := by
  intro f g hfg b g' hy
  obtain ⟨rfl, rfl⟩ := Prod.mk.inj (Except.ok.inj hy)
  exact ⟨(), s f, rfl, trivial, h f g hfg⟩

theorem follows_load (op : Opcode) (slot : UInt16) :
    Follows (fun _ _ => True) (load index op slot) (load index op slot) := by
  unfold load
  refine follows_get.bind fun f g hfg => ?_
  have hslot := hfg.locals slot.toNat
  exact (follows_check hslot).bind fun _ _ _ => follows_push hslot

/-- A store of a value that is not `top` keeps the order slot by slot. -/
theorem slotOf_write_below {v w : VerificationType} {xs ys : List VerificationType} (hvw : v.Below w)
    (hw : w ≠ .top) (h : ∀ i, (slotOf xs i).Below (slotOf ys i)) (slot i : Nat) :
    (slotOf (write slot v xs) i).Below (slotOf (write slot w ys) i) := by
  rw [slotOf_write, slotOf_write, VerificationType.isWide_of_below hvw hw]
  by_cases hi : i = slot
  · rw [if_pos hi, if_pos hi]
    exact hvw
  · rw [if_neg hi, if_neg hi]
    by_cases hy : w.isWide ∧ i = slot + 1 ∨ i + 1 = slot ∧ (slotOf ys i).isWide
    · rw [if_pos hy]
      exact VerificationType.below_top _
    · rw [if_neg hy]
      by_cases hx : w.isWide ∧ i = slot + 1 ∨ i + 1 = slot ∧ (slotOf xs i).isWide
      · -- Only a wide value below `top` is broken on one side alone.
        rw [if_pos hx]
        rcases hx with hx | ⟨hx, hwide⟩
        · exact absurd (.inl hx) hy
        · by_cases htop : slotOf ys i = .top
          · rw [htop]
            exact VerificationType.below_top _
          · rw [VerificationType.isWide_of_below (h i) htop] at hwide
            exact absurd (.inr ⟨hx, hwide⟩) hy
      · rw [if_neg hx]
        exact h i

theorem follows_store (op : Opcode) (slot : UInt16) :
    Follows (fun _ _ => True) (store index op slot) (store index op slot) := by
  unfold store
  refine (follows_popExpecting _).bind fun v w ⟨hvw, hw⟩ => ?_
  refine follows_modify fun f g hfg => ⟨hfg.stack, ?_⟩
  exact slotOf_write_below hvw (Expectation.ne_top_of_accepts hw) hfg.locals slot.toNat

/-! ## Constructed objects -/

/-- A type that stands for one object that is not constructed yet. -/
def IsUnconstructed (v : VerificationType) : Prop :=
  v = .uninitializedThis ∨ ∃ offset, v = .uninitialized offset

/-- Putting a class in place of an object that is not constructed keeps the order: such an object is
below nothing but itself and `top`. -/
theorem swap_below {old a b : VerificationType} {name : String} (hold : IsUnconstructed old)
    (h : a.Below b) :
    (if a = old then VerificationType.object name else a).Below
      (if b = old then VerificationType.object name else b) := by
  have hne : old ≠ .top ∧ ∀ n, old ≠ .object n := by
    rcases hold with rfl | ⟨offset, rfl⟩ <;> simp
  by_cases hb : b = old
  · have ha : a = old := by
      rw [← hb]
      exact VerificationType.eq_of_below h (hb ▸ hne.1) (hb ▸ hne.2)
    rw [if_pos ha, if_pos hb]
    exact VerificationType.below_refl _
  · rw [if_neg hb]
    by_cases ha : a = old
    · have hbtop : b = .top := by
        by_contra htop
        rw [ha] at h
        by_cases hobject : ∃ n, b = .object n
        · obtain ⟨n, rfl⟩ := hobject
          rcases hold with rfl | ⟨offset, rfl⟩ <;>
            rcases VerificationType.below_object_iff.1 h with e | e | ⟨-, m, e⟩ <;> cases e
        · exact hb (VerificationType.eq_of_below h htop fun n e => hobject ⟨n, e⟩).symm
      rw [hbtop]
      exact VerificationType.below_top _
    · rw [if_neg ha]
      exact h

theorem replace_below {old : VerificationType} {name : String} (hold : IsUnconstructed old)
    {f g : Frame} (h : f.Below g) :
    (replace old (.object name) f).Below (replace old (.object name) g) := by
  have htop : (if VerificationType.top = old then VerificationType.object name else .top) = .top := by
    rcases hold with rfl | ⟨offset, rfl⟩ <;> simp
  refine ⟨?_, fun i => ?_⟩
  · refine List.forall₂_map_left_iff.2 (List.forall₂_map_right_iff.2 ?_)
    exact h.stack.imp fun _ _ hab => swap_below hold hab
  · unfold replace
    dsimp only
    rw [slotOf_map (g := fun v => if v = old then .object name else v) htop,
      slotOf_map (g := fun v => if v = old then .object name else v) htop]
    exact swap_below hold (h.locals i)

theorem isUnconstructed_of_constructedClass? {thisClass owner name : String} {v : VerificationType}
    (h : constructedClass? thisClass owner v = some name) : IsUnconstructed v := by
  unfold constructedClass? at h
  split at h
  · exact .inl rfl
  · next offset => exact .inr ⟨offset, rfl⟩
  · simp at h

/-- A call on a receiver follows the call on one above it: the receiver of a constructor is the same
on both sides. -/
theorem follows_construct {thisClass : String} {r : MemberRef} {v w : VerificationType}
    (h : v.Below w) :
    Follows (fun _ _ => True) (construct thisClass index r v) (construct thisClass index r w) := by
  unfold construct
  split
  · cases hw : constructedClass? thisClass r.owner w with
    | none => exact .throw _ _
    | some name =>
      have hun := isUnconstructed_of_constructedClass? hw
      have hvw : v = w := by
        rcases hun with rfl | ⟨offset, rfl⟩ <;>
          exact VerificationType.eq_of_below h (by simp) (by simp)
      rw [hvw, hw]
      exact follows_modify fun f g hfg => replace_below hun hfg
  · exact .pure trivial

/-! ## Instructions -/

theorem follows_executeSimple (op : Opcode) :
    Follows (fun _ _ => True) (executeSimple index op) (executeSimple index op) := by
  unfold executeSimple
  split
  · exact follows_push (VerificationType.below_refl _)
  · exact follows_push (VerificationType.below_refl _)
  · exact follows_push (VerificationType.below_refl _)
  · exact (follows_popExpecting _).bind fun _ _ _ => .pure trivial
  · refine (follows_popExpecting _).bind fun v w hvw => ?_
    exact (follows_push hvw.1).bind fun _ _ _ => follows_push hvw.1
  · exact (follows_popExpecting _).bind fun _ _ _ => .pure trivial
  · exact (follows_popExpecting _).bind fun _ _ _ => .pure trivial
  · exact follows_popDeclared _
  · exact follows_popDeclared _
  · exact follows_popDeclared _
  · exact follows_popDeclared _
  · exact .pure trivial
  · exact .throw _ _

theorem follows_liftExcept (x : Except EmissionError α) :
    Follows (fun a b => a = b) (liftM x : FrameAction α) (liftM x : FrameAction α) := by
  intro f g hfg b g' hy
  cases x with
  | error e => exact absurd hy (by simp [liftM, monadLift, MonadLift.monadLift, StateT.run,
      StateT.lift, bind, Except.bind])
  | ok a =>
    obtain ⟨rfl, rfl⟩ := Prod.mk.inj (Except.ok.inj hy)
    exact ⟨a, f, rfl, rfl, hfg⟩

theorem follows_executeField (op : Opcode) (r : MemberRef) :
    Follows (fun _ _ => True) (executeField index op r) (executeField index op r) := by
  unfold executeField
  refine (follows_liftExcept r.fieldType).bind fun d d' hd => ?_
  subst hd
  split
  · exact (follows_popExpecting _).bind fun _ _ _ => follows_push (VerificationType.below_refl _)
  · refine (follows_popDeclared d).bind fun _ _ _ => ?_
    exact (follows_popExpecting _).bind fun _ _ _ => .pure trivial
  · exact follows_push (VerificationType.below_refl _)
  · exact follows_popDeclared d

theorem follows_executeType (offset : Nat) (op : Opcode) (className : String) :
    Follows (fun _ _ => True) (executeType index offset op className)
      (executeType index offset op className) := by
  unfold executeType
  split
  · split
    · exact follows_push (VerificationType.below_refl _)
    · exact .throw _ _
  · exact (follows_popExpecting _).bind fun _ _ _ => follows_push (VerificationType.below_refl _)
  · exact (follows_popExpecting _).bind fun _ _ _ => follows_push (VerificationType.below_refl _)

theorem follows_executeJump (op : Opcode) :
    Follows (fun _ _ => True) (executeJump index op) (executeJump index op) := by
  unfold executeJump
  split
  · exact follows_popDeclared _
  · exact follows_popDeclared _
  · refine (follows_popExpecting _).bind fun _ _ _ => ?_
    exact (follows_popExpecting _).bind fun _ _ _ => .pure trivial
  · refine (follows_popExpecting _).bind fun _ _ _ => ?_
    exact (follows_popExpecting _).bind fun _ _ _ => .pure trivial
  · exact (follows_popExpecting _).bind fun _ _ _ => .pure trivial
  · exact (follows_popExpecting _).bind fun _ _ _ => .pure trivial
  · exact .pure trivial

theorem follows_popReceiver (thisClass : String) (op : Opcode) (r : MemberRef) :
    Follows (fun _ _ => True) (popReceiver thisClass index op r)
      (popReceiver thisClass index op r) := by
  unfold popReceiver
  split
  · exact .pure trivial
  · exact (follows_popExpecting _).bind fun _ _ hvw => follows_construct hvw.1

theorem follows_pushResult (d : Descriptor) :
    Follows (fun _ _ => True) (pushResult d) (pushResult d) := by
  unfold pushResult
  split
  · exact .pure trivial
  · exact follows_push (VerificationType.below_refl _)

theorem follows_executeInvoke (thisClass : String) (op : Opcode) (r : MemberRef) :
    Follows (fun _ _ => True) (executeInvoke thisClass index op r)
      (executeInvoke thisClass index op r) := by
  unfold executeInvoke
  refine (follows_liftExcept r.methodType).bind fun d d' hd => ?_
  subst hd
  refine (follows_forM_popDeclared _).bind fun _ _ _ => ?_
  exact (follows_popReceiver thisClass op r).bind fun _ _ _ => follows_pushResult _

theorem follows_execute (thisClass : String) (offset : Nat) (i : Instruction) :
    Follows (fun _ _ => True) (execute thisClass index offset i)
      (execute thisClass index offset i) := by
  unfold execute
  split
  · exact .pure trivial
  · exact follows_executeSimple _
  · split
    · exact follows_load _ _
    · exact follows_store _ _
  · exact follows_executeField _ _
  · exact follows_executeInvoke _ _ _
  · exact follows_executeType _ _ _
  · exact follows_push (VerificationType.below_refl _)
  · exact follows_executeJump _

theorem after_eq_ok {thisClass : String} {offset : Nat} {i : Instruction} {f f' : Frame} :
    f.after thisClass index offset i = .ok f' ↔
      ∃ u, (execute thisClass index offset i).run f = .ok (u, f') := by
  unfold after
  cases (execute thisClass index offset i).run f with
  | error e => simp
  | ok r =>
    obtain ⟨u, f₁⟩ := r
    simp

/-- An instruction that succeeds on a frame succeeds on every frame below it, and what it leaves is
below what it leaves there. -/
theorem after_mono {thisClass : String} {offset : Nat} {i : Instruction} {f g g' : Frame}
    (hfg : f.Below g) (h : g.after thisClass index offset i = .ok g') :
    ∃ f', f.after thisClass index offset i = .ok f' ∧ f'.Below g' := by
  obtain ⟨u, hu⟩ := after_eq_ok.1 h
  obtain ⟨a, f', hf', -, hbelow⟩ := follows_execute thisClass offset i hfg hu
  exact ⟨f', after_eq_ok.2 ⟨a, hf'⟩, hbelow⟩

end EntityLoom.Frame
