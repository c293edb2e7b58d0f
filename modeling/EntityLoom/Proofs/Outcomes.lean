import Mathlib.Data.List.Forall2

/-!
# Steps that can fail

What a composed step answers when it succeeds: `bind_eq_ok` for a step after another, `mapM_eq_ok`
for a step for each item of a list, and `run_bind_eq_ok` where the steps carry a state along.  What
each of many steps keeps is kept by all of them (`foldlM_invariant`).  Where the state is kept when a
step fails, `succeeds_bind` and `fails_bind` say what both outcomes leave.
-/

namespace EntityLoom

variable {ε α β γ : Type}

/-- Whether a step succeeds with a result as wanted is found by taking it. -/
instance decidableExistsOk {P : α → Prop} [DecidablePred P] (x : Except ε α) :
    Decidable (∃ a, x = .ok a ∧ P a) :=
  match x with
  | .ok a => decidable_of_iff (P a) (by simp)
  | .error _ => isFalse (by simp)

/-- Whether a step finds a result as wanted is found by taking it. -/
instance decidableExistsFound {P : α → Prop} [DecidablePred P] (x : Except ε (Option α)) :
    Decidable (∃ a, x = .ok (some a) ∧ P a) :=
  match x with
  | .ok (some a) => decidable_of_iff (P a) (by simp)
  | .ok none => isFalse (by simp)
  | .error _ => isFalse (by simp)

/-- Whether a step fails with a fault as wanted is found by taking it. -/
instance decidableExistsError {P : ε → Prop} [DecidablePred P] (x : Except ε α) :
    Decidable (∃ e, x = .error e ∧ P e) :=
  match x with
  | .ok _ => isFalse (by simp)
  | .error e => decidable_of_iff (P e) (by simp)

theorem bind_eq_ok {x : Except ε α} {k : α → Except ε β} {b : β} :
    x >>= k = .ok b ↔ ∃ a, x = .ok a ∧ k a = .ok b := by
  cases x with
  | error e => simp [bind, Except.bind]
  | ok a => simp [bind, Except.bind]

theorem bind_eq_error {x : Except ε α} {k : α → Except ε β} {e : ε} :
    x >>= k = .error e ↔ x = .error e ∨ ∃ a, x = .ok a ∧ k a = .error e := by
  cases x <;> simp [bind, Except.bind]

/-- A step after a check is taken when the check passes. -/
theorem check_bind_eq_ok {x : Except ε Unit} {k : Unit → Except ε β} {b : β} :
    x >>= k = .ok b ↔ x = .ok () ∧ k () = .ok b := by
  rw [bind_eq_ok]
  exact ⟨fun ⟨_, hx, hk⟩ => ⟨hx, hk⟩, fun ⟨hx, hk⟩ => ⟨(), hx, hk⟩⟩

/-- What is done with the result of a step matters only if the step succeeds. -/
theorem bind_congr_ok {x : Except ε α} {k k' : α → Except ε β}
    (h : ∀ a, x = .ok a → k a = k' a) : x >>= k = x >>= k' := by
  cases x with
  | error e => rfl
  | ok a => exact h a rfl

theorem map_eq_ok {x : Except ε α} {g : α → β} {b : β} :
    g <$> x = .ok b ↔ ∃ a, x = .ok a ∧ g a = b := by
  cases x with
  | error e => simp [Functor.map, Except.map]
  | ok a => simp [Functor.map, Except.map]

theorem map_eq_error {x : Except ε α} {g : α → β} {e : ε} :
    g <$> x = .error e ↔ x = .error e := by
  cases x <;> simp [Functor.map, Except.map]

/-- The items of a list that is made item by item answer those of the list they are made from. -/
theorem mapM_eq_ok {g : α → Except ε β} {xs : List α} {ys : List β} :
    xs.mapM g = .ok ys ↔ List.Forall₂ (fun x y => g x = .ok y) xs ys := by
  induction xs generalizing ys with
  | nil =>
    rw [List.mapM_nil, List.forall₂_nil_left_iff]
    exact ⟨fun h => (Except.ok.inj h).symm, fun h => h ▸ rfl⟩
  | cons x xs ih =>
    rw [List.mapM_cons, bind_eq_ok]
    constructor
    · rintro ⟨y, hy, h⟩
      obtain ⟨ys', hys, h⟩ := bind_eq_ok.1 h
      obtain rfl := Except.ok.inj h
      exact .cons hy (ih.1 hys)
    · intro h
      cases h with
      | cons hy hys => exact ⟨_, hy, bind_eq_ok.2 ⟨_, ih.2 hys, rfl⟩⟩

/-- What is made of some items of a list, in order, when each of them is made or passed over. -/
theorem filterMapM_eq_ok {g : α → Except ε (Option β)} {xs : List α} {ys : List β} :
    xs.filterMapM g = .ok ys ↔
      ∃ os, List.Forall₂ (fun x o => g x = .ok o) xs os ∧ ys = os.filterMap id := by
  induction xs generalizing ys with
  | nil =>
    rw [List.filterMapM_nil]
    constructor
    · intro h
      exact ⟨[], .nil, (Except.ok.inj h).symm⟩
    · rintro ⟨os, hos, rfl⟩
      cases hos
      rfl
  | cons x xs ih =>
    rw [List.filterMapM_cons, bind_eq_ok]
    constructor
    · rintro ⟨o, ho, h⟩
      cases o with
      | none =>
        obtain ⟨os, hos, rfl⟩ := ih.1 h
        exact ⟨none :: os, .cons ho hos, rfl⟩
      | some y =>
        obtain ⟨ys', hys, h⟩ := bind_eq_ok.1 h
        obtain rfl := Except.ok.inj h
        obtain ⟨os, hos, rfl⟩ := ih.1 hys
        exact ⟨some y :: os, .cons ho hos, rfl⟩
    · rintro ⟨os, hos, rfl⟩
      cases hos with
      | @cons _ o _ os ho hos =>
        refine ⟨o, ho, ?_⟩
        have hrest := ih.2 ⟨os, hos, rfl⟩
        cases o with
        | none => exact hrest
        | some y => exact bind_eq_ok.2 ⟨_, hrest, rfl⟩

/-- An item of the one list has its partner in the other. -/
theorem exists_mem_of_forall₂ {R : α → β → Prop} {xs : List α} {ys : List β}
    (h : List.Forall₂ R xs ys) {y : β} (hy : y ∈ ys) : ∃ x ∈ xs, R x y := by
  induction h with
  | nil => cases hy
  | cons hxy _ ih =>
    rcases List.mem_cons.1 hy with rfl | hy
    · exact ⟨_, List.mem_cons_self, hxy⟩
    · obtain ⟨x, hx, hxy⟩ := ih hy
      exact ⟨x, List.mem_cons_of_mem _ hx, hxy⟩

/-- Items that are made one by one from items in order are in order. -/
theorem pairwise_of_forall₂ {R : α → β → Prop} {S : α → α → Prop} {T : β → β → Prop} {xs : List α}
    {ys : List β} (h : List.Forall₂ R xs ys) (hxs : xs.Pairwise S)
    (hT : ∀ x ∈ xs, ∀ x' ∈ xs, ∀ y y', R x y → R x' y' → S x x' → T y y') : ys.Pairwise T := by
  induction h with
  | nil => exact .nil
  | @cons x y xs ys hxy h ih =>
    obtain ⟨hx, hxs⟩ := List.pairwise_cons.1 hxs
    refine List.pairwise_cons.2 ⟨fun y' hy' => ?_, ih hxs fun x hx x' hx' =>
      hT x (List.mem_cons_of_mem _ hx) x' (List.mem_cons_of_mem _ hx')⟩
    obtain ⟨x', hx', hxy'⟩ := exists_mem_of_forall₂ h hy'
    exact hT x List.mem_cons_self x' (List.mem_cons_of_mem _ hx') y y' hxy hxy' (hx x' hx')

/-- A check of every item passes when it passes for each. -/
theorem forM_eq_ok {g : α → Except ε Unit} {xs : List α} {u : Unit} :
    xs.forM g = .ok u ↔ ∀ x ∈ xs, g x = .ok () := by
  induction xs with
  | nil => simp [pure, Except.pure]
  | cons x xs ih =>
    change (g x >>= fun _ => xs.forM g) = .ok u ↔ _
    rw [bind_eq_ok, List.forall_mem_cons, ih]
    exact ⟨fun ⟨_, hx, hxs⟩ => ⟨hx, hxs⟩, fun ⟨hx, hxs⟩ => ⟨_, hx, hxs⟩⟩

theorem foldlM_cons_eq_ok {g : γ → α → Except ε γ} {x : α} {xs : List α} {s s' : γ} :
    (x :: xs).foldlM g s = .ok s' ↔ ∃ s₁, g s x = .ok s₁ ∧ xs.foldlM g s₁ = .ok s' := by
  rw [List.foldlM_cons, bind_eq_ok]

/-- What the step for each item of a list keeps is kept by all of them together. -/
theorem foldlM_invariant {g : γ → α → Except ε γ} {P : γ → Prop} {xs : List α} {s s' : γ}
    (h : xs.foldlM g s = .ok s') (hs : P s)
    (hstep : ∀ x ∈ xs, ∀ s₁ s₂, P s₁ → g s₁ x = .ok s₂ → P s₂) : P s' := by
  induction xs generalizing s with
  | nil =>
    obtain rfl := Except.ok.inj h
    exact hs
  | cons x xs ih =>
    obtain ⟨s₁, hx, hxs⟩ := foldlM_cons_eq_ok.1 h
    obtain ⟨hhead, htail⟩ := List.forall_mem_cons.1 hstep
    exact ih hxs (hhead s s₁ hs hx) htail

/-! ## Steps that carry a state -/

variable {σ : Type}

theorem run_bind_eq_ok {x : StateT σ (Except ε) α} {k : α → StateT σ (Except ε) β} {s s'' : σ}
    {b : β} :
    (x >>= k).run s = .ok (b, s'') ↔
      ∃ a s', x.run s = .ok (a, s') ∧ (k a).run s' = .ok (b, s'') := by
  rw [StateT.run_bind, bind_eq_ok]
  constructor
  · rintro ⟨⟨a, s'⟩, hx, hk⟩
    exact ⟨a, s', hx, hk⟩
  · rintro ⟨a, s', hx, hk⟩
    exact ⟨⟨a, s'⟩, hx, hk⟩

theorem run_pure_eq_ok {a b : α} {s s' : σ} :
    (pure a : StateT σ (Except ε) α).run s = .ok (b, s') ↔ a = b ∧ s = s' := by
  rw [StateT.run_pure]
  simp [pure, Except.pure]

theorem run_throw_ne_ok {e : ε} {a : α} {s s' : σ} :
    ¬(throw e : StateT σ (Except ε) α).run s = .ok (a, s') := by
  intro h
  cases h

theorem run_lift_eq_ok {x : Except ε α} {a : α} {s s' : σ} :
    (liftM x : StateT σ (Except ε) α).run s = .ok (a, s') ↔ x = .ok a ∧ s = s' := by
  cases x with
  | error e =>
    refine ⟨fun h => ?_, fun ⟨h, _⟩ => by cases h⟩
    cases h
  | ok b =>
    constructor
    · intro h
      obtain ⟨rfl, rfl⟩ := Prod.mk.inj (Except.ok.inj h)
      exact ⟨rfl, rfl⟩
    · rintro ⟨h, rfl⟩
      obtain rfl := Except.ok.inj h
      rfl

/-! ## Steps that keep their state when they fail -/

/-- The step succeeds from `s` with value `a` and leaves `s'`. -/
def Succeeds (x : ExceptT ε (StateM σ) α) (s : σ) (a : α) (s' : σ) : Prop :=
  x.run.run s = (.ok a, s')

/-- Whether a step succeeds is found by taking it. -/
theorem exists_succeeds {x : ExceptT ε (StateM σ) α} {s : σ}
    (h : (x.run.run s).1.toOption.isSome) : ∃ a s', Succeeds x s a s' := by
  rcases hx : x.run.run s with ⟨e | a, s'⟩
  · rw [hx] at h
    cases h
  · exact ⟨a, s', hx⟩

/-- Whether a step succeeds with a result as wanted is found by taking it. -/
theorem exists_succeeds_with {P : α → Prop} {x : ExceptT ε (StateM σ) α} {s : σ}
    (h : ∃ a, (x.run.run s).1 = .ok a ∧ P a) : ∃ a s', Succeeds x s a s' ∧ P a := by
  obtain ⟨a, ha, hP⟩ := h
  exact ⟨a, (x.run.run s).2, Prod.ext ha rfl, hP⟩

/-- A step has one result. -/
theorem Succeeds.unique {x : ExceptT ε (StateM σ) α} {s s' s'' : σ} {a b : α}
    (h : Succeeds x s a s') (h' : Succeeds x s b s'') : a = b ∧ s' = s'' := by
  obtain ⟨hab, hs⟩ := Prod.mk.inj (h.symm.trans h')
  exact ⟨Except.ok.inj hab, hs⟩

theorem succeeds_pure {a b : α} {s s' : σ} :
    Succeeds (pure a : ExceptT ε (StateM σ) α) s b s' ↔ a = b ∧ s = s' := by
  change ((Except.ok a, s) : Except ε α × σ) = (Except.ok b, s') ↔ _
  simp

/-- A step after another is taken if the other succeeds, from the state that it leaves. -/
theorem bind_run {x : ExceptT ε (StateM σ) α} {k : α → ExceptT ε (StateM σ) β} {s : σ} :
    (x >>= k).run.run s =
      match x.run.run s with
      | (.ok a, s') => (k a).run.run s'
      | (.error e, s') => (.error e, s') := by
  rw [ExceptT.run_bind, StateT.run_bind]
  rcases x.run.run s with ⟨a | a, s'⟩ <;> rfl

theorem succeeds_bind {x : ExceptT ε (StateM σ) α} {k : α → ExceptT ε (StateM σ) β} {s s'' : σ}
    {b : β} : Succeeds (x >>= k) s b s'' ↔ ∃ a s', Succeeds x s a s' ∧ Succeeds (k a) s' b s'' := by
  unfold Succeeds
  rw [bind_run]
  constructor
  · intro h
    split at h
    · next a s' hx => exact ⟨a, s', hx, h⟩
    · cases h
  · rintro ⟨a, s', hx, hk⟩
    rw [hx]
    exact hk

/-- The steps for the items of a list are taken one after the other. -/
theorem succeeds_mapM_cons {g : α → ExceptT ε (StateM σ) β} {x : α} {xs : List α} {ys : List β}
    {s s'' : σ} :
    Succeeds ((x :: xs).mapM g) s ys s'' ↔
      ∃ y s' ys', Succeeds (g x) s y s' ∧ Succeeds (xs.mapM g) s' ys' s'' ∧ ys = y :: ys' := by
  rw [List.mapM_cons]
  simp only [succeeds_bind, succeeds_pure]
  constructor
  · rintro ⟨y, s', hy, ys', _, hys, rfl, rfl⟩
    exact ⟨y, s', ys', hy, hys, rfl⟩
  · rintro ⟨y, s', ys', hy, hys, rfl⟩
    exact ⟨y, s', hy, ys', s'', hys, rfl, rfl⟩

theorem not_succeeds_throw {e : ε} {a : α} {s s' : σ} :
    ¬Succeeds (throw e : ExceptT ε (StateM σ) α) s a s' := by
  intro h
  cases h

theorem succeeds_lift {x : Except ε α} {a : α} {s s' : σ} :
    Succeeds (liftM x : ExceptT ε (StateM σ) α) s a s' ↔ x = .ok a ∧ s = s' := by
  change ((x, s) : Except ε α × σ) = (Except.ok a, s') ↔ _
  simp

theorem succeeds_get {a s s' : σ} :
    Succeeds (get : ExceptT ε (StateM σ) σ) s a s' ↔ s = a ∧ s = s' := by
  change ((Except.ok s, s) : Except ε σ × σ) = (Except.ok a, s') ↔ _
  simp

theorem succeeds_set {t s s' : σ} {u : PUnit} :
    Succeeds (set t : ExceptT ε (StateM σ) PUnit) s u s' ↔ t = s' := by
  change ((Except.ok PUnit.unit, t) : Except ε PUnit × σ) = (Except.ok u, s') ↔ _
  simp

theorem succeeds_modify {g : σ → σ} {s s' : σ} {u : PUnit} :
    Succeeds (modify g : ExceptT ε (StateM σ) PUnit) s u s' ↔ g s = s' := by
  change ((Except.ok PUnit.unit, g s) : Except ε PUnit × σ) = (Except.ok u, s') ↔ _
  simp

/-- The step fails from `s` with the fault `e` and leaves `s'`. -/
def Fails (x : ExceptT ε (StateM σ) α) (s : σ) (e : ε) (s' : σ) : Prop :=
  x.run.run s = (.error e, s')

/-- Whether a step fails with a fault as wanted is found by taking it. -/
theorem exists_fails_with {P : ε → Prop} {x : ExceptT ε (StateM σ) α} {s : σ}
    (h : ∃ e, (x.run.run s).1 = .error e ∧ P e) : ∃ e s', Fails x s e s' ∧ P e := by
  obtain ⟨e, he, hP⟩ := h
  exact ⟨e, (x.run.run s).2, Prod.ext he rfl, hP⟩

theorem Fails.not_succeeds {x : ExceptT ε (StateM σ) α} {s s' s'' : σ} {e : ε} {a : α}
    (h : Fails x s e s') : ¬Succeeds x s a s'' := by
  intro h'
  cases (Prod.mk.inj (h.symm.trans h')).1

theorem fails_bind {x : ExceptT ε (StateM σ) α} {k : α → ExceptT ε (StateM σ) β} {s s'' : σ}
    {e : ε} : Fails (x >>= k) s e s'' ↔
      Fails x s e s'' ∨ ∃ a s', Succeeds x s a s' ∧ Fails (k a) s' e s'' := by
  unfold Fails Succeeds
  rw [bind_run]
  rcases x.run.run s with ⟨e' | a, s'⟩
  · constructor
    · intro h
      cases h
      exact .inl rfl
    · rintro (h | ⟨a, s', h, -⟩)
      · cases h
        rfl
      · cases h
  · refine ⟨fun h => .inr ⟨a, s', rfl, h⟩, ?_⟩
    rintro (h | ⟨a', s₁, h, hk⟩)
    · cases h
    · cases h
      exact hk

theorem fails_throw {e e' : ε} {s s' : σ} :
    Fails (throw e : ExceptT ε (StateM σ) α) s e' s' ↔ e = e' ∧ s = s' := by
  change ((Except.error e, s) : Except ε α × σ) = (Except.error e', s') ↔ _
  simp

theorem not_fails_get {e : ε} {s s' : σ} : ¬Fails (get : ExceptT ε (StateM σ) σ) s e s' := by
  intro h
  cases h

theorem not_fails_set {e : ε} {s s' t : σ} :
    ¬Fails (set t : ExceptT ε (StateM σ) PUnit) s e s' := by
  intro h
  cases h

theorem not_fails_modify {e : ε} {g : σ → σ} {s s' : σ} :
    ¬Fails (modify g : ExceptT ε (StateM σ) PUnit) s e s' := by
  intro h
  cases h

/-! ### Steps behind a check of the state -/

section Unless

variable {c : σ → Bool} {fault : σ → ε} {k : σ → ExceptT ε (StateM σ) α} {s s' : σ}

/-- A step that is refused in some states succeeds in the others, if it does so on its own. -/
theorem succeeds_get_unless {a : α} :
    Succeeds (do
      let x ← get
      if c x then
        throw (fault x)
      k x) s a s' ↔ c s = false ∧ Succeeds (k s) s a s' := by
  rw [succeeds_bind]
  constructor
  · rintro ⟨x, s₁, hget, h⟩
    obtain ⟨rfl, rfl⟩ := succeeds_get.1 hget
    split at h
    · obtain ⟨_, _, hthrow, -⟩ := succeeds_bind.1 h
      exact absurd hthrow not_succeeds_throw
    · next hpass => exact ⟨Bool.eq_false_iff.2 hpass, h⟩
  · rintro ⟨hpass, h⟩
    refine ⟨s, s, succeeds_get.2 ⟨rfl, rfl⟩, ?_⟩
    rw [if_neg (Bool.eq_false_iff.1 hpass)]
    exact h

/-- A step that is refused in some states changes nothing there, and elsewhere fails if it does so on
its own. -/
theorem fails_get_unless {e : ε} :
    Fails (do
      let x ← get
      if c x then
        throw (fault x)
      k x) s e s' ↔ c s = true ∧ fault s = e ∧ s = s' ∨ c s = false ∧ Fails (k s) s e s' := by
  rw [fails_bind]
  constructor
  · rintro (h | ⟨x, s₁, hget, h⟩)
    · exact absurd h not_fails_get
    obtain ⟨rfl, rfl⟩ := succeeds_get.1 hget
    split at h
    · next hstop =>
      rcases fails_bind.1 h with h | ⟨_, _, h, -⟩
      · exact .inl ⟨hstop, fails_throw.1 h⟩
      · exact absurd h not_succeeds_throw
    · next hpass => exact .inr ⟨Bool.eq_false_iff.2 hpass, h⟩
  · intro h
    refine .inr ⟨s, s, succeeds_get.2 ⟨rfl, rfl⟩, ?_⟩
    rcases h with ⟨hstop, rfl, rfl⟩ | ⟨hpass, h⟩
    · rw [if_pos hstop]
      exact fails_bind.2 (.inl (fails_throw.2 ⟨rfl, rfl⟩))
    · rw [if_neg (Bool.eq_false_iff.1 hpass)]
      exact h

end Unless

end EntityLoom
