import EntityLoom.Proofs.Code.Returns

/-!
# Objects that are handed on before they are constructed

The arguments of a call and its receiver, what a field write stores, what is returned or thrown and
what is cast go from a body to other code, or on under another type.  A call of a constructor checks
that its receiver is not constructed yet.  Nothing checks that what is handed on elsewhere is: where
a reference is asked for, every reference will do.

`MethodDecl.assemble_handed` says what is then handed on in assembled bodies.  A value that is asked
for has a known type in the recorded frame, and a value of known type that is not constructed is so
on every path, since it joins with nothing but itself.  So an object that is not constructed is
handed on along some path exactly if the recorded frame shows it, and then it is along every path
that arrives there.
-/

namespace EntityLoom

open EntityLoom.Frame (IsUnconstructed constructorName)

/-! ## What instructions hand on -/

/-- How many values, from the top of the stack down, an instruction hands on: the arguments of a
call and its receiver, unless the call is one of a constructor, and what is written to a field,
returned, thrown or cast. -/
def Instruction.handed : Instruction → Nat
  | .simple .areturn | .simple .athrow => 1
  | .field op _ => if op = .getfield ∨ op = .getstatic then 0 else 1
  | .invoke op r =>
    (match r.methodType with
    | .ok d => d.params.length
    | .error _ => 0) + if op = .invokestatic ∨ r.name = constructorName then 0 else 1
  | .type .checkcast _ => 1
  | _ => 0

theorem Instruction.handed_invoke {op : Opcode} {r : MemberRef} {d : MethodDescriptor}
    (hd : r.methodType = .ok d) :
    (Instruction.invoke op r).handed =
      d.params.length + if op = .invokestatic ∨ r.name = constructorName then 0 else 1 := by
  change (match r.methodType with | .ok d => d.params.length | .error _ => 0) + _ = _
  rw [hd]

namespace VerificationType

/-- A value that is not constructed is below a known type only if that is its own, and nothing else
is below its own type. -/
theorem eq_unconstructed_iff {u v w : VerificationType} (hu : IsUnconstructed u) (h : v.Below w)
    (hw : w ≠ .top) : v = u ↔ w = u := by
  have hune : u ≠ .top ∧ u ≠ .null ∧ ∀ n, u ≠ .object n := by
    rcases hu with rfl | ⟨offset, rfl⟩ <;> simp
  constructor
  · rintro rfl
    by_cases hobject : ∃ n, w = .object n
    · obtain ⟨n, rfl⟩ := hobject
      rcases below_object_iff.1 h with e | e | ⟨-, m, e⟩
      · exact absurd e hune.2.1
      · exact absurd e (hune.2.2 _)
      · exact absurd e (hune.2.2 _)
    · exact (eq_of_below h hw fun n e => hobject ⟨n, e⟩).symm
  · rintro rfl
    exact eq_of_below h hune.1 hune.2.2

end VerificationType

namespace Frame

variable {thisClass : String} {index offset : Nat} {ins : Instruction} {f f' g : Frame}

/-- The values that an instruction hands on, the topmost first. -/
def handed (f : Frame) (ins : Instruction) : List VerificationType :=
  f.stack.take ins.handed

/-- An object that is not constructed is among what an instruction hands on. -/
def Escapes (f : Frame) (ins : Instruction) : Prop :=
  ∃ u ∈ f.handed ins, IsUnconstructed u

/-- The topmost values of a stack are there, and something is known of each. -/
def Knows (f : Frame) (n : Nat) : Prop :=
  ∃ vs rest, f.stack = vs ++ rest ∧ vs.length = n ∧ .top ∉ vs

theorem knows_zero (f : Frame) : f.Knows 0 :=
  ⟨[], f.stack, rfl, rfl, List.not_mem_nil⟩

/-- A value that is popped is known. -/
theorem knows_one {e : Expectation} {v : VerificationType} (hacc : e.accepts v = true)
    (hstack : f.stack = v :: f'.stack) : f.Knows 1 :=
  ⟨[v], f'.stack, hstack, rfl, by simpa [eq_comm] using Expectation.ne_top_of_accepts hacc⟩

theorem Knows.take (h : f.Knows ins.handed) :
    (f.handed ins).length = ins.handed ∧ .top ∉ f.handed ins := by
  obtain ⟨vs, rest, hstack, hlength, htop⟩ := h
  have htake : f.handed ins = vs := by
    rw [handed, hstack, ← hlength, List.take_left]
  rw [htake]
  exact ⟨hlength, htop⟩

/-! ## What instructions ask of the values they hand on -/

theorem knows_of_forM_popDeclared {ds : List Descriptor} {u : PUnit}
    (h : (ds.forM (popDeclared index)).run f = .ok (u, f')) :
    ∃ vs, f.stack = vs ++ f'.stack ∧ vs.length = ds.length ∧ .top ∉ vs := by
  induction ds generalizing f with
  | nil =>
    obtain ⟨-, rfl⟩ := run_pure_eq_ok.1 h
    exact ⟨[], rfl, rfl, List.not_mem_nil⟩
  | cons d ds ih =>
    obtain ⟨_, f₁, hd, h⟩ := run_bind_eq_ok.1 h
    obtain ⟨v, hacc, hstack, -⟩ := popDeclared_eq_ok.1 hd
    obtain ⟨vs, hrest, hlength, htop⟩ := ih h
    have hv : VerificationType.top ≠ v := (Expectation.ne_top_of_accepts hacc).symm
    refine ⟨v :: vs, ?_, ?_, List.not_mem_cons_of_ne_of_not_mem hv htop⟩
    · rw [hstack, hrest, List.cons_append]
    · rw [List.length_cons, hlength, List.length_cons]

theorem popReceiver_eq_ok {op : Opcode} {r : MemberRef} {u : Unit} (hop : op ≠ .invokestatic) :
    (popReceiver thisClass index op r).run f = .ok (u, f') ↔
      ∃ v f₁, Expectation.reference.accepts v = true ∧ f.stack = v :: f₁.stack ∧
        f₁.locals = f.locals ∧ (construct thisClass index r v).run f₁ = .ok (u, f') := by
  unfold popReceiver
  rw [if_neg hop]
  simp only [run_bind_eq_ok, popExpecting_eq_ok, and_assoc]

/-- What an executed call did: it took its arguments, and then its receiver if it has one. -/
theorem executeInvoke_eq_ok {op : Opcode} {r : MemberRef} {u : Unit}
    (h : (executeInvoke thisClass index op r).run f = .ok (u, f')) :
    ∃ d vs f₁ f₂, r.methodType = .ok d ∧ f.stack = vs ++ f₁.stack ∧ vs.length = d.params.length ∧
      .top ∉ vs ∧ (popReceiver thisClass index op r).run f₁ = .ok (u, f₂) ∧
      (pushResult d.result).run f₂ = .ok (u, f') := by
  unfold executeInvoke at h
  obtain ⟨d, f₀, hlift, h⟩ := run_bind_eq_ok.1 h
  obtain ⟨hd, rfl⟩ := run_lift_eq_ok.1 hlift
  obtain ⟨_, f₁, hparams, h⟩ := run_bind_eq_ok.1 h
  obtain ⟨_, f₂, hreceiver, hresult⟩ := run_bind_eq_ok.1 h
  obtain ⟨vs, hstack, hlength, htop⟩ := knows_of_forM_popDeclared hparams
  rw [List.length_reverse] at hlength
  exact ⟨d, vs, f₁, f₂, hd, hstack, hlength, htop, hreceiver, hresult⟩

theorem knows_of_executeInvoke {op : Opcode} {r : MemberRef} {u : Unit}
    (h : (executeInvoke thisClass index op r).run f = .ok (u, f')) :
    f.Knows (Instruction.invoke op r).handed := by
  obtain ⟨d, vs, f₁, f₂, hd, hstack, hlength, htop, hreceiver, -⟩ := executeInvoke_eq_ok h
  rw [Instruction.handed_invoke hd]
  split
  · exact ⟨vs, f₁.stack, hstack, hlength, htop⟩
  · next hop =>
    obtain ⟨v, f₃, hacc, hstack₁, -⟩ := (popReceiver_eq_ok fun e => hop (.inl e)).1 hreceiver
    have hv : VerificationType.top ≠ v := (Expectation.ne_top_of_accepts hacc).symm
    refine ⟨vs ++ [v], f₃.stack, by simp [hstack, hstack₁], by simp [hlength], ?_⟩
    simp [htop, hv]

/-- An instruction that executes asks for every value that it hands on. -/
theorem knows_of_after (h : f.after thisClass index offset ins = .ok f') : f.Knows ins.handed := by
  obtain ⟨u, hu⟩ := after_eq_ok.1 h
  unfold execute at hu
  unfold Instruction.handed
  split
  · obtain ⟨v, f₁, hpop, -⟩ := run_bind_eq_ok.1 hu
    obtain ⟨hacc, hstack, -⟩ := popExpecting_eq_ok.1 hpop
    exact knows_one hacc hstack
  · obtain ⟨v, f₁, hpop, -⟩ := run_bind_eq_ok.1 hu
    obtain ⟨hacc, hstack, -⟩ := popExpecting_eq_ok.1 hpop
    exact knows_one hacc hstack
  · next op r =>
    split
    · exact knows_zero f
    · next hwrite =>
      obtain ⟨d, f₁, hlift, hu⟩ := run_bind_eq_ok.1 hu
      obtain ⟨-, rfl⟩ := run_lift_eq_ok.1 hlift
      split at hu
      · exact absurd (.inl rfl) hwrite
      · obtain ⟨_, f₂, hpop, -⟩ := run_bind_eq_ok.1 hu
        obtain ⟨v, hacc, hstack, -⟩ := popDeclared_eq_ok.1 hpop
        exact knows_one hacc hstack
      · exact absurd (.inr rfl) hwrite
      · obtain ⟨v, hacc, hstack, -⟩ := popDeclared_eq_ok.1 hu
        exact knows_one hacc hstack
  · exact knows_of_executeInvoke hu
  · obtain ⟨v, f₁, hpop, -⟩ := run_bind_eq_ok.1 hu
    obtain ⟨hacc, hstack, -⟩ := popExpecting_eq_ok.1 hpop
    exact knows_one hacc hstack
  · exact knows_zero f

/-! ## Frames of paths and recorded frames -/

theorem getElem?_unconstructed_iff {xs ys : List VerificationType}
    (h : List.Forall₂ VerificationType.Below xs ys) (htop : .top ∉ ys) {u : VerificationType}
    (hu : IsUnconstructed u) (k : Nat) : xs[k]? = some u ↔ ys[k]? = some u := by
  induction h generalizing k with
  | nil => rfl
  | cons hvw _ ih =>
    obtain ⟨hne, htop⟩ := not_or.1 (mt List.mem_cons.2 htop)
    cases k with
    | zero =>
      rw [List.getElem?_cons_zero, List.getElem?_cons_zero, Option.some.injEq, Option.some.injEq]
      exact VerificationType.eq_unconstructed_iff hu hvw (Ne.symm hne)
    | succ k =>
      rw [List.getElem?_cons_succ, List.getElem?_cons_succ]
      exact ih htop k

/-- An instruction finds objects that are not constructed at the same places of both frames, where
it executes on the upper one. -/
theorem Below.getElem?_handed (hfg : f.Below g) (h : g.after thisClass index offset ins = .ok f')
    {u : VerificationType} (hu : IsUnconstructed u) (k : Nat) :
    (f.handed ins)[k]? = some u ↔ (g.handed ins)[k]? = some u :=
  getElem?_unconstructed_iff (List.forall₂_take _ hfg.stack) (knows_of_after h).take.2 hu k

theorem escapes_congr
    (h : ∀ u, IsUnconstructed u → ∀ k : Nat,
      (f.handed ins)[k]? = some u ↔ (g.handed ins)[k]? = some u) :
    f.Escapes ins ↔ g.Escapes ins := by
  simp only [Escapes, List.mem_iff_getElem?]
  constructor
  · rintro ⟨u, ⟨k, hk⟩, hu⟩
    exact ⟨u, ⟨k, (h u hu k).1 hk⟩, hu⟩
  · rintro ⟨u, ⟨k, hk⟩, hu⟩
    exact ⟨u, ⟨k, (h u hu k).2 hk⟩, hu⟩

/-! ## Calls of constructors -/

/-- The receiver that a call of a constructor finds, which is not constructed; afterwards nothing in
the frame is. -/
def Constructs (f : Frame) (r : MemberRef) (f' : Frame) : Prop :=
  ∃ d u, r.methodType = .ok d ∧ IsUnconstructed u ∧ f.stack[d.params.length]? = some u ∧
    u ∉ f'.stack ∧ u ∉ f'.locals

theorem not_mem_map_swap {u : VerificationType} {name : String} (hu : IsUnconstructed u)
    (vs : List VerificationType) : u ∉ vs.map fun v => if v = u then .object name else v := by
  have hne : ∀ n, VerificationType.object n ≠ u := by
    rcases hu with rfl | ⟨offset, rfl⟩ <;> simp
  intro hmem
  obtain ⟨v, -, hv⟩ := List.mem_map.1 hmem
  split at hv
  · exact hne name hv
  · next hvu => exact hvu hv

theorem not_isUnconstructed_ofDescriptor (d : Descriptor) : ¬IsUnconstructed (.ofDescriptor d) := by
  cases d <;> simp [VerificationType.ofDescriptor, IsUnconstructed]

theorem constructs_of_after {op : Opcode} {r : MemberRef} (hop : op ≠ .invokestatic)
    (hname : r.name = constructorName)
    (h : f.after thisClass index offset (.invoke op r) = .ok f') : f.Constructs r f' := by
  obtain ⟨u, hu⟩ := after_eq_ok.1 h
  obtain ⟨d, vs, f₁, f₂, hd, hstack, hlength, -, hreceiver, hresult⟩ := executeInvoke_eq_ok hu
  obtain ⟨v, f₃, -, hstack₁, -, hconstruct⟩ := (popReceiver_eq_ok hop).1 hreceiver
  unfold construct at hconstruct
  rw [if_pos hname] at hconstruct
  split at hconstruct
  · next name hclass =>
    have hv := isUnconstructed_of_constructedClass? hclass
    have hreplaced := modify_eq_ok.1 hconstruct
    have hstack₂ : v ∉ f₂.stack := hreplaced ▸ not_mem_map_swap hv f₃.stack
    have hlocals₂ : v ∉ f₂.locals := hreplaced ▸ not_mem_map_swap hv f₃.locals
    refine ⟨d, v, hd, hv, ?_, ?_⟩
    · rw [hstack, hstack₁, ← hlength, List.getElem?_append_right (Nat.le_refl _), Nat.sub_self]
      rfl
    · unfold pushResult at hresult
      split at hresult
      · obtain ⟨-, rfl⟩ := run_pure_eq_ok.1 hresult
        exact ⟨hstack₂, hlocals₂⟩
      · rw [push_eq_ok.1 hresult]
        refine ⟨List.not_mem_cons_of_ne_of_not_mem ?_ hstack₂, hlocals₂⟩
        rintro rfl
        exact not_isUnconstructed_ofDescriptor _ hv
  · exact absurd hconstruct run_throw_ne_ok

end Frame

/-! ## Assembled bodies -/

namespace MethodDecl

variable {m : MethodDecl} {thisClass : String} {withFrames : Bool} {p p' : Pool} {b : CodeBody}

namespace Assembled

variable (a : m.Assembled thisClass withFrames p b p')

theorem executeAt_eq {i : Nat} {ins : Instruction} (hins : m.body[i]? = some ins) (f : Frame) :
    a.layout.executeAt f i = f.after a.layout.thisClass i (a.layout.offsets.getD i 0) ins := by
  have hat : a.layout.instructions[i]? = some ins := (a.lays.getElem? i).trans hins
  rw [Layout.executeAt, hat]

/-- A path arrives with a frame on which the instruction executes, and that has the same objects
that are not constructed among what is handed on as the recorded frame. -/
theorem handed_along {i : Nat} {ins : Instruction} (hins : m.body[i]? = some ins) {g : Frame}
    (hg : a.analysis.frameAt i = some g) {visited : List Nat} (hpath : a.layout.Path visited i) :
    ∃ f f', a.layout.executeAlong a.entry visited = .ok f ∧
      f.after a.layout.thisClass i (a.layout.offsets.getD i 0) ins = .ok f' ∧
      ∀ u, IsUnconstructed u → ∀ k : Nat,
        (f.handed ins)[k]? = some u ↔ (g.handed ins)[k]? = some u := by
  have htyped := a.leastTyping.1.typed
  obtain ⟨f, g₁, hf, hg₁, hfg⟩ := htyped.executeAlong_below hpath
  obtain rfl := Option.some.inj (hg.symm.trans hg₁)
  obtain ⟨f', g', hf', hg', -⟩ := htyped.executeAt_below hg hfg
  rw [a.executeAt_eq hins] at hf' hg'
  exact ⟨f, f', hf, hf', fun u hu k => hfg.getElem?_handed hg' hu k⟩

end Assembled

/-- What instructions of an assembled body hand on.  Control reaches each of them.  Along every path
that arrives there, what it hands on is on the stack, and the objects in it that are not constructed
are those of the recorded frame; so one is handed on along some path exactly if the recorded frame
shows it.  Calls of constructors find a receiver that is not constructed, and nothing of its type is
left after them. -/
theorem assemble_handed (h : Succeeds (m.assemble thisClass withFrames) p b p') :
    ∃ a : m.Assembled thisClass withFrames p b p', ∀ i ins,
      m.body[i]? = some ins → ins.isMark = false →
      (∃ visited, a.layout.Path visited i) ∧
      ∃ g, a.analysis.frameAt i = some g ∧
        (∀ visited, a.layout.Path visited i →
          ∃ f f', a.layout.executeAlong a.entry visited = .ok f ∧
            a.layout.executeAt f i = .ok f' ∧ (f.handed ins).length = ins.handed ∧
            (∀ u, IsUnconstructed u → ∀ k : Nat,
              (f.handed ins)[k]? = some u ↔ (g.handed ins)[k]? = some u) ∧
            ∀ op r, ins = .invoke op r → op ≠ .invokestatic → r.name = constructorName →
              f.Constructs r f') ∧
        ((∃ visited f, a.layout.Path visited i ∧ a.layout.executeAlong a.entry visited = .ok f ∧
            f.Escapes ins) ↔ g.Escapes ins) := by
  obtain ⟨a⟩ := nonempty_assembled h
  refine ⟨a, fun i ins hins hmark => ?_⟩
  obtain ⟨visited₀, hpath₀⟩ := a.exists_path hins hmark
  obtain ⟨-, g, -, hg, -⟩ := a.leastTyping.1.typed.executeAlong_below hpath₀
  refine ⟨⟨visited₀, hpath₀⟩, g, hg, fun visited hpath => ?_, ?_⟩
  · obtain ⟨f, f', hf, hafter, hsame⟩ := a.handed_along hins hg hpath
    refine ⟨f, f', hf, (a.executeAt_eq hins f).trans hafter,
      (Frame.knows_of_after hafter).take.1, hsame, ?_⟩
    rintro op r rfl hop hname
    exact Frame.constructs_of_after hop hname hafter
  · constructor
    · rintro ⟨visited, f, hpath, hf, hescapes⟩
      obtain ⟨f₁, -, hf₁, -, hsame⟩ := a.handed_along hins hg hpath
      obtain rfl := Except.ok.inj (hf.symm.trans hf₁)
      exact (Frame.escapes_congr hsame).1 hescapes
    · intro hescapes
      obtain ⟨f, -, hf, -, hsame⟩ := a.handed_along hins hg hpath₀
      exact ⟨visited₀, f, hpath₀, hf, (Frame.escapes_congr hsame).2 hescapes⟩

/-- A method that throws an object that is not constructed. -/
def hasty : MethodDecl where
  access := 0x0009
  name := "f"
  descriptor := "()V"
  body := [.type .new "A", .simple .athrow]

/-- It assembles. -/
theorem assemble_handed_hasty :
    ∃ b p', Succeeds (hasty.assemble "A" false) .empty b p' ∧
      ∃ (a : hasty.Assembled "A" false .empty b p') (f : Frame),
        a.layout.Path [0] 1 ∧ a.layout.executeAlong a.entry [0] = .ok f ∧
        f.Escapes (.simple .athrow) := by
  obtain ⟨b, p', h⟩ := exists_succeeds (x := hasty.assemble "A" false) (s := .empty)
    (by decide +kernel)
  obtain ⟨a, hhanded⟩ := assemble_handed h
  have hins : hasty.body[0]? = some (.type .new "A") := rfl
  have hpath : a.layout.Path [0] 1 := .step .start (.next ((a.lays.getElem? 0).trans hins) rfl)
  obtain ⟨-, g, -, halong, -⟩ := hhanded 1 (.simple .athrow) rfl rfl
  obtain ⟨f, f', hf, -⟩ := halong [0] hpath
  have hnew : a.layout.executeAt a.entry 0 = .ok f :=
    (@Layout.executeAlong_append_singleton a.layout a.entry a.entry [] 0 rfl).symm.trans hf
  rw [a.executeAt_eq hins] at hnew
  obtain ⟨u, hu⟩ := Frame.after_eq_ok.1 hnew
  refine ⟨b, p', h, a, f, hpath, hf, ?_⟩
  unfold Frame.execute Frame.executeType at hu
  dsimp only at hu
  split at hu
  · rw [Frame.push_eq_ok.1 hu]
    exact ⟨_, List.mem_cons_self, .inr ⟨_, rfl⟩⟩
  · exact absurd hu run_throw_ne_ok

end MethodDecl

end EntityLoom
