import EntityLoom.ClassFile.Descriptor
import Mathlib.Data.Set.Function

/-!
# Descriptors that are read back

A descriptor that is written into code is read again where the code is checked.  The text of a
well-formed descriptor is read as that descriptor (`Descriptor.ofText_text`), and the text of a
method's parameters and result as those (`MethodDescriptor.ofText_text`).  The readers take
descriptors off the front of a text, so the lemmas speak of what follows.

Conversely, what the readers take is the text of what they answer, and that is well formed
(`Descriptor.take?_eq_some`, `MethodDescriptor.takeParams?_eq_some`).  So the readers accept exactly
the texts of well-formed descriptors, and no text can be read in two ways (`ofText_exact`).
-/

namespace EntityLoom

namespace Descriptor

/-- The names of classes can be told from what follows them, and no array has `void` elements. -/
def WellFormed : Descriptor → Prop
  | object name => name ≠ "" ∧ ';' ∉ name.toList
  | array element => element ≠ void ∧ element.WellFormed
  | _ => True

instance decidableWellFormed : (d : Descriptor) → Decidable d.WellFormed
  | object name => inferInstanceAs (Decidable (name ≠ "" ∧ ';' ∉ name.toList))
  | array element =>
    have := decidableWellFormed element
    inferInstanceAs (Decidable (element ≠ void ∧ element.WellFormed))
  | boolean | byte | char | short | int | long | float | double | void => isTrue trivial

variable {d : Descriptor} {cs rest : List Char}

theorem arrayOf_succ (depth : Nat) (d : Descriptor) :
    arrayOf (depth + 1) d = array (arrayOf depth d) := by
  induction depth generalizing d with
  | zero => rfl
  | succ depth ih => exact ih (array d)

/-- The name of a class ends at the first semicolon. -/
theorem takeElement?_object {name : String} (h : (object name).WellFormed) (rest : List Char) :
    takeElement? ('L' :: (name.toList ++ ';' :: rest)) = some (object name, rest) := by
  obtain ⟨hempty, hsemicolon⟩ := h
  have hall : ∀ c ∈ name.toList, decide (c ≠ ';') = true := by
    intro c hc
    exact decide_eq_true fun heq => hsemicolon (heq ▸ hc)
  have htake : (name.toList ++ ';' :: rest).takeWhile (· ≠ ';') = name.toList := by
    rw [List.takeWhile_append_of_pos hall]
    simp
  have hdrop : (name.toList ++ ';' :: rest).dropWhile (· ≠ ';') = ';' :: rest := by
    rw [List.dropWhile_append_of_pos hall]
    simp
  simp only [takeElement?, htake, hdrop]
  cases hname : name.toList with
  | nil => exact absurd (String.toList_eq_nil_iff.1 hname) hempty
  | cons c cs =>
    dsimp only
    rw [← hname, String.ofList_toList]

/-- A bracket makes an array of the type after it. -/
theorem take?_bracket (h : take? cs = some (d, rest)) (hd : d ≠ void) :
    take? ('[' :: cs) = some (array d, rest) := by
  unfold take? at h ⊢
  rw [List.dropWhile_cons_of_pos (by simp), List.takeWhile_cons_of_pos (by simp)]
  cases helement : takeElement? (cs.dropWhile (· = '[')) with
  | none =>
    rw [helement] at h
    cases h
  | some x =>
    obtain ⟨element, rest'⟩ := x
    rw [helement] at h
    dsimp only at h ⊢
    split at h
    · cases h
    · next hvoid =>
      obtain ⟨rfl, rfl⟩ := Prod.mk.inj (Option.some.inj h)
      rw [List.length_cons, arrayOf_succ, if_neg]
      rintro ⟨rfl, -⟩
      -- An element of type `void` stands behind no bracket, so the type read before is `void`.
      have hdepth : (cs.takeWhile (· = '[')).length = 0 :=
        Decidable.byContradiction fun hne => hvoid ⟨rfl, hne⟩
      rw [hdepth] at hd
      exact hd rfl

/-- A text that starts with no bracket is read as an element. -/
theorem take?_of_head {c : Char} (hc : c ≠ '[') (h : takeElement? (c :: cs) = some (d, rest)) :
    take? (c :: cs) = some (d, rest) := by
  unfold take?
  rw [List.dropWhile_cons_of_neg (by simpa using hc), List.takeWhile_cons_of_neg (by simpa using hc),
    h]
  simp [arrayOf]

/-- Reading takes the descriptor that a text starts with. -/
theorem take?_chars_append (h : d.WellFormed) (rest : List Char) :
    take? (d.chars ++ rest) = some (d, rest) := by
  induction d with
  | object name =>
    have hshape : (object name).chars ++ rest = 'L' :: (name.toList ++ ';' :: rest) := by
      simp [chars]
    rw [hshape]
    exact take?_of_head (by decide) (takeElement?_object h rest)
  | array element ih => exact take?_bracket (ih h.2) h.1
  | _ => exact take?_of_head (by decide) rfl

theorem ofText_text (h : d.WellFormed) : ofText d.text = .ok d := by
  have htake := take?_chars_append h []
  rw [List.append_nil] at htake
  unfold ofText text
  rw [String.toList_ofList, htake]

/-! ### What is read -/

/-- A class name that was read holds no semicolon, and one stood behind it. -/
theorem wellFormed_of_takeWhile {c x : Char} {name tail : List Char}
    (htake : cs.takeWhile (· ≠ ';') = c :: name) (hdrop : cs.dropWhile (· ≠ ';') = x :: tail) :
    (object (String.ofList (c :: name))).WellFormed ∧ c :: name ++ ';' :: tail = cs := by
  have hx : x = ';' := by
    have hhead := List.head?_dropWhile_not (· ≠ ';') cs
    rw [hdrop] at hhead
    simpa using hhead
  subst hx
  refine ⟨⟨by simp, fun hmem => ?_⟩, ?_⟩
  · rw [String.toList_ofList, ← htake] at hmem
    simpa using List.all_eq_true.1 List.all_takeWhile _ hmem
  · rw [← htake, ← hdrop, List.takeWhile_append_dropWhile]

theorem takeElement?_eq_some (h : takeElement? cs = some (d, rest)) :
    d.WellFormed ∧ d.chars ++ rest = cs := by
  unfold takeElement? at h
  split at h
  case h_10 tail =>
    split at h
    · next c name x rest' htake hdrop =>
      obtain ⟨rfl, rfl⟩ := Prod.mk.inj (Option.some.inj h)
      obtain ⟨hwell, htext⟩ := wellFormed_of_takeWhile htake hdrop
      refine ⟨hwell, ?_⟩
      rw [← htext]
      simp [chars]
    · cases h
  case h_11 => cases h
  all_goals
    obtain ⟨rfl, rfl⟩ := Prod.mk.inj (Option.some.inj h)
    exact ⟨trivial, rfl⟩

/-- Arrays are well formed if their elements are, and these are not of type `void`. -/
theorem wellFormed_arrayOf {depth : Nat} :
    (arrayOf depth d).WellFormed ↔ d.WellFormed ∧ (depth ≠ 0 → d ≠ void) := by
  induction depth generalizing d with
  | zero => simp [arrayOf]
  | succ depth ih =>
    rw [arrayOf, ih]
    simp [WellFormed, and_comm]

theorem chars_arrayOf {depth : Nat} :
    (arrayOf depth d).chars = List.replicate depth '[' ++ d.chars := by
  induction depth generalizing d with
  | zero => rfl
  | succ depth ih =>
    rw [arrayOf, ih, chars, List.replicate_succ', List.append_assoc, List.singleton_append]

/-- Reading takes a well-formed descriptor off the text that starts with it, and nothing else. -/
theorem take?_eq_some : take? cs = some (d, rest) ↔ d.WellFormed ∧ d.chars ++ rest = cs := by
  constructor
  · intro h
    unfold take? at h
    split at h
    · cases h
    · next element tail helement =>
      dsimp only at h
      split at h
      · cases h
      · next hvoid =>
        obtain ⟨rfl, rfl⟩ := Prod.mk.inj (Option.some.inj h)
        obtain ⟨hwell, htext⟩ := takeElement?_eq_some helement
        refine ⟨wellFormed_arrayOf.2 ⟨hwell, fun hdepth heq => hvoid ⟨heq, hdepth⟩⟩, ?_⟩
        have hbrackets : cs.takeWhile (· = '[') =
            List.replicate (cs.takeWhile (· = '[')).length '[' :=
          List.eq_replicate_of_mem fun c hc => by
            simpa using List.all_eq_true.1 List.all_takeWhile c hc
        rw [chars_arrayOf, ← hbrackets, List.append_assoc, htext, List.takeWhile_append_dropWhile]
  · rintro ⟨hwell, rfl⟩
    exact take?_chars_append hwell rest

theorem ofText_eq_ok {s : String} : ofText s = .ok d ↔ d.WellFormed ∧ d.text = s := by
  constructor
  · intro h
    unfold ofText at h
    split at h
    · next d' htake =>
      obtain rfl := Except.ok.inj h
      obtain ⟨hwell, htext⟩ := take?_eq_some.1 htake
      rw [List.append_nil] at htext
      refine ⟨hwell, ?_⟩
      rw [text, htext, String.ofList_toList]
    · cases h
  · rintro ⟨hwell, rfl⟩
    exact ofText_text hwell

/-- No descriptor starts with a closing bracket. -/
theorem chars_eq_cons (d : Descriptor) : ∃ c cs, d.chars = c :: cs ∧ c ≠ ')' := by
  cases d <;> exact ⟨_, _, rfl, by decide⟩

end Descriptor

namespace MethodDescriptor

/-- The parameters have values, and all types are well formed. -/
structure WellFormed (m : MethodDescriptor) : Prop where
  params : ∀ d ∈ m.params, d.WellFormed ∧ d ≠ .void
  result : m.result.WellFormed

instance (m : MethodDescriptor) : Decidable m.WellFormed :=
  decidable_of_iff ((∀ d ∈ m.params, d.WellFormed ∧ d ≠ .void) ∧ m.result.WellFormed)
    ⟨fun ⟨hparams, hresult⟩ => ⟨hparams, hresult⟩, fun h => ⟨h.params, h.result⟩⟩

/-- Reading takes the parameters up to the closing bracket. -/
theorem takeParams?_chars_append {params : List Descriptor}
    (h : ∀ d ∈ params, d.WellFormed ∧ d ≠ .void) (acc : List Descriptor) (rest : List Char) :
    takeParams? acc (params.flatMap Descriptor.chars ++ ')' :: rest) =
      some (acc.reverse ++ params, rest) := by
  induction params generalizing acc with
  | nil =>
    rw [List.flatMap_nil, List.nil_append, takeParams?, List.append_nil]
  | cons d params ih =>
    obtain ⟨hd, hrest⟩ := List.forall_mem_cons.1 h
    have htake := Descriptor.take?_chars_append hd.1 (params.flatMap Descriptor.chars ++ ')' :: rest)
    rw [List.flatMap_cons, List.append_assoc]
    generalize params.flatMap Descriptor.chars ++ ')' :: rest = tail at ih htake ⊢
    have hopen : ∀ cs, d.chars ++ tail ≠ ')' :: cs := by
      obtain ⟨c, cs, hc, hne⟩ := d.chars_eq_cons
      intro cs' heq
      rw [hc] at heq
      exact hne (List.cons.inj heq).1
    rw [takeParams?.eq_2 _ _ hopen]
    split
    · next hnone =>
      rw [htake] at hnone
      cases hnone
    · next d' rest' hsome =>
      rw [htake] at hsome
      obtain ⟨rfl, rfl⟩ := Prod.mk.inj (Option.some.inj hsome)
      rw [if_neg hd.2, ih hrest]
      simp

theorem ofText_text {m : MethodDescriptor} (h : m.WellFormed) : ofText m.text = .ok m := by
  have hparams := takeParams?_chars_append h.params [] m.result.chars
  have hresult := Descriptor.take?_chars_append h.result []
  rw [List.append_nil] at hresult
  unfold ofText text
  rw [String.toList_ofList]
  simp [chars, hparams, hresult]

/-! ### What is read -/

/-- What is read before the closing bracket is the text of well-formed types that have values. -/
theorem takeParams?_eq_some {acc params : List Descriptor} {cs rest : List Char}
    (h : takeParams? acc cs = some (params, rest)) :
    ∃ ds, params = acc.reverse ++ ds ∧ (∀ d ∈ ds, d.WellFormed ∧ d ≠ .void) ∧
      ds.flatMap Descriptor.chars ++ ')' :: rest = cs := by
  fun_induction takeParams? acc cs with
  | case1 acc tail =>
    obtain ⟨rfl, rfl⟩ := Prod.mk.inj (Option.some.inj h)
    exact ⟨[], by simp, by simp, rfl⟩
  | case2 => cases h
  | case3 => cases h
  | case4 acc cs _ d tail htake hvoid ih =>
    obtain ⟨ds, rfl, hds, htail⟩ := ih h
    obtain ⟨hwell, htext⟩ := Descriptor.take?_eq_some.1 htake
    refine ⟨d :: ds, by simp, List.forall_mem_cons.2 ⟨⟨hwell, hvoid⟩, hds⟩, ?_⟩
    rw [List.flatMap_cons, List.append_assoc, htail, htext]

theorem ofText_eq_ok {s : String} {m : MethodDescriptor} :
    ofText s = .ok m ↔ m.WellFormed ∧ m.text = s := by
  constructor
  · intro h
    unfold ofText at h
    dsimp only at h
    split at h
    · next m' hread =>
      obtain rfl := Except.ok.inj h
      split at hread
      · next cs hs =>
        obtain ⟨⟨params, rest⟩, hparams, hread⟩ := Option.bind_eq_some_iff.1 hread
        dsimp only at hread
        split at hread
        · next result htake =>
          obtain rfl := Option.some.inj hread
          obtain ⟨ds, rfl, hds, htext⟩ := takeParams?_eq_some hparams
          obtain ⟨hwell, hresult⟩ := Descriptor.take?_eq_some.1 htake
          rw [List.append_nil] at hresult
          refine ⟨⟨hds, hwell⟩, ?_⟩
          simp only [text, chars, hresult, htext]
          rw [← hs, String.ofList_toList]
        · cases hread
      · cases hread
    · cases h
  · rintro ⟨hwell, rfl⟩
    exact ofText_text hwell

end MethodDescriptor

/-- A text is read as a descriptor exactly if it is the text of that descriptor, which is well formed,
and as a method descriptor exactly if it is the text of that and all types in it are well formed and
those of parameters have values.  So different descriptors have different texts. -/
theorem Descriptor.ofText_exact :
    (∀ s d, Descriptor.ofText s = .ok d ↔ d.WellFormed ∧ d.text = s) ∧
      (∀ s m, MethodDescriptor.ofText s = .ok m ↔
        (∀ d ∈ m.params, d.WellFormed ∧ d ≠ .void) ∧ m.result.WellFormed ∧ m.text = s) ∧
      Set.InjOn Descriptor.text {d | d.WellFormed} ∧
      Set.InjOn MethodDescriptor.text {m | m.WellFormed} := by
  refine ⟨fun s d => Descriptor.ofText_eq_ok, fun s m => ?_, ?_, ?_⟩
  · rw [MethodDescriptor.ofText_eq_ok]
    exact ⟨fun ⟨h, htext⟩ => ⟨h.params, h.result, htext⟩,
      fun ⟨hparams, hresult, htext⟩ => ⟨⟨hparams, hresult⟩, htext⟩⟩
  · intro d hd d' hd' hsame
    have hread := Descriptor.ofText_text hd
    rw [hsame, Descriptor.ofText_text hd'] at hread
    exact (Except.ok.inj hread).symm
  · intro m hm m' hm' hsame
    have hread := MethodDescriptor.ofText_text hm
    rw [hsame, MethodDescriptor.ofText_text hm'] at hread
    exact (Except.ok.inj hread).symm

end EntityLoom
