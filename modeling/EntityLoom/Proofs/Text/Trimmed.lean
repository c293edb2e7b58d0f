import EntityLoom.Text.Blank
import Mathlib.Data.List.DropRight

/-!
# Trimmed texts

Trimming drops blanks at the ends of a text and nothing else: what is left starts and ends with no
blank (`trim_trim`), and holds all characters that are none (`mem_trim`).
-/

namespace EntityLoom.Text

variable {cs : List Char} {c : Char}

theorem trim_eq (cs : List Char) : trim cs = (cs.dropWhile isBlank).rdropWhile isBlank := rfl

/-- A text without blanks at its ends is left as it is. -/
theorem trim_eq_self (hfront : ∀ c ∈ cs.head?, isBlank c = false)
    (hback : ∀ c ∈ cs.getLast?, isBlank c = false) : trim cs = cs := by
  have hdrop : cs.dropWhile isBlank = cs := by
    cases cs with
    | nil => rfl
    | cons c cs => exact List.dropWhile_cons_of_neg (by simp [hfront c rfl])
  rw [trim_eq, hdrop, List.rdropWhile_eq_self_iff]
  intro hne
  simp [hback _ (List.getLast?_eq_getLast_of_ne_nil hne)]

/-- What is trimmed starts and ends with no blank. -/
theorem isBlank_head?_trim : ∀ c ∈ (trim cs).head?, isBlank c = false := by
  intro c hc
  rw [trim_eq] at hc
  have hfront := List.rdropWhile_prefix isBlank (cs.dropWhile isBlank)
  have hhead : (cs.dropWhile isBlank).head? = some c := by
    obtain ⟨rest, hrest⟩ := hfront
    rw [← hrest, List.head?_append, Option.mem_def.1 hc, Option.some_or]
  have hnot := List.head?_dropWhile_not isBlank cs
  rw [hhead] at hnot
  simpa using hnot

theorem isBlank_getLast?_trim : ∀ c ∈ (trim cs).getLast?, isBlank c = false := by
  intro c hc
  have hne : trim cs ≠ [] := by
    rintro hnil
    rw [hnil] at hc
    cases hc
  have hlast := List.rdropWhile_last_not isBlank (cs.dropWhile isBlank) hne
  rw [Option.mem_def, List.getLast?_eq_getLast_of_ne_nil hne] at hc
  rw [← Option.some.inj hc]
  exact Bool.eq_false_iff.2 hlast

@[simp] theorem trim_trim : trim (trim cs) = trim cs :=
  trim_eq_self isBlank_head?_trim isBlank_getLast?_trim

/-- What is no blank is in a text if it is in the trimmed one. -/
theorem mem_trim (hc : isBlank c = false) : c ∈ trim cs ↔ c ∈ cs := by
  have hdrop : ∀ {cs : List Char}, c ∈ cs.dropWhile isBlank ↔ c ∈ cs := by
    intro cs
    refine ⟨fun h => (List.dropWhile_sublist isBlank).mem h, fun h => ?_⟩
    rw [← List.takeWhile_append_dropWhile (p := isBlank) (l := cs), List.mem_append] at h
    refine h.resolve_left fun htake => ?_
    have hblank := List.all_eq_true.1 List.all_takeWhile c htake
    rw [hc] at hblank
    cases hblank
  rw [trim_eq, List.rdropWhile, List.mem_reverse, hdrop, List.mem_reverse, hdrop]

/-- Behind a text without blanks only blanks at the very end are dropped. -/
theorem trim_append (hne : cs ≠ []) (h : ∀ c ∈ cs, isBlank c = false) (tail : List Char) :
    trim (cs ++ tail) = cs ++ tail.rdropWhile isBlank := by
  have hkeep : cs.rdropWhile isBlank = cs :=
    List.rdropWhile_eq_self_iff.2 fun hne => by simp [h _ (List.getLast_mem hne)]
  have hdrop : (cs ++ tail).dropWhile isBlank = cs ++ tail := by
    obtain ⟨c, rest, rfl⟩ := List.exists_cons_of_ne_nil hne
    exact List.dropWhile_cons_of_neg (by simp [h c List.mem_cons_self])
  rw [trim_eq, hdrop, List.rdropWhile, List.reverse_append, List.dropWhile_append]
  split
  · next hblank =>
    have htail : tail.rdropWhile isBlank = [] := by
      rw [List.rdropWhile, List.isEmpty_iff.1 hblank, List.reverse_nil]
    rw [htail, List.append_nil]
    exact hkeep
  · rw [List.reverse_append, List.reverse_reverse]
    rfl

end EntityLoom.Text
