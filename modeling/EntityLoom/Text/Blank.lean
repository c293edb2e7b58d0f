/-!
# Blank characters

The characters with the Unicode property `White_Space`, and trimming by that property.  They are
more than the whitespace of core Lean.
-/

namespace EntityLoom.Text

/-- Whether a character has the Unicode property `White_Space`. -/
def isBlank (c : Char) : Bool :=
  let n := c.toNat
  (0x09 ≤ n && n ≤ 0x0D) || n == 0x20 || n == 0x85 || n == 0xA0 || n == 0x1680 ||
    (0x2000 ≤ n && n ≤ 0x200A) || n == 0x2028 || n == 0x2029 || n == 0x202F || n == 0x205F ||
    n == 0x3000

/-- Drops the blanks at the front. -/
def trimFront (cs : List Char) : List Char :=
  cs.dropWhile isBlank

/-- Drops the blanks at both ends. -/
def trim (cs : List Char) : List Char :=
  (trimFront (trimFront cs).reverse).reverse

/-- Drops the blanks at both ends of a string. -/
def trimmed (s : String) : String :=
  String.ofList (trim s.toList)

theorem length_trimFront_le (cs : List Char) : (trimFront cs).length ≤ cs.length :=
  (List.dropWhile_suffix _).length_le

theorem length_trim_le (cs : List Char) : (trim cs).length ≤ cs.length := by
  have h₁ := length_trimFront_le cs
  have h₂ := length_trimFront_le (trimFront cs).reverse
  simp only [trim, List.length_reverse] at h₂ ⊢
  omega

end EntityLoom.Text
