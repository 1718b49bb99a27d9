/-!
# Blank text

A name is blank when it holds nothing but white space. White space is the Unicode property
`White_Space`: the six ASCII characters and nineteen more. Characters that merely look empty, such
as the zero-width space U+200B or the byte-order mark U+FEFF, do not have the property, so a name
made of them is not blank.
-/

namespace PatternQuery.Text

/-- The code points of the property `White_Space`, as ranges with both ends included. The list is
the one of Unicode 6.3 and later, in which U+180E is no longer a space. -/
def whiteSpaceRanges : List (Nat × Nat) :=
  [(0x09, 0x0D), (0x20, 0x20), (0x85, 0x85), (0xA0, 0xA0), (0x1680, 0x1680), (0x2000, 0x200A),
   (0x2028, 0x2029), (0x202F, 0x202F), (0x205F, 0x205F), (0x3000, 0x3000)]

/-- Whether a character has the property `White_Space`. -/
def isWhiteSpace (c : Char) : Bool :=
  whiteSpaceRanges.any fun (low, high) => low ≤ c.toNat && c.toNat ≤ high

/-- Whether a text is empty or made of white space alone. -/
def isBlank (s : String) : Bool :=
  s.toList.all isWhiteSpace

/-- A text is not blank as soon as one of its characters is no white space. -/
theorem isBlank_eq_false_iff {s : String} :
    isBlank s = false ↔ ∃ c ∈ s.toList, isWhiteSpace c = false := by
  simp [isBlank, List.all_eq_false]

end PatternQuery.Text
