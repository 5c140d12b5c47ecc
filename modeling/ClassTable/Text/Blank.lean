/-!
# Blank characters

The twenty-five characters with the property `White_Space`, as ranges of code points. Joiners and
marks that merely have no width (U+200B, U+2060, U+FEFF and U+180E) are not blank.
-/

namespace ClassTable.Text

/-- The ranges of blank code points, both ends included, in ascending order. -/
def blankRanges : List (Nat × Nat) :=
  [(0x09, 0x0d), (0x20, 0x20), (0x85, 0x85), (0xa0, 0xa0), (0x1680, 0x1680), (0x2000, 0x200a),
   (0x2028, 0x2029), (0x202f, 0x202f), (0x205f, 0x205f), (0x3000, 0x3000)]

/-- Whether the character is white space. -/
def isBlank (c : Char) : Bool :=
  blankRanges.any fun r => r.1 ≤ c.toNat && c.toNat ≤ r.2

/-- There are twenty-five blank characters. -/
example : (blankRanges.map fun r => r.2 + 1 - r.1).sum = 25 := by decide

end ClassTable.Text
