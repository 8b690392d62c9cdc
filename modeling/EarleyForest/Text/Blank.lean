import EarleyForest.Text.CharTable

/-!
# Blank Characters

The characters that separate words without being part of one: those with the
Unicode property `White_Space`. Joiners and marks of width zero, U+200B and
U+FEFF among them, do not have it.

## Main definitions

* `isBlank`: A character is white space.
-/

namespace EarleyForest

/-- The ranges of the property `White_Space`. -/
def whiteSpace : CharTable :=
  [(0x9, 0xD), (0x20, 0x20), (0x85, 0x85), (0xA0, 0xA0), (0x1680, 0x1680), (0x2000, 0x200A),
   (0x2028, 0x2029), (0x202F, 0x202F), (0x205F, 0x205F), (0x3000, 0x3000)]

/-- A character is white space. -/
def isBlank (c : Char) : Bool := whiteSpace.covers c

end EarleyForest
