/-!
# Blank characters and words

The characters with the Unicode property `White_Space`, and the last word of a text, a word being a
maximal run of characters without that property.
-/

namespace PointerAnalysis.Text

/-- The property `White_Space`, as ranges of code points with both ends included. -/
def blankRanges : List (Nat × Nat) :=
  [(0x9, 0xD), (0x20, 0x20), (0x85, 0x85), (0xA0, 0xA0), (0x1680, 0x1680), (0x2000, 0x200A),
    (0x2028, 0x2029), (0x202F, 0x202F), (0x205F, 0x205F), (0x3000, 0x3000)]

/-- Whether a character has the property `White_Space`. -/
def isBlank (c : Char) : Bool :=
  blankRanges.any fun (low, high) => low ≤ c.toNat && c.toNat ≤ high

/-- The last word, or nothing if all characters are blank. -/
def lastWord (cs : List Char) : List Char :=
  ((cs.reverse.dropWhile isBlank).takeWhile fun c => !isBlank c).reverse

example : lastWord "java.lang.String  toString ".toList = "toString".toList := by decide
example : lastWord "  ".toList = [] := by decide

end PointerAnalysis.Text
