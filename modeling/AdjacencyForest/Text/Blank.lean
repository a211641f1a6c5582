/-!
# Blanks

White space of two kinds: `isWhiteSpace` is the Unicode property of that name, `isBlank` adds the
four information separators of ASCII. `trimWith` removes a class of characters at both ends.

Main statement: every white space is blank.
-/
namespace AdjacencyForest.Text

/-- The Unicode property `White_Space`. -/
@[irreducible] def isWhiteSpace (c : Char) : Bool :=
  let point := c.toNat
  (0x09 ≤ point && point ≤ 0x0d) || point == 0x20 || point == 0x85 || point == 0xa0 ||
    point == 0x1680 || (0x2000 ≤ point && point ≤ 0x200a) || point == 0x2028 ||
    point == 0x2029 || point == 0x202f || point == 0x205f || point == 0x3000

/-- White space together with the information separators U+001C to U+001F. -/
def isBlank (c : Char) : Bool :=
  isWhiteSpace c || (0x1c ≤ c.toNat && c.toNat ≤ 0x1f)

theorem isBlank_of_isWhiteSpace {c : Char} (white : isWhiteSpace c = true) : isBlank c = true := by
  simp [isBlank, white]

/-- A list without its longest final part in the class. -/
def dropRightWhile (inClass : Char → Bool) (text : List Char) : List Char :=
  (text.reverse.dropWhile inClass).reverse

/-- A list without its longest initial and final parts in the class. -/
def trimWith (inClass : Char → Bool) (text : List Char) : List Char :=
  dropRightWhile inClass (text.dropWhile inClass)

end AdjacencyForest.Text
