/-!
# White space of the Unicode standard

The property `White_Space` holds of twenty-five characters.  No such character
may serve as a numeric separator, and all of them are cut from both ends of a
value given on the command line.  The blanks that separate tokens are a
smaller set and live with the tokens.

* `isWhiteSpace` is the property;
* `trim` cuts white space from both ends of a text.
-/

namespace Formulary.Text

/-- The ranges of code points that carry the property, first and last
included, in ascending order. -/
def whiteSpaceRanges : List (Nat × Nat) :=
  [(0x09, 0x0D), (0x20, 0x20), (0x85, 0x85), (0xA0, 0xA0), (0x1680, 0x1680),
   (0x2000, 0x200A), (0x2028, 0x2029), (0x202F, 0x202F), (0x205F, 0x205F),
   (0x3000, 0x3000)]

/-- Whether a character is white space. -/
def isWhiteSpace (c : Char) : Bool :=
  whiteSpaceRanges.any fun (first, last) => first ≤ c.toNat && c.toNat ≤ last

/-- A text without the white space at its two ends. -/
def trim (s : String) : String :=
  let tail := s.toList.dropWhile isWhiteSpace
  String.ofList (tail.reverse.dropWhile isWhiteSpace).reverse

end Formulary.Text
