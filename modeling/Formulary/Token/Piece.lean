import Formulary.Token.Basic

/-!
# Pieces of text

Before any convention applies, a text falls into runs of digits, names, runs of
blanks, and single other characters.  No character is lost, so two pieces are
next to each other in the list exactly where they touch in the text.

* `Piece.ofChars` splits a text, each piece as long as it can be.
-/

namespace Formulary

/-- A run of characters of one kind, or a character on its own. -/
inductive Piece where
  | digits (run : List Char)
  | name (run : List Char)
  | blanks (run : List Char)
  | symbol (c : Char)
deriving DecidableEq

namespace Piece

/-- The pieces of a text from left to right. -/
def ofChars : List Char → List Piece
  | [] => []
  | c :: rest =>
    if c.isDigit then
      digits (c :: rest.takeWhile Char.isDigit) ::
        ofChars (rest.dropWhile Char.isDigit)
    else if startsName c then
      name (c :: rest.takeWhile continuesName) ::
        ofChars (rest.dropWhile continuesName)
    else if isBlank c then
      blanks (c :: rest.takeWhile isBlank) ::
        ofChars (rest.dropWhile isBlank)
    else symbol c :: ofChars rest
termination_by cs => cs.length
decreasing_by
  all_goals
    simp only [List.length_cons, Nat.lt_succ_iff]
    first
      | exact (List.dropWhile_sublist _).length_le
      | exact Nat.le_refl _

end Piece

end Formulary
