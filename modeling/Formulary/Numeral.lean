import Formulary.Convention
import Formulary.Binary64.Decimal

/-!
# Numerals

A numeral is what a number in a formula spells: the digits before the decimal
separator and those after it.  Reading a literal under a convention strips the
separators and checks where they stand; nothing else about a convention has an
influence on the value.

* `Numeral.ofLiteral?` is the reader, and `isGrouped` its rule for group
  separators: each stands between two digits;
* `Numeral.value` is the nearest binary64 number;
* `Convention.readNumber?` goes from text to number.
-/

namespace Formulary

/-- The digits of a number before and after its decimal separator. -/
structure Numeral where
  whole : List Char
  fraction : List Char
deriving DecidableEq

/-- Whether the characters are digits with single group separators between
them.  The flag says that a digit precedes. -/
def isGrouped (group : Char) (afterDigit : Bool) : List Char → Bool
  | [] => true
  | c :: rest =>
    if c.isDigit then isGrouped group true rest
    else c == group && afterDigit && rest.head?.any Char.isDigit &&
      isGrouped group false rest

namespace Numeral

/-- The numeral that a literal spells under the convention.  The literal has a
digit, at most one decimal separator, and group separators only between digits
of the whole part. -/
def ofLiteral? (convention : Convention) (literal : List Char) :
    Option Numeral :=
  let whole := literal.takeWhile (· ≠ convention.decimal)
  let fraction := (literal.dropWhile (· ≠ convention.decimal)).drop 1
  if isGrouped convention.group false whole && fraction.all Char.isDigit &&
      (whole ++ fraction).any Char.isDigit then
    some { whole := whole.filter Char.isDigit, fraction }
  else none

/-- The binary64 number nearest to the one the numeral writes. -/
def value (n : Numeral) : Float :=
  Binary64.ofParts false (.ofDecimal (.ofDigits n.whole n.fraction))

end Numeral

/-- The number that a literal writes under the convention. -/
def Convention.readNumber? (convention : Convention) (literal : String) :
    Option Float :=
  (Numeral.ofLiteral? convention literal.toList).map Numeral.value

end Formulary
