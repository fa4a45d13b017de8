import Formulary.Text.WhiteSpace

/-!
# Numeric conventions

A convention fixes how numbers are written in a formula: the character before
the fraction and the character that may stand between groups of digits.  Both
are chosen by the caller, so a convention is only built after two checks: a
separator must not be a character that means something else in a formula, and
the two must differ.  The checks are fields of the type, and every convention
in the library passes them.

* `Convention.ofSeparators` makes a convention or says why there is none;
* `Convention.isReserved` is the class of characters that cannot separate.
-/

namespace Formulary

/-- Characters that operators, groups and argument lists are written with. -/
def reservedSymbols : List Char := "+-*/^%()<>=&|!;".toList

/-- Whether a character has a meaning of its own in formulas: ASCII letters and
digits, the underscore, white space and the symbols of the grammar. -/
def isReserved (c : Char) : Bool :=
  c.isAlphanum || c == '_' || Text.isWhiteSpace c || reservedSymbols.contains c

/-- How numbers are written. -/
structure Convention where
  /-- Stands before the fraction. -/
  decimal : Char
  /-- May stand between two digits of the whole part. -/
  group : Char
  decimal_free : isReserved decimal = false := by decide
  group_free : isReserved group = false := by decide
  distinct : decimal ≠ group := by decide
deriving DecidableEq

/-- Why two characters make no convention. -/
inductive ConventionError where
  /-- The character has another meaning in formulas. -/
  | reservedSeparator (separator : Char)
  /-- One character was given for both purposes. -/
  | identicalSeparators (separator : Char)
deriving DecidableEq

/-- The text shown for the error. -/
def ConventionError.message : ConventionError → String
  | reservedSeparator c => s!"'{c}' cannot be used as a numeric separator."
  | identicalSeparators c =>
    s!"Decimal and group separators must differ, both are '{c}'."

namespace Convention

/-- The convention with the given separators.  A reserved decimal separator is
reported before a reserved group separator, and both before equality. -/
def ofSeparators (decimal group : Char) : Except ConventionError Convention :=
  if hd : isReserved decimal = false then
    if hg : isReserved group = false then
      if h : decimal ≠ group then .ok ⟨decimal, group, hd, hg, h⟩
      else .error (.identicalSeparators decimal)
    else .error (.reservedSeparator group)
  else .error (.reservedSeparator decimal)

/-- Fractions after a point, groups between commas: `1,234.5`. -/
def invariant : Convention where
  decimal := '.'
  group := ','

/-- Fractions after a comma, groups between points: `1.234,5`. -/
def commaDecimal : Convention where
  decimal := ','
  group := '.'

/-- Fractions after a point, groups between apostrophes: `1'234.5`. -/
def apostropheGrouping : Convention where
  decimal := '.'
  group := '\x27'

instance : Inhabited Convention := ⟨invariant⟩

/-- Whether the convention gives the character a meaning. -/
def isSeparator (convention : Convention) (c : Char) : Bool :=
  c == convention.decimal || c == convention.group

end Convention

end Formulary
