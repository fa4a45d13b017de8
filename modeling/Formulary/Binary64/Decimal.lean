import Formulary.Binary64.Magnitude

/-!
# Decimal reading and writing of binary64 numbers

A decimal is a whole number of some power of ten.  Reading rounds it to the
nearest magnitude.  Writing chooses the shortest decimal that reads back: of
all grids of multiples of a power of ten, the coarsest one with a point that
reads as the number, and on that grid the nearer of the number's two
neighbours.  The grid of multiples of `10 ^ (-1074)` holds every finite
magnitude exactly, so the search always ends with an answer.

* `Magnitude.ofDecimal` reads and `Magnitude.shortest` chooses;
* `Decimal.chars` lays a decimal out in plain positional notation;
* `text` writes any binary64 number.
-/

namespace Formulary

/-- The number `coefficient * 10 ^ exponent`. -/
structure Decimal where
  coefficient : Nat
  exponent : Int
deriving DecidableEq

namespace Decimal

/-- The decimal written as the given digits with a mark between the two
parts. -/
def ofDigits (whole fraction : List Char) : Decimal where
  coefficient := Nat.ofDigitChars 10 (whole ++ fraction) 0
  exponent := -fraction.length

/-- Plain positional notation: a whole part with at least one digit and, where
the exponent is negative, a point and as many digits as it says. -/
def chars (d : Decimal) : List Char :=
  let digits := Nat.toDigits 10 d.coefficient
  let places := (-d.exponent).toNat
  if places = 0 then digits ++ List.replicate d.exponent.toNat '0'
  else
    let padded := List.replicate (places + 1 - digits.length) '0' ++ digits
    let split := padded.length - places
    padded.take split ++ '.' :: padded.drop split

end Decimal

namespace Binary64

namespace Magnitude

/-- The magnitude nearest to a decimal. -/
def ofDecimal (d : Decimal) : Magnitude :=
  nearest (d.coefficient * Nat.pow 10 d.exponent.toNat * unitsPerOne)
    (Nat.pow 10 (-d.exponent).toNat)

/-- A finite magnitude as a multiple of `10 ^ (-1074)`. -/
def decimalUnits (m : Magnitude) : Nat :=
  m.units * Nat.pow 5 1074

/-- The finite magnitude in its full decimal expansion. -/
def expansion (m : Magnitude) : Decimal where
  coefficient := m.decimalUnits
  exponent := -1074

/-- The neighbour of a finite magnitude on the grid of multiples of
`10 ^ (step - 1074)` that reads back as the magnitude.  Where both do, it is
the nearer one, and the upper one of two equally near. -/
def neighbour? (m : Magnitude) (step : Nat) : Option Decimal :=
  let width := Nat.pow 10 step
  let below := m.decimalUnits / width
  let nearerFirst :=
    if 2 * (m.decimalUnits % width) < width then [below, below + 1]
    else [below + 1, below]
  let points := nearerFirst.map fun coefficient =>
    { coefficient, exponent := (step : Int) - 1074 : Decimal }
  points.find? fun point => ofDecimal point = m

/-- The answer of the coarsest of so many grids that has one, and the full
expansion where none has. -/
def coarsest (m : Magnitude) (grids : Nat) : Decimal :=
  let steps := (List.range grids).reverse.map (· + 1)
  (steps.findSome? m.neighbour?).getD m.expansion

/-- The shortest decimal that reads as the finite magnitude.  The search starts
from a grid wider than the magnitude: `log₁₀ 2 < 0.30103`, and `2 ^ (-1074)` is
less than `10 ^ (-323)`. -/
def shortest (m : Magnitude) : Decimal :=
  if m.units = 0 then { coefficient := 0, exponent := 0 }
  else m.coarsest ((m.units.log2 + 1) * 30103 / 100000 + 752)

/-- The text of a magnitude. -/
def text (m : Magnitude) : String :=
  if m.isFinite then String.ofList m.shortest.chars else "inf"

end Magnitude

/-- The text of a number: its sign where it is negative, then its magnitude in
the fewest digits that read back. -/
def text (x : Float) : String :=
  match parts? x with
  | none => "NaN"
  | some (true, m) => "-" ++ m.text
  | some (false, m) => m.text

end Binary64

end Formulary
