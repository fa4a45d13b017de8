import Formulary.Binary64.Magnitude

/-!
# Exact operations on binary64 numbers

Remainder, rounding to a whole number, and the two selections that pass over a
NaN.  Remainder and rounding go through the exact value in units of the least
magnitude, so their results need no rounding of their own.
-/

namespace Formulary.Binary64

/-- The number that is no number. -/
def nan : Float := 0.0 / 0.0

/-- The remainder of truncated division, with the sign of the dividend.  It is
exact: a remainder of two multiples of the unit is one, and it is not larger
than the dividend.  Nothing remains of an infinite dividend or a zero divisor,
and an infinite divisor leaves the dividend as it is. -/
def remainder (x y : Float) : Float :=
  match parts? x, parts? y with
  | some (negative, m), some (_, n) =>
    if m.isFinite && n.units != 0 then
      if n.isFinite then ofParts negative (.nearest (m.units % n.units) 1) else x
    else nan
  | _, _ => nan

/-- The nearest whole number, and the even one of two equally near.  The sign
stays also where zero is the answer. -/
def roundEven (x : Float) : Float :=
  match parts? x with
  | some (negative, m) =>
    if m.isFinite then
      let whole := roundDiv m.units Magnitude.unitsPerOne
      ofParts negative (.nearest (whole * Magnitude.unitsPerOne) 1)
    else x
  | none => x

/-- The larger number; of a number and a NaN, the number. -/
def maximum (x y : Float) : Float :=
  if x.isNaN then y else if y.isNaN then x else if x < y then y else x

/-- The smaller number; of a number and a NaN, the number. -/
def minimum (x y : Float) : Float :=
  if x.isNaN then y else if y.isNaN then x else if y < x then y else x

/-- The sign as a number: one, minus one, or zero for both zeros.  A NaN has no
sign and is passed on. -/
def sign (x : Float) : Float :=
  if x > 0.0 then 1.0
  else if x < 0.0 then -1.0
  else if x.isNaN then x
  else 0.0

end Formulary.Binary64
