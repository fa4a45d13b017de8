/-!
# Magnitudes of binary64 numbers

The binary64 numbers without a sign, infinity included, stand in ascending
order at the places `0, 1, 2, …` that their bit patterns spell.  Every finite
one is a whole multiple of the least, `2 ^ (-1074)`, so all exact arithmetic on
them is arithmetic on natural numbers in that unit: remainders, rounding to a
whole number, reading and writing decimals.

* `Magnitude.units` is the exact value and `Magnitude.nearest` rounds a
  quotient of natural numbers to a magnitude, ties to the even place;
* `ofParts` and `parts?` put a sign and a magnitude together and take them
  apart.
-/

namespace Formulary

namespace Binary64

/-- The place of infinity among the magnitudes. -/
def infinityPlace : Nat := 0x7FF0000000000000

/-- A binary64 number that is neither negative nor a NaN, as its place in the
ascending order of all of them. -/
structure Magnitude where
  place : Nat
  place_le : place ≤ infinityPlace := by decide
deriving DecidableEq

namespace Magnitude

/-- The magnitude past all finite ones. -/
def infinity : Magnitude where
  place := infinityPlace

/-- Whether the magnitude is a real number. -/
def isFinite (m : Magnitude) : Bool :=
  m.place != infinityPlace

/-- How many places a binade has: `2 ^ 52`. -/
def binadeSize : Nat := 0x10000000000000

/-- The exact value of a finite magnitude as a multiple of `2 ^ (-1074)`.  The
first two binades of places have step one, and the step doubles from each
binade to the next. -/
def units (m : Magnitude) : Nat :=
  let binade := m.place / binadeSize
  if binade = 0 then m.place
  else (binadeSize + m.place % binadeSize) * Nat.pow 2 (binade - 1)

/-- The units in the number one: `2 ^ 1074`. -/
def unitsPerOne : Nat := Nat.pow 2 1074

end Magnitude

/-- The whole number nearest to a quotient; a tie goes to the even one. -/
def roundDiv (num den : Nat) : Nat :=
  let quotient := num / den
  let twice := 2 * (num % den)
  if twice < den then quotient
  else if den < twice then quotient + 1
  else quotient + quotient % 2

/-- The magnitude nearest to `num / den` units; a tie goes to the even place,
and what lies past the last finite magnitude by half a step goes to infinity.
The quotient is rounded to a whole number of steps of its binade, and counting
those steps on from the start of the binade gives the place, also when rounding
carries into the next one. -/
def Magnitude.nearest (num den : Nat) : Magnitude where
  place :=
    let binade := (num / den).log2 - 52
    min (binade * binadeSize + roundDiv num (den * Nat.pow 2 binade))
      infinityPlace
  place_le := Nat.min_le_right _ _

/-- The first place of a bit pattern with the sign bit: `2 ^ 63`. -/
def signBit : Nat := 0x8000000000000000

open Float.Model in
/-- Bits that spell a magnitude, with either sign, are the bits of a number. -/
private theorem valid_of_place_le {bits : BitVec Format.binary64.numBits}
    (h : bits.toNat % signBit ≤ infinityPlace) :
    Format.binary64.Valid bits := by
  refine ⟨fun hexponent hmantissa => ?_⟩
  exfalso
  have hones := congrArg BitVec.toNat hexponent
  have hfraction : ¬ (UnpackedFloat.unpackMantissa bits).toNat = 0 :=
    fun hzero => hmantissa (BitVec.eq_of_toNat_eq (by simpa using hzero))
  simp [UnpackedFloat.unpackExponent, UnpackedFloat.unpackMantissa,
    Nat.shiftRight_eq_div_pow] at hones hfraction
  simp only [signBit, infinityPlace] at h
  omega

/-- The bit that the sign adds to those of a magnitude. -/
def signPlace (negative : Bool) : Nat :=
  if negative then signBit else 0

private theorem toNat_signed (negative : Bool) (m : Magnitude) :
    (UInt64.ofNat (m.place + signPlace negative)).toNat =
      m.place + signPlace negative := by
  have hle : m.place ≤ 0x7FF0000000000000 := m.place_le
  have hsign : signPlace negative ≤ 0x8000000000000000 := by
    cases negative <;> decide
  rw [UInt64.toNat_ofNat', Nat.mod_eq_of_lt (by omega)]

private theorem signed_mod (negative : Bool) (m : Magnitude) :
    (m.place + signPlace negative) % signBit = m.place := by
  have hle : m.place ≤ 0x7FF0000000000000 := m.place_le
  cases negative <;>
    simp only [signPlace, signBit, if_true, Bool.false_eq_true, if_false] <;>
    omega

/-- The number with the given sign and magnitude. -/
def ofParts (negative : Bool) (m : Magnitude) : Float :=
  .ofModel ⟨UInt64.ofNat (m.place + signPlace negative),
    valid_of_place_le (by
      change (UInt64.ofNat (m.place + signPlace negative)).toNat % signBit ≤ _
      rw [toNat_signed, signed_mod]
      exact m.place_le)⟩

/-- The sign and the magnitude of a number; a NaN has none. -/
def parts? (x : Float) : Option (Bool × Magnitude) :=
  if h : x.toBits.toNat % signBit ≤ infinityPlace then
    some (signBit ≤ x.toBits.toNat, ⟨x.toBits.toNat % signBit, h⟩)
  else none

/-- The bits of a number spell its magnitude, after the bit of the sign. -/
theorem toBits_ofParts (negative : Bool) (m : Magnitude) :
    (ofParts negative m).toBits.toNat = m.place + signPlace negative :=
  toNat_signed negative m

@[simp]
theorem parts?_ofParts (negative : Bool) (m : Magnitude) :
    parts? (ofParts negative m) = some (negative, m) := by
  have hle : m.place ≤ 0x7FF0000000000000 := m.place_le
  unfold parts?
  simp only [toBits_ofParts, signed_mod, m.place_le, dite_true]
  cases negative <;> simp only [signPlace, signBit, if_true, Bool.false_eq_true,
    if_false, Option.some.injEq, Prod.mk.injEq, and_true, decide_eq_true_eq,
    decide_eq_false_iff_not] <;> omega

end Binary64

end Formulary
