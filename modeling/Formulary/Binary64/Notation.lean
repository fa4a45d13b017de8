import Formulary.Binary64.Arithmetic
import Formulary.Binary64.Decimal

/-!
# Numbers in scientific notation

A number outside a formula is written with an optional sign, digits with an
optional point among or around them, and an optional power of ten; or it is the
word for infinity or for no number, in letters of either case.  Conventions
have no influence here.

* `ofText` reads such a number or says that there is none.
-/

namespace Formulary.Binary64

/-- Why a text is no number. -/
inductive NotationError where
  | empty
  | invalid
deriving DecidableEq

/-- The text shown for the error. -/
def NotationError.message : NotationError → String
  | empty => "cannot parse float from empty string"
  | invalid => "invalid float literal"

/-- The number that digits spell, if there is at least one and nothing else. -/
def digits? (cs : List Char) : Option Nat :=
  if cs.isEmpty || !cs.all Char.isDigit then none
  else some (Nat.ofDigitChars 10 cs 0)

/-- The power of ten at the end of a number: nothing, or the letter `e` and
digits with an optional sign. -/
def powerOfTen? : List Char → Option Int
  | [] => some 0
  | mark :: rest =>
    if mark == 'e' || mark == 'E' then
      match rest with
      | '-' :: power => (digits? power).map fun n => -(n : Int)
      | '+' :: power => (digits? power).map fun n => (n : Int)
      | power => (digits? power).map fun n => (n : Int)
    else none

/-- The decimal that a number without a sign spells.  A power of ten that lies
so far out that it leaves nothing but zero or infinity is brought nearer. -/
def decimal? (cs : List Char) : Option Decimal :=
  let whole := cs.takeWhile Char.isDigit
  let afterWhole := cs.dropWhile Char.isDigit
  let (fraction, tail) := match afterWhole with
    | '.' :: rest => (rest.takeWhile Char.isDigit, rest.dropWhile Char.isDigit)
    | rest => ([], rest)
  if whole.isEmpty && fraction.isEmpty then none
  else
    (powerOfTen? tail).map fun power =>
      let unscaled := Decimal.ofDigits whole fraction
      let lowest := -((whole.length + 400 : Nat) : Int)
      let highest := ((fraction.length + 400 : Nat) : Int)
      { unscaled with
        exponent := unscaled.exponent + max lowest (min highest power) }

/-- A number without a sign. -/
def unsigned? (cs : List Char) : Option Float :=
  let word := String.ofList (cs.map Char.toLower)
  if word == "inf" || word == "infinity" then some (ofParts false .infinity)
  else if word == "nan" then some nan
  else (decimal? cs).map fun d => ofParts false (.ofDecimal d)

/-- The number that a text spells. -/
def ofText (s : String) : Except NotationError Float :=
  match s.toList with
  | [] => .error .empty
  | '-' :: rest =>
    match unsigned? rest with
    | some x => .ok (-x)
    | none => .error .invalid
  | '+' :: rest =>
    match unsigned? rest with
    | some x => .ok x
    | none => .error .invalid
  | cs =>
    match unsigned? cs with
    | some x => .ok x
    | none => .error .invalid

end Formulary.Binary64
