import Formulary.Binary64.Arithmetic

/-!
# Operators

The operator table gives every symbol its operation on numbers.  A truth value
is a number: one for true and zero for false in results, and everything but
zero counts as true in operands, a NaN included.

* `Operator.table` lists the operators and `Operator.find?` looks one up.
-/

namespace Formulary

/-- A symbol with its operation. -/
structure Operator where
  symbol : String
  apply : Float → Float → Float

namespace Operator

/-- Operators are compared by their symbols. -/
instance : BEq Operator := ⟨fun a b => a.symbol == b.symbol⟩

/-- A truth value as a number. -/
def truth (value : Bool) : Float :=
  if value then 1.0 else 0.0

/-- Whether a number counts as true. -/
def holds (x : Float) : Bool :=
  x != 0.0

/-- The operators that formulas are written with. -/
def table : List Operator :=
  [⟨"+", fun x y => x + y⟩,
   ⟨"-", fun x y => x - y⟩,
   ⟨"*", fun x y => x * y⟩,
   ⟨"/", fun x y => x / y⟩,
   ⟨"%", Binary64.remainder⟩,
   ⟨"^", Float.pow⟩,
   ⟨"<", fun x y => truth (x < y)⟩,
   ⟨"<=", fun x y => truth (x ≤ y)⟩,
   ⟨">", fun x y => truth (x > y)⟩,
   ⟨">=", fun x y => truth (x ≥ y)⟩,
   ⟨"==", fun x y => truth (x == y)⟩,
   ⟨"!=", fun x y => truth (x != y)⟩,
   ⟨"<>", fun x y => truth (x != y)⟩,
   ⟨"&&", fun x y => truth (holds x && holds y)⟩,
   ⟨"||", fun x y => truth (holds x || holds y)⟩]

/-- The symbols of the table, in its order. -/
def symbols : List String :=
  table.map Operator.symbol

/-- The operator with the given symbol. -/
def find? (symbol : String) : Option Operator :=
  table.find? fun operator => operator.symbol == symbol

end Operator

end Formulary
