import Formulary.Binary64.Decimal
import Formulary.Callable

/-!
# Trees

A tree is a formula in its structure: constants and variables at the leaves,
operators and calls above them, each with its operation at hand.  What stands
for a variable is left open.  A formula fresh from the grammar holds the
variable's name; a compiled formula holds the cell with its value as well.

* `Tree.map` replaces what stands for the variables;
* `Tree.eval` is the value, and `Tree.text` the display form;
* `Tree.WellCalled` says that every call, wherever it is, has as many arguments
  as its function takes; without it there is no value.
-/

namespace Formulary

/-- The structure of a formula. -/
inductive Tree (α : Type) where
  | constant (value : Float)
  | var (leaf : α)
  | negate (operand : Tree α)
  | binary (operator : Operator) (left right : Tree α)
  | call (name : String) (function : Callable) (arguments : List (Tree α))

/-- A formula whose variables are names. -/
abbrev Formula := Tree String

namespace Tree

variable {α β : Type}

mutual

/-- Replaces what stands for each variable. -/
def map (f : α → β) : Tree α → Tree β
  | constant value => constant value
  | var leaf => var (f leaf)
  | negate operand => negate (operand.map f)
  | binary operator left right => binary operator (left.map f) (right.map f)
  | call name function arguments => call name function (mapAll f arguments)

/-- The same in each of several trees. -/
def mapAll (f : α → β) : List (Tree α) → List (Tree β)
  | [] => []
  | tree :: rest => tree.map f :: mapAll f rest

end

mutual

/-- What stands for variables, from left to right. -/
def leaves : Tree α → List α
  | constant _ => []
  | var leaf => [leaf]
  | negate operand => operand.leaves
  | binary _ left right => left.leaves ++ right.leaves
  | call _ _ arguments => leavesAll arguments

/-- The same for several trees, one after the other. -/
def leavesAll : List (Tree α) → List α
  | [] => []
  | tree :: rest => tree.leaves ++ leavesAll rest

end

mutual

/-- The value, given one for each variable.  All operands and all arguments are
evaluated, also those that have no influence on the result.  There is no value
where a call has the wrong number of arguments. -/
def eval (valueOf : α → Float) : Tree α → Option Float
  | constant value => some value
  | var leaf => some (valueOf leaf)
  | negate operand => (operand.eval valueOf).map fun x => -x
  | binary operator left right =>
    (left.eval valueOf).bind fun x =>
      (right.eval valueOf).map fun y => operator.apply x y
  | call _ function arguments => (evalAll valueOf arguments).bind function.call

/-- The values of several trees, if each has one. -/
def evalAll (valueOf : α → Float) : List (Tree α) → Option (List Float)
  | [] => some []
  | tree :: rest =>
    (tree.eval valueOf).bind fun x =>
      (evalAll valueOf rest).map fun xs => x :: xs

end

mutual

/-- The display form, given a name for each variable.  Every binary operation
has parentheses, and nothing else has. -/
def text (nameOf : α → String) : Tree α → String
  | constant value => Binary64.text value
  | var leaf => nameOf leaf
  | negate operand => "-" ++ operand.text nameOf
  | binary operator left right =>
    "(" ++ left.text nameOf ++ " " ++ operator.symbol ++ " " ++
      right.text nameOf ++ ")"
  | call name _ arguments =>
    name ++ "(" ++ "; ".intercalate (textAll nameOf arguments) ++ ")"

/-- The display forms of several trees. -/
def textAll (nameOf : α → String) : List (Tree α) → List String
  | [] => []
  | tree :: rest => tree.text nameOf :: textAll nameOf rest

end

mutual

/-- Every call in the tree has as many arguments as its function takes. -/
def WellCalled : Tree α → Prop
  | constant _ | var _ => True
  | negate operand => operand.WellCalled
  | binary _ left right => left.WellCalled ∧ right.WellCalled
  | call _ function arguments =>
    arguments.length = function.arity ∧ AllWellCalled arguments

/-- The same for each of several trees. -/
def AllWellCalled : List (Tree α) → Prop
  | [] => True
  | tree :: rest => tree.WellCalled ∧ AllWellCalled rest

end

end Tree

end Formulary
