import Formulary.Operator

/-!
# Functions that formulas call

A function takes one, two or three numbers.  One of the four shapes reads its
first number as a condition.

* `Callable.arity` is the number of arguments that a function takes;
* `Callable.call` applies it, and `call_isSome` says that it has a value
  exactly on lists of that many numbers;
* `Callable.builtins` are the functions that every standard table holds.
-/

namespace Formulary

/-- A function on numbers, by the shape of its arguments. -/
inductive Callable where
  | unary (f : Float → Float)
  | binary (f : Float → Float → Float)
  | ternary (f : Float → Float → Float → Float)
  | conditional (f : Bool → Float → Float → Float)

namespace Callable

/-- How many arguments the function takes. -/
def arity : Callable → Nat
  | unary _ => 1
  | binary _ => 2
  | ternary _ | conditional _ => 3

/-- The value on a list of arguments, if it has the right length. -/
def call : Callable → List Float → Option Float
  | unary f, [x] => some (f x)
  | binary f, [x, y] => some (f x y)
  | ternary f, [x, y, z] => some (f x y z)
  | conditional f, [condition, x, y] => some (f (Operator.holds condition) x y)
  | _, _ => none

theorem call_isSome (f : Callable) (arguments : List Float) :
    (f.call arguments).isSome = (arguments.length == f.arity) := by
  cases f <;> rcases arguments with _ | ⟨_, _ | ⟨_, _ | ⟨_, _ | _⟩⟩⟩ <;> rfl

/-- The shape of the function in words. -/
def description : Callable → String
  | unary _ => "Function(f64 -> f64)"
  | binary _ => "Function((f64, f64) -> f64)"
  | ternary _ => "Function((f64, f64, f64) -> f64)"
  | conditional _ => "Function((bool, f64, f64) -> f64)"

/-- The first number if the condition holds, and the second if not. -/
def choose (condition : Bool) (onTrue onFalse : Float) : Float :=
  if condition then onTrue else onFalse

/-- The functions of the standard table. -/
def builtins : List (String × Callable) :=
  [("abs", unary Float.abs),
   ("acos", unary Float.acos),
   ("asin", unary Float.asin),
   ("atan", unary Float.atan),
   ("ceiling", unary Float.ceil),
   ("cos", unary Float.cos),
   ("cosh", unary Float.cosh),
   ("exp", unary Float.exp),
   ("floor", unary Float.floor),
   ("log", unary Float.log),
   ("log10", unary Float.log10),
   ("round", unary Binary64.roundEven),
   ("sign", unary Binary64.sign),
   ("sin", unary Float.sin),
   ("sinh", unary Float.sinh),
   ("sqrt", unary Float.sqrt),
   ("tan", unary Float.tan),
   ("tanh", unary Float.tanh),
   ("max", binary Binary64.maximum),
   ("min", binary Binary64.minimum),
   ("if", conditional choose)]

end Callable

end Formulary
