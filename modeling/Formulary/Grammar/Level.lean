import Formulary.Operator
import Formulary.Token.Basic

/-!
# Levels of precedence

The binary operators fall into five levels.  Each level chains operands of the
next tighter one, and the operands of the tightest are signed atoms.  The
loosest level holds comparisons and logic alike and groups to the right; the
other four group to the left.
-/

namespace Formulary

/-- A level of precedence, from the loosest to the tightest. -/
inductive Level where
  | relational
  | additive
  | multiplicative
  | modulo
  | power
deriving DecidableEq

namespace Level

/-- The symbols of the level's operators. -/
def symbols : Level → List String
  | relational => ["&&", "||", "==", "<", ">", "<=", ">=", "!=", "<>"]
  | additive => ["+", "-"]
  | multiplicative => ["*", "/"]
  | modulo => ["%"]
  | power => ["^"]

/-- Whether the token is an operator of the level. -/
def takes (level : Level) (token : Token) : Bool :=
  level.symbols.any token.isDelimiter

/-- How many levels are as tight or tighter. -/
@[simp]
def rank : Level → Nat
  | relational => 5
  | additive => 4
  | multiplicative => 3
  | modulo => 2
  | power => 1

theorem rank_le (level : Level) : level.rank ≤ 5 := by
  cases level <;> decide

end Level

/-- Stands between the arguments of a call. -/
def argumentSeparator : String := ";"

end Formulary
