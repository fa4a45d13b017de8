import Formulary.Proofs.Grammar.Outcome

/-!
# Phrases

Of the rules that read a formula, three kinds say what a phrase is: a chain of
some level, a signed atom and an atom.  The others read the parts of one.  A
phrase is read from tighter phrases on the same tokens and from any phrases on
fewer tokens, so a property of the reader can be shown one kind of phrase at a
time.

* `Dialect.read` reads a phrase of a kind;
* `Phrase.induction` is the order in which phrases rest on one another.
-/

namespace Formulary

/-- The kinds of phrase that formulas consist of. -/
inductive Phrase where
  | chain (level : Level)
  | signed
  | atom
deriving DecidableEq

namespace Phrase

/-- What stands between the operators of the level. -/
def operandOf : Level → Phrase
  | .relational => chain .additive
  | .additive => chain .multiplicative
  | .multiplicative => chain .modulo
  | .modulo => chain .power
  | .power => signed

/-- How many kinds of phrase are tighter. -/
def rank : Phrase → Nat
  | atom => 0
  | signed => 1
  | chain level => level.rank + 1

/-- Each rank belongs to one kind of phrase. -/
theorem eq_of_rank_eq {phrase other : Phrase}
    (h : phrase.rank = other.rank) : phrase = other := by
  rcases phrase with ⟨⟨⟩⟩ | _ | _ <;> rcases other with ⟨⟨⟩⟩ | _ | _ <;>
    first | rfl | exact absurd h (by decide)

@[simp]
theorem rank_operandOf (level : Level) : (operandOf level).rank = level.rank := by
  cases level <;> rfl

/-- The operands of a level are tighter than its chains. -/
theorem rank_operandOf_lt (level : Level) :
    (operandOf level).rank < (chain level).rank := by
  rw [rank_operandOf]
  exact Nat.lt_succ_self _

end Phrase

/-- The reader of the phrases of a kind. -/
def Dialect.read (d : Dialect) : Phrase → List Token → Outcome Formula
  | .chain level => d.chain level
  | .signed => d.signed
  | .atom => d.atom

/-- Operands are phrases. -/
@[simp]
theorem Dialect.read_operandOf (d : Dialect) (level : Level)
    (tokens : List Token) :
    d.read (.operandOf level) tokens = d.operand level tokens := by
  rw [operand_eq]
  cases level <;> rfl

/-- **Induction on phrases.**  What follows for a phrase from all phrases on
fewer tokens and from the tighter ones on the same tokens holds of every
phrase. -/
theorem Phrase.induction {P : Phrase → List Token → Prop}
    (step : ∀ phrase tokens,
      (∀ other fewer, fewer.length < tokens.length → P other fewer) →
      (∀ tighter : Phrase, tighter.rank < phrase.rank → P tighter tokens) →
      P phrase tokens)
    (phrase : Phrase) (tokens : List Token) : P phrase tokens :=
  step phrase tokens
    (fun other fewer _ => Phrase.induction step other fewer)
    (fun tighter _ => Phrase.induction step tighter tokens)
termination_by (tokens.length, phrase.rank)

end Formulary
