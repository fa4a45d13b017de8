import Formulary.Proofs.Grammar.Level
import Formulary.Proofs.Grammar.Phrase

/-!
# The grammar as a relation

What a token list means is said here without a word about how it is read.  A
phrase is a chain of some level, a signed atom or an atom, and a derivation
takes a token list apart into phrases:

* a relational chain is an operand, alone or before an operator and another
  relational chain;
* a chain of any other level is an operand, alone or after a chain of the same
  level and an operator;
* a signed atom is an atom with at most one sign before it;
* an atom is a number, a variable, a call with one or more arguments, or a
  relational chain in parentheses.

An operator stands in the formula with the operation that the table gives it,
and a called name with its function in the dialect.

* `Derives` is the relation;
* `Derives.looser` makes a phrase of a tighter one.
-/

namespace Formulary

mutual

/-- The tokens are a phrase of the kind, and the formula is what they mean. -/
inductive Derives (d : Dialect) : Phrase → List Token → Formula → Prop where
  | operand {level : Level} {tokens : List Token} {formula : Formula}
      (inner : Derives d (.operandOf level) tokens formula) :
      Derives d (.chain level) tokens formula
  | toRight {before after : List Token} {token : Token} {operator : Operator}
      {left right : Formula}
      (first : Derives d (.operandOf .relational) before left)
      (denotes : Level.relational.Denotes token operator)
      (others : Derives d (.chain .relational) after right) :
      Derives d (.chain .relational) (before ++ token :: after)
        (.binary operator left right)
  | toLeft {level : Level} {before after : List Token} {token : Token}
      {operator : Operator} {left right : Formula}
      (tight : level ≠ .relational)
      (others : Derives d (.chain level) before left)
      (denotes : level.Denotes token operator)
      (last : Derives d (.operandOf level) after right) :
      Derives d (.chain level) (before ++ token :: after)
        (.binary operator left right)
  | unsigned {tokens : List Token} {formula : Formula}
      (inner : Derives d .atom tokens formula) :
      Derives d .signed tokens formula
  | plus {sign : Token} {tokens : List Token} {formula : Formula}
      (positive : sign.isDelimiter "+")
      (inner : Derives d .atom tokens formula) :
      Derives d .signed (sign :: tokens) formula
  | minus {sign : Token} {tokens : List Token} {formula : Formula}
      (negative : sign.isDelimiter "-")
      (inner : Derives d .atom tokens formula) :
      Derives d .signed (sign :: tokens) (.negate formula)
  | group {opening closing : Token} {tokens : List Token} {formula : Formula}
      (opens : opening.isDelimiter "(")
      (inner : Derives d (.chain .relational) tokens formula)
      (closes : closing.isDelimiter ")") :
      Derives d .atom (opening :: (tokens ++ [closing])) formula
  | number {token : Token} {value : Float}
      (digits : token.category = .number)
      (reads : d.convention.readNumber? token.text = some value) :
      Derives d .atom [token] (.constant value)
  | name {token : Token} (letters : token.category = .letter) :
      Derives d .atom [token] (.var token.text)
  | call {name opening closing : Token} {function : Callable}
      {tokens : List Token} {arguments : List Formula}
      (letters : name.category = .letter)
      (opens : opening.isDelimiter "(")
      (registered : d.functions.find? name.text = some function)
      (inner : DerivesArguments d tokens arguments)
      (arity : arguments.length = function.arity)
      (closes : closing.isDelimiter ")") :
      Derives d .atom (name :: opening :: (tokens ++ [closing]))
        (.call name.text function arguments)

/-- The tokens are relational chains with separators between them, and the
formulas are what the chains mean. -/
inductive DerivesArguments (d : Dialect) : List Token → List Formula → Prop where
  | one {tokens : List Token} {formula : Formula}
      (inner : Derives d (.chain .relational) tokens formula) :
      DerivesArguments d tokens [formula]
  | more {before after : List Token} {separator : Token} {first : Formula}
      {others : List Formula}
      (inner : Derives d (.chain .relational) before first)
      (separates : separator.isDelimiter argumentSeparator)
      (rest : DerivesArguments d after others) :
      DerivesArguments d (before ++ separator :: after) (first :: others)

end

/-- A tight phrase is a phrase of every looser kind. -/
theorem Derives.looser {d : Dialect} {phrase other : Phrase} {tokens : List Token}
    {formula : Formula} (h : Derives d phrase tokens formula)
    (hrank : phrase.rank ≤ other.rank) : Derives d other tokens formula := by
  rcases Nat.eq_or_lt_of_le hrank with heq | hlt
  · exact Phrase.eq_of_rank_eq heq ▸ h
  · match other with
    | .atom => cases hlt
    | .signed => exact .unsigned (h.looser (Nat.le_of_lt_succ hlt))
    | .chain level =>
      refine .operand (h.looser ?_)
      rw [Phrase.rank_operandOf]
      exact Nat.le_of_lt_succ hlt
termination_by other.rank
decreasing_by
  · decide
  · exact Phrase.rank_operandOf_lt level

end Formulary
