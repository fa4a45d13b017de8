import Formulary.Proofs.Grammar.Derivation
import Formulary.Proofs.Grammar.Occurrence
import Formulary.Proofs.Tree.Substitution

/-!
# Token lists in place of variables

A variable is an atom, and so is whatever is derived between parentheses.  So the
tokens of a formula in parentheses may stand wherever a variable stands, and the
whole derives the formula with the other one in place of the variable.

Which names are variables depends on the next token.  A phrase is followed by an
operator, a separator, a closing parenthesis or nothing, so a name at its end is
a variable whatever the phrase is part of.

* `replaceVariable` goes through a token list and puts something in place of the
  variables with a certain name;
* `Derives.substitute` is the derivation of the whole.
-/

namespace Formulary

variable {β γ : Type}

/-- What is kept of each token, with something new in place of each variable with
the name. -/
def replaceVariable (name : String) (keep : Token → β) (new : β) :
    List Token → List β
  | [] => []
  | token :: rest =>
    (if token.category = .letter ∧ token.text = name ∧ nextIs "(" rest = false
      then new else keep token) :: replaceVariable name keep new rest

theorem map_replaceVariable (f : β → γ) (name : String) (keep : Token → β)
    (new : β) (tokens : List Token) :
    (replaceVariable name keep new tokens).map f =
      replaceVariable name (f ∘ keep) (f new) tokens := by
  induction tokens with
  | nil => rfl
  | cons token rest ih =>
    rw [replaceVariable, replaceVariable, List.map_cons, ih, apply_ite f]
    rfl

/-- What stands before a parenthesis is replaced as it is anywhere else, unless the
parenthesis opens. -/
theorem replaceVariable_append {name : String} {keep : Token → β} {new : β}
    {rest : List Token} (hrest : nextIs "(" rest = false) (front : List Token) :
    replaceVariable name keep new (front ++ rest) =
      replaceVariable name keep new front ++
        replaceVariable name keep new rest := by
  induction front with
  | nil => rfl
  | cons token front ih =>
    have hnext : nextIs "(" (front ++ rest) = nextIs "(" front := by
      cases front with
      | nil => exact hrest
      | cons next front => rfl
    rw [List.cons_append, replaceVariable, replaceVariable, hnext, ih,
      List.cons_append]

/-- What is no name is kept. -/
theorem replaceVariable_cons {name : String} {keep : Token → β} {new : β}
    {token : Token} (h : token.category ≠ .letter) (rest : List Token) :
    replaceVariable name keep new (token :: rest) =
      keep token :: replaceVariable name keep new rest := by
  rw [replaceVariable, if_neg fun hvariable => h hvariable.1]

/-- The tokens with others in place of each variable with the name. -/
def substituteTokens (name : String) (new tokens : List Token) : List Token :=
  (replaceVariable name (fun token => [token]) new tokens).flatten

section Derivation

variable {name : String} {new : List Token}

/-- A delimiter between two stretches of tokens stays. -/
private theorem substituteTokens_between {token : Token} {symbol : String}
    (hdelimiter : token.isDelimiter symbol)
    (hopening : token.isDelimiter "(" = false) (before after : List Token) :
    substituteTokens name new (before ++ token :: after) =
      substituteTokens name new before ++
        token :: substituteTokens name new after := by
  have hnext : nextIs "(" (token :: after) = false := hopening
  rw [substituteTokens, replaceVariable_append hnext,
    replaceVariable_cons (Token.category_ne_letter hdelimiter),
    List.flatten_append, List.flatten_cons, List.singleton_append]
  rfl

/-- A token that is no name stays. -/
private theorem substituteTokens_cons {token : Token}
    (h : token.category ≠ .letter) (rest : List Token) :
    substituteTokens name new (token :: rest) =
      token :: substituteTokens name new rest := by
  rw [substituteTokens, replaceVariable_cons h, List.flatten_cons,
    List.singleton_append]
  rfl

/-- What stands between two delimiters is replaced on its own. -/
private theorem substituteTokens_enclosed {opening closing : Token}
    {symbol : String} (hopens : opening.isDelimiter symbol)
    (hcloses : closing.isDelimiter ")") (tokens : List Token) :
    substituteTokens name new (opening :: (tokens ++ [closing])) =
      opening :: (substituteTokens name new tokens ++ [closing]) := by
  rw [substituteTokens_cons (Token.category_ne_letter hopens),
    substituteTokens_between hcloses
      (Token.isDelimiter_of_ne hcloses (by decide))]
  rfl

/-- A name that is called stays. -/
private theorem substituteTokens_call {token opening : Token}
    (hopens : opening.isDelimiter "(") (rest : List Token) :
    substituteTokens name new (token :: opening :: rest) =
      token :: substituteTokens name new (opening :: rest) := by
  have hnext : nextIs "(" (opening :: rest) = true := hopens
  rw [substituteTokens, replaceVariable, if_neg, List.flatten_cons,
    List.singleton_append]
  · rfl
  · rw [hnext]
    simp

/-- No operator opens a parenthesis. -/
private theorem Level.Denotes.not_opening {level : Level} {token : Token}
    {operator : Operator} (h : level.Denotes token operator) :
    token.isDelimiter "(" = false :=
  not_isDelimiter_of_takes (denotes_iff.mp h).1 (by decide)

variable {d : Dialect} {other : Formula}

mutual

/-- **A formula in place of a variable.**  If the new tokens are an atom, the tokens
with them in place of each variable with the name are a phrase of the same kind,
and mean the formula with the new one in place of the variable. -/
theorem Derives.substitute {phrase : Phrase} {tokens : List Token}
    {formula : Formula} (h : Derives d phrase tokens formula)
    (hnew : Derives d .atom new other) :
    Derives d phrase (substituteTokens name new tokens)
      (formula.substitute name other) := by
  match h with
  | .operand inner => exact .operand (inner.substitute hnew)
  | .toRight first denotes others =>
    rw [substituteTokens_between denotes.delimiter denotes.not_opening]
    exact .toRight (first.substitute hnew) denotes (others.substitute hnew)
  | .toLeft tight others denotes last =>
    rw [substituteTokens_between denotes.delimiter denotes.not_opening]
    exact .toLeft tight (others.substitute hnew) denotes (last.substitute hnew)
  | .unsigned inner => exact .unsigned (inner.substitute hnew)
  | .plus positive inner =>
    rw [substituteTokens_cons (Token.category_ne_letter positive)]
    exact .plus positive (inner.substitute hnew)
  | .minus negative inner =>
    rw [substituteTokens_cons (Token.category_ne_letter negative)]
    exact .minus negative (inner.substitute hnew)
  | .group opens inner closes =>
    rw [substituteTokens_enclosed opens closes]
    exact .group opens (inner.substitute hnew) closes
  | .number digits reads =>
    rw [substituteTokens_cons (by simp [digits])]
    exact .number digits reads
  | @Derives.name _ token letters =>
    rw [substituteTokens, replaceVariable, replaceVariable, List.flatten_singleton,
      Tree.substitute, Tree.graft]
    by_cases hname : token.text = name
    · rw [if_pos ⟨letters, hname, rfl⟩, if_pos hname]
      exact hnew
    · rw [if_neg fun hvariable => hname hvariable.2.1, if_neg hname]
      exact .name letters
  | .call letters opens registered inner arity closes =>
    rw [substituteTokens_call opens, substituteTokens_enclosed opens closes,
      Tree.substitute, Tree.graft]
    refine .call letters opens registered (inner.substitute hnew) ?_ closes
    rw [Tree.length_graftAll, arity]

/-- The same for arguments. -/
theorem DerivesArguments.substitute {tokens : List Token}
    {arguments : List Formula} (h : DerivesArguments d tokens arguments)
    (hnew : Derives d .atom new other) :
    DerivesArguments d (substituteTokens name new tokens)
      (Tree.graftAll (fun leaf => if leaf = name then other else .var leaf)
        arguments) := by
  match h with
  | .one inner => exact .one (inner.substitute hnew)
  | .more inner separates rest =>
    rw [substituteTokens_between separates
      (Token.isDelimiter_of_ne separates (by decide))]
    exact .more (inner.substitute hnew) separates (rest.substitute hnew)

end

end Derivation

end Formulary
