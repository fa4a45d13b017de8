import Formulary.Compilation
import Formulary.Proofs.Grammar.Application

/-!
# What follows an error

The reader looks one token ahead and stops at the first fault, so what stands
behind the token at fault is never looked at.  With other tokens behind the end
of the list the same error is raised, and the same names are mentioned.

This holds of every error but those that say that a token is wanted: the list is
empty, a phrase or a call is not complete at its end, or an argument should begin
there.

A phrase that takes all tokens may go on if more tokens follow.  The arguments of
a call are different, since they end with a parenthesis and not with the list;
this is how a call can tell at the end of the list that it has the wrong number
of arguments.  So whether a reading may go on is a parameter of the comparison.

* `CompileError.WantsToken` are the errors that more tokens may repair;
* `Outcome.Persists` compares the outcome with the one on more tokens;
* `Dialect.read_persists` is the comparison for every phrase;
* `Scope.compileTokens_append` is the statement for token lists.
-/

namespace Formulary

/-- The error says that a token is wanted: there is none at all, or none where a
phrase goes on, or none where an argument begins.  An argument can be missing for
another reason, before a token that ends it; then there are tokens left to read,
namely that one and those after it. -/
def CompileError.WantsToken (rest : List Token) : CompileError → Prop
  | emptyExpression | unexpectedEndOfInput => True
  | missingArgument _ _ => rest = []
  | _ => False

namespace Outcome

variable {α β : Type} {goesOn : Prop} {more : List Token}

/-- The same outcome with more tokens left over. -/
def extend (o : Outcome α) (more : List Token) : Outcome α :=
  { o with rest := o.rest ++ more }

/-- More tokens can change the outcome: a token is wanted, or all tokens are
taken by something that may go on. -/
def Open (goesOn : Prop) (o : Outcome α) : Prop :=
  match o.result with
  | .ok _ => goesOn ∧ o.rest = []
  | .error e => e.WantsToken o.rest

/-- The outcome is open, or the other one is the same with more tokens left
over. -/
def Persists (goesOn : Prop) (more : List Token) (o o' : Outcome α) : Prop :=
  o.Open goesOn ∨ o' = o.extend more

/-- The outcome with more tokens left over, part by part. -/
theorem Persists.of_eq (result : Except CompileError α) (rest : List Token)
    (mentions : List String) :
    Persists goesOn more ⟨result, rest, mentions⟩
      ⟨result, rest ++ more, mentions⟩ :=
  Or.inr rfl

/-- Mentions open nothing and close nothing. -/
theorem Open.mentioning {o : Outcome α} (h : o.Open goesOn) (names : List String) :
    (o.mentioning names).Open goesOn := h

/-- Neither does another value. -/
theorem Open.map {o : Outcome α} (h : o.Open goesOn) (f : α → β) :
    (o.map f).Open goesOn := by
  obtain ⟨result, rest, mentions⟩ := o
  cases result <;> exact h

namespace Persists

variable {o o' : Outcome α}

theorem mentioning (h : Persists goesOn more o o') (names : List String) :
    Persists goesOn more (o.mentioning names) (o'.mentioning names) := by
  rcases h with hopen | rfl
  · exact Or.inl (hopen.mentioning names)
  · exact Or.inr rfl

theorem map (h : Persists goesOn more o o') (f : α → β) :
    Persists goesOn more (o.map f) (o'.map f) := by
  rcases h with hopen | rfl
  · exact Or.inl (hopen.map f)
  · exact Or.inr rfl

/-- A sequence persists if its steps do, and if the second is open where the
first may go on. -/
theorem andThen {goesOn' : Prop} {next : α → List Token → Outcome β}
    (h : Persists goesOn more o o')
    (hnext : ∀ value rest mentions, o = ⟨.ok value, rest, mentions⟩ →
      Persists goesOn' more (next value rest) (next value (rest ++ more)))
    (hend : goesOn → ∀ value, (next value []).Open goesOn') :
    Persists goesOn' more (o.andThen next) (o'.andThen next) := by
  obtain ⟨result, rest, mentions⟩ := o
  rcases h with hopen | rfl
  · cases result with
    | error e => exact Or.inl hopen
    | ok value =>
      obtain ⟨hgoes, rfl⟩ := hopen
      exact Or.inl ((hend hgoes value).mentioning mentions)
  · cases result with
    | error e => exact of_eq _ _ _
    | ok value => exact (hnext value rest mentions rfl).mentioning mentions

end Persists

end Outcome

namespace Dialect

open Outcome (Persists)

variable {d : Dialect} {more tokens : List Token} {level : Level}

/-- The outcome on the tokens of a phrase persists before more tokens. -/
def ReadPersists (d : Dialect) (more : List Token) (phrase : Phrase)
    (tokens : List Token) : Prop :=
  Persists True more (d.read phrase tokens) (d.read phrase (tokens ++ more))

/-- A chain may go on at the end of the list. -/
private theorem further_nil_open (d : Dialect) (level : Level) (left : Formula) :
    (d.further level left []).Open True := by
  rw [further_nil]
  exact ⟨trivial, rfl⟩

/-- Chains go on alike if their operands are read alike. -/
private theorem further_persists {bound : Nat}
    (hoperand : ∀ fewer : List Token, fewer.length < bound →
      ReadPersists d more (.rightOperandOf level) fewer)
    (left : Formula) (hbound : tokens.length ≤ bound) :
    Persists True more (d.further level left tokens)
      (d.further level left (tokens ++ more)) := by
  induction hn : tokens.length using Nat.strongRecOn
    generalizing tokens left with
  | ind n ih =>
    cases tokens with
    | nil => exact Or.inl (d.further_nil_open level left)
    | cons token rest =>
      rw [List.length_cons] at hbound hn
      by_cases htakes : level.takes token
      · obtain ⟨operator, hdenotes⟩ := Level.takes_iff_denotes.mp htakes
        have hright := hoperand rest (by omega)
        rw [ReadPersists, read_rightOperandOf, read_rightOperandOf] at hright
        rw [List.cons_append, further_of_denotes hdenotes,
          further_of_denotes hdenotes]
        refine hright.andThen ?_ fun _ right => d.further_nil_open _ _
        intro right between mentions hread
        have hshorter := rightOperand_shorter hread
        exact ih between.length (by omega) _ (by omega) rfl
      · rw [List.cons_append, further_cons, further_cons, if_neg htakes,
          if_neg htakes]
        exact .of_eq _ (token :: rest) _

/-- What follows a formula in parentheses is looked at alone. -/
private theorem closing_persists (inner : Formula) (tokens : List Token) :
    Persists True more (closing inner tokens) (closing inner (tokens ++ more)) := by
  cases tokens with
  | nil => exact Or.inl trivial
  | cons token rest =>
    rw [List.cons_append, closing_cons, closing_cons]
    split
    · exact .of_eq _ rest _
    · exact .of_eq _ rest _

/-- The number of arguments does not depend on what follows the call. -/
private theorem calling_persists (name : Token) (function : Callable)
    (arguments : List Formula) (tokens : List Token) :
    Persists True more (calling name function arguments tokens)
      (calling name function arguments (tokens ++ more)) := by
  rw [calling_eq, calling_eq]
  split
  · exact .of_eq _ tokens _
  · exact .of_eq _ tokens _

/-- Lists of arguments are read alike if chains are.  They do not go on at the
end of the list, for they end with a parenthesis. -/
private theorem argumentList_persists {name : Token} {bound : Nat}
    (hchain : ∀ fewer : List Token, fewer.length < bound →
      ReadPersists d more (.chain .relational) fewer)
    (hbound : tokens.length < bound) :
    Persists False more (d.argumentList name tokens)
      (d.argumentList name (tokens ++ more)) := by
  induction hn : tokens.length using Nat.strongRecOn generalizing tokens with
  | ind n ih =>
    cases tokens with
    | nil =>
      rw [argumentList_nil]
      exact Or.inl rfl
    | cons head tail =>
      have hfirst : Persists True more (d.chain .relational (head :: tail))
          (d.chain .relational (head :: tail ++ more)) :=
        hchain (head :: tail) hbound
      rw [List.cons_append] at hfirst ⊢
      rw [argumentList_cons, argumentList_cons]
      split
      · exact .of_eq _ (head :: tail) _
      refine hfirst.andThen ?_ fun _ first => ?_
      · intro first rest mentions hread
        replace hread : d.read (.chain .relational) (head :: tail) =
            ⟨.ok first, rest, mentions⟩ := hread
        have hshorter := read_shorter hread
        cases rest with
        | nil =>
          rw [separated_nil]
          exact Or.inl trivial
        | cons token others =>
          simp only [List.length_cons] at hshorter hn hbound
          rw [List.cons_append, separated_cons, separated_cons]
          split
          · exact (ih others.length (by omega) (by omega) rfl).map _
          · split
            · exact .of_eq _ others _
            · exact .of_eq _ others _
      · rw [separated_nil]
        trivial

/-- The arguments of a call are read alike if chains are. -/
private theorem arguments_persists {name : Token} {bound : Nat}
    (hchain : ∀ fewer : List Token, fewer.length < bound →
      ReadPersists d more (.chain .relational) fewer)
    (hbound : tokens.length < bound) :
    Persists False more (d.arguments name tokens)
      (d.arguments name (tokens ++ more)) := by
  have hlist : Persists False more (d.argumentList name tokens)
      (d.argumentList name (tokens ++ more)) :=
    argumentList_persists hchain hbound
  cases tokens with
  | nil =>
    rw [arguments_nil, argumentList_nil]
    exact Or.inl rfl
  | cons head tail =>
    rw [List.cons_append] at hlist ⊢
    rw [arguments_cons, arguments_cons]
    split
    · exact .of_eq _ tail _
    · exact hlist

/-- A name at the end of the list may be called by the tokens behind it. -/
private theorem named_persists {name : Token} {bound : Nat}
    (hchain : ∀ fewer : List Token, fewer.length < bound →
      ReadPersists d more (.chain .relational) fewer)
    (hbound : tokens.length ≤ bound) :
    Persists True more (d.named name tokens) (d.named name (tokens ++ more)) := by
  cases tokens with
  | nil =>
    rw [named_nil]
    exact Or.inl ⟨trivial, rfl⟩
  | cons token rest =>
    rw [List.cons_append, named_cons, named_cons]
    split
    · cases d.functions.find? name.text with
      | none => exact .of_eq _ rest _
      | some function =>
        rw [List.length_cons] at hbound
        have harguments : Persists False more (d.arguments name rest)
            (d.arguments name (rest ++ more)) :=
          arguments_persists hchain (by omega)
        exact harguments.andThen (fun _ _ _ _ => calling_persists _ _ _ _)
          False.elim
    · exact .of_eq _ (token :: rest) _

/-- An atom is read alike if the chains in it are. -/
private theorem atom_persists
    (hchain : ∀ fewer : List Token, fewer.length < tokens.length →
      ReadPersists d more (.chain .relational) fewer) :
    ReadPersists d more .atom tokens := by
  show Persists True more (d.atom tokens) (d.atom (tokens ++ more))
  cases tokens with
  | nil =>
    rw [atom_nil]
    exact Or.inl trivial
  | cons token rest =>
    rw [List.cons_append, atom_cons, atom_cons]
    split
    · have hinner : Persists True more (d.chain .relational rest)
          (d.chain .relational (rest ++ more)) :=
        hchain rest (Nat.lt_succ_self _)
      exact hinner.andThen (fun inner after _ _ => closing_persists inner after)
        fun _ _ => trivial
    cases token.category with
    | number =>
      cases d.convention.readNumber? token.text with
      | none => exact .of_eq _ rest _
      | some value => exact .of_eq _ rest _
    | letter => exact named_persists hchain (Nat.le_succ _)
    | delimiter | whitespace | undefined => exact .of_eq _ (token :: rest) _

/-- A signed atom is read alike if atoms are. -/
private theorem signed_persists
    (hfewer : ∀ fewer : List Token, fewer.length < tokens.length →
      ReadPersists d more .atom fewer)
    (hatom : ReadPersists d more .atom tokens) :
    ReadPersists d more .signed tokens := by
  show Persists True more (d.signed tokens) (d.signed (tokens ++ more))
  cases tokens with
  | nil =>
    rw [signed_nil, atom_nil]
    exact Or.inl trivial
  | cons token rest =>
    have hrest : Persists True more (d.atom rest) (d.atom (rest ++ more)) :=
      hfewer rest (Nat.lt_succ_self _)
    rw [List.cons_append, signed_cons, signed_cons]
    split
    · exact hrest.map _
    · split
      · exact hrest
      · exact hatom

/-- A chain is read alike if its operands are. -/
private theorem chain_persists
    (hfewer : ∀ fewer : List Token, fewer.length < tokens.length →
      ReadPersists d more (.rightOperandOf level) fewer)
    (hoperand : ReadPersists d more (.operandOf level) tokens) :
    ReadPersists d more (.chain level) tokens := by
  show Persists True more (d.chain level tokens) (d.chain level (tokens ++ more))
  rw [ReadPersists, read_operandOf, read_operandOf] at hoperand
  rw [chain_eq, chain_eq]
  refine hoperand.andThen ?_ fun _ left => d.further_nil_open level left
  intro left rest mentions hread
  exact further_persists hfewer left (Nat.le_of_lt (operand_shorter hread))

/-- **Phrases.**  What the reader says about the tokens of a phrase it says also
before more tokens, unless a token is wanted or the phrase may go on. -/
theorem read_persists (d : Dialect) (more : List Token) (phrase : Phrase)
    (tokens : List Token) : ReadPersists d more phrase tokens := by
  induction phrase, tokens using Phrase.induction with
  | step phrase tokens hfewer htighter =>
    cases phrase with
    | chain level =>
      exact chain_persists (fun fewer => hfewer _ fewer)
        (htighter _ (Phrase.rank_operandOf_lt level))
    | signed =>
      exact signed_persists (fun fewer => hfewer _ fewer)
        (htighter .atom (by decide))
    | atom => exact atom_persists fun fewer => hfewer _ fewer

/-- **Token lists.**  The outcome persists before more tokens. -/
theorem parse_persists (d : Dialect) (tokens more : List Token) :
    Persists True more (d.parse tokens) (d.parse (tokens ++ more)) := by
  cases tokens with
  | nil => exact Or.inl trivial
  | cons first others =>
    have hchain : Persists True more (d.expression (first :: others))
        (d.expression (first :: others ++ more)) :=
      d.read_persists more (.chain .relational) (first :: others)
    rw [List.cons_append] at hchain ⊢
    rw [parse, parse]
    refine hchain.andThen ?_ fun _ formula => ⟨trivial, rfl⟩
    intro formula rest mentions _
    cases rest with
    | nil => exact Or.inl ⟨trivial, rfl⟩
    | cons token rest => exact .of_eq _ rest _

end Dialect

/-- **No continuation repairs an error.**  If a token list is rejected, and not
for want of a token, then it is rejected with the same error whatever tokens
follow it, and the same variables are declared on the way. -/
theorem Scope.compileTokens_append (s : Scope) {d : Dialect} {tokens : List Token}
    {e : CompileError} (rejected : (s.compileTokens d tokens).1 = .error e)
    (settled : ¬e.WantsToken (d.parse tokens).rest) (more : List Token) :
    s.compileTokens d (tokens ++ more) = (.error e, (s.compileTokens d tokens).2) := by
  have hpersists := d.parse_persists tokens more
  rw [compileTokens] at rejected ⊢
  rw [compileTokens]
  generalize d.parse tokens = o at rejected settled hpersists ⊢
  obtain ⟨result, rest, mentions⟩ := o
  cases result with
  | ok formula => cases rejected
  | error error =>
    obtain rfl : error = e := by simpa [adopt, Except.map] using rejected
    rcases hpersists with hopen | hsame
    · exact absurd hopen settled
    · rw [hsame]
      rfl

/-- A number after a variable in a group, within the second argument of a call:
the parentheses that are missing do not help. -/
theorem Scope.compileTokens_append_number :
    let tokens : List Token :=
      [⟨"max", .letter, 0⟩, ⟨"(", .delimiter, 3⟩, ⟨"a", .letter, 4⟩,
        ⟨";", .delimiter, 5⟩, ⟨"(", .delimiter, 7⟩, ⟨"b", .letter, 8⟩,
        ⟨"2", .number, 10⟩]
    let d : Dialect := ⟨.invariant, .standard⟩
    (empty.compileTokens d tokens).1 = .error (.unexpectedToken "2" 10) ∧
      empty.compileTokens d (tokens ++ [⟨")", .delimiter, 11⟩, ⟨")", .delimiter, 12⟩]) =
        (.error (.unexpectedToken "2" 10), (empty.compileTokens d tokens).2) := by
  intro tokens d
  have hrejected : (empty.compileTokens d tokens).1 =
      .error (.unexpectedToken "2" 10) := by
    with_unfolding_all rfl
  exact ⟨hrejected, empty.compileTokens_append hrejected id _⟩

end Formulary
