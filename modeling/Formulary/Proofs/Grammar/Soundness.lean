import Formulary.Proofs.Grammar.Derivation
import Formulary.Proofs.Grammar.Success

/-!
# What is read is derived

A phrase that has been read is derived from exactly the tokens in front of
those that are left, and the names mentioned on the way are the variables of
its formula, in their order.

A left-associative chain is read from left to right while its derivation grows
at the right end, so `further_derives` carries along the derivation of what has
been read so far.  A relational chain needs no such thing: its right operand is
a chain of the same level and leaves no operator of that level behind.

* `Dialect.read_derives` is the statement for every phrase;
* `Dialect.parse_derives` is the one for whole token lists.
-/

namespace Formulary.Dialect

variable {d : Dialect} {level : Level} {tokens rest : List Token}
  {formula : Formula} {mentions : List String}

/-- If the phrase is read from the tokens, it is derived from those that are
consumed, and it mentions its variables. -/
def SoundAt (d : Dialect) (phrase : Phrase) (tokens : List Token) : Prop :=
  ∀ ⦃formula rest mentions⦄,
    d.read phrase tokens = ⟨.ok formula, rest, mentions⟩ →
    ∃ front, tokens = front ++ rest ∧ Derives d phrase front formula ∧
      mentions = formula.leaves

/-- What a level other than the relational one reads after a derived chain
makes that chain longer. -/
private theorem further_derives (hlevel : level ≠ .relational) {bound : Nat}
    (hoperand : ∀ fewer : List Token, fewer.length < bound →
      SoundAt d (.operandOf level) fewer)
    {front : List Token} {left : Formula}
    (hleft : Derives d (.chain level) front left)
    (hbound : tokens.length ≤ bound)
    (h : d.further level left tokens = ⟨.ok formula, rest, mentions⟩) :
    ∃ more, tokens = more ++ rest ∧
      Derives d (.chain level) (front ++ more) formula ∧
      left.leaves ++ mentions = formula.leaves := by
  induction hn : tokens.length using Nat.strongRecOn
    generalizing tokens front left mentions with
  | ind n ih =>
    rcases further_eq_ok h with ⟨rfl, rfl, rfl, -⟩ | ⟨token, others, operator,
      right, between, early, late, rfl, hdenotes, hright, hnext, rfl⟩
    · exact ⟨[], rfl, by simpa using hleft, by simp⟩
    · rw [List.length_cons] at hn hbound
      have hread : d.read (.operandOf level) others =
          ⟨.ok right, between, early⟩ := by
        rw [read_operandOf, ← hright, rightOperand_eq]
        cases level <;> first | rfl | exact absurd rfl hlevel
      obtain ⟨back, rfl, hback, rfl⟩ := hoperand others (by omega) hread
      rw [List.length_append] at hn hbound
      have hlonger := Derives.toLeft hlevel hleft hdenotes hback
      obtain ⟨more, rfl, hmore, hleaves⟩ :=
        ih between.length (by omega) hlonger (by omega) hnext rfl
      refine ⟨token :: (back ++ more), by simp, by simpa using hmore, ?_⟩
      rw [← hleaves, Tree.leaves, List.append_assoc]

/-- A chain that groups to the left is derived if its operands are. -/
private theorem chain_sound (hlevel : level ≠ .relational)
    (hfewer : ∀ fewer : List Token, fewer.length < tokens.length →
      SoundAt d (.operandOf level) fewer)
    (hoperand : SoundAt d (.operandOf level) tokens) :
    SoundAt d (.chain level) tokens := by
  intro formula rest mentions h
  obtain ⟨first, between, early, late, hfirst, hnext, rfl⟩ := chain_eq_ok h
  have hshorter := operand_shorter hfirst
  rw [← read_operandOf] at hfirst
  obtain ⟨front, rfl, hfront, rfl⟩ := hoperand hfirst
  obtain ⟨more, rfl, hmore, hleaves⟩ :=
    further_derives hlevel hfewer (.operand hfront) (by omega) hnext
  exact ⟨front ++ more, by simp, hmore, hleaves⟩

/-- A relational chain is derived if its operands are.  The right one is a chain of
the level itself, so no operator follows it. -/
private theorem chain_relational_sound
    (hfewer : ∀ fewer : List Token, fewer.length < tokens.length →
      SoundAt d (.chain .relational) fewer)
    (hoperand : SoundAt d (.operandOf .relational) tokens) :
    SoundAt d (.chain .relational) tokens := by
  intro formula rest mentions h
  obtain ⟨first, between, early, late, hfirst, hnext, rfl⟩ := chain_eq_ok h
  have hshorter := operand_shorter hfirst
  rw [← read_operandOf] at hfirst
  obtain ⟨front, rfl, hfront, rfl⟩ := hoperand hfirst
  rcases further_eq_ok hnext with ⟨rfl, rfl, rfl, -⟩ | ⟨token, others, operator,
    right, between', early', late', rfl, hdenotes, hright, hstop, rfl⟩
  · exact ⟨front, rfl, .operand hfront, by simp⟩
  · rw [rightOperand_eq] at hright
    rw [further_of_not_takes _ (chain_stops hright)] at hstop
    simp only [Outcome.mk.injEq, Except.ok.injEq] at hstop
    obtain ⟨rfl, rfl, rfl⟩ := hstop
    rw [List.length_cons] at hshorter
    obtain ⟨back, rfl, hback, rfl⟩ := hfewer others (by omega) hright
    refine ⟨front ++ token :: back, by simp, .toRight hfront hdenotes hback, ?_⟩
    rw [List.append_nil, Tree.leaves]

/-- A signed atom is derived if atoms are. -/
private theorem signed_sound
    (hfewer : ∀ fewer : List Token, fewer.length < tokens.length →
      SoundAt d .atom fewer)
    (hatom : SoundAt d .atom tokens) : SoundAt d .signed tokens := by
  intro formula rest mentions h
  rcases signed_eq_ok h with halone | ⟨sign, others, rfl, hplus, hafter⟩ |
    ⟨sign, others, inner, rfl, hminus, hafter, rfl⟩
  · obtain ⟨front, rfl, hfront, rfl⟩ := hatom halone
    exact ⟨front, rfl, .unsigned hfront, rfl⟩
  · obtain ⟨front, rfl, hfront, rfl⟩ := hfewer others (by simp) hafter
    exact ⟨sign :: front, rfl, .plus hplus hfront, rfl⟩
  · obtain ⟨front, rfl, hfront, rfl⟩ := hfewer others (by simp) hafter
    exact ⟨sign :: front, rfl, .minus hminus hfront, rfl⟩

/-- A list of arguments is derived up to its closing parenthesis if the chains
in it are. -/
private theorem argumentList_derives {bound : Nat}
    (hchain : ∀ fewer : List Token, fewer.length < bound →
      SoundAt d (.chain .relational) fewer)
    {name : Token} {arguments : List Formula} (hbound : tokens.length < bound)
    (h : d.argumentList name tokens = ⟨.ok arguments, rest, mentions⟩) :
    ∃ front closing, tokens = front ++ closing :: rest ∧
      closing.isDelimiter ")" ∧ DerivesArguments d front arguments ∧
      mentions = Tree.leavesAll arguments := by
  induction hn : tokens.length using Nat.strongRecOn
    generalizing tokens arguments mentions with
  | ind n ih =>
    obtain ⟨first, token, others, early, hfirst, hnext⟩ := argumentList_eq_ok h
    obtain ⟨front, rfl, hfront, rfl⟩ := hchain tokens hbound hfirst
    rw [List.length_append, List.length_cons] at hn hbound
    rcases hnext with ⟨hcloses, rfl, rfl, rfl⟩ |
      ⟨more, late, hseparates, hmore, rfl, rfl⟩
    · exact ⟨front, token, rfl, hcloses, .one hfront, by simp [Tree.leavesAll]⟩
    · obtain ⟨back, closing, rfl, hcloses, hback, rfl⟩ :=
        ih others.length (by omega) (by omega) hmore rfl
      exact ⟨front ++ token :: back, closing, by simp, hcloses,
        .more hfront hseparates hback, by simp [Tree.leavesAll]⟩

/-- An atom is derived if the chains in it are. -/
private theorem atom_sound
    (hfewer : ∀ fewer : List Token, fewer.length < tokens.length →
      SoundAt d (.chain .relational) fewer) : SoundAt d .atom tokens := by
  intro formula rest mentions h
  rcases atom_eq_ok h with ⟨opening, others, closing, rfl, hopens, hcloses,
      hinner⟩ | ⟨token, value, rfl, hnumber, hvalue, rfl, rfl⟩ |
    ⟨name, others, rfl, hletter, hnamed⟩
  · obtain ⟨front, rfl, hfront, rfl⟩ := hfewer others (by simp) hinner
    exact ⟨opening :: (front ++ [closing]), by simp,
      .group hopens hfront hcloses, rfl⟩
  · exact ⟨[token], rfl, .number hnumber hvalue, by simp [Tree.leaves]⟩
  · rcases named_eq_ok hnamed with ⟨rfl, rfl, rfl, -⟩ | ⟨opening, others, function,
      arguments, rfl, hopens, hfind, harguments, harity, rfl⟩
    · exact ⟨[name], rfl, .name hletter, by simp [Tree.leaves]⟩
    · rcases arguments_eq_ok harguments with rfl | hlist
      · cases function <;> simp [Callable.arity] at harity
      · obtain ⟨front, closing, rfl, hcloses, hfront, rfl⟩ :=
          argumentList_derives hfewer (by simp only [List.length_cons]; omega)
            hlist
        exact ⟨name :: opening :: (front ++ [closing]), by simp,
          .call hletter hopens hfind hfront harity hcloses, by simp [Tree.leaves]⟩

/-- **Soundness.**  Whatever phrase is read, it is derived from the tokens that
are consumed, and the names mentioned are the variables of its formula. -/
theorem read_derives (d : Dialect) (phrase : Phrase) (tokens : List Token) :
    d.SoundAt phrase tokens := by
  induction phrase, tokens using Phrase.induction with
  | step phrase tokens hfewer htighter =>
    cases phrase with
    | chain level =>
      have hoperand := htighter (.operandOf level) (Phrase.rank_operandOf_lt level)
      by_cases hlevel : level = .relational
      · subst hlevel
        exact chain_relational_sound (hfewer _) hoperand
      · exact chain_sound hlevel (hfewer _) hoperand
    | signed => exact signed_sound (hfewer _) (htighter .atom Nat.zero_lt_one)
    | atom => exact atom_sound (hfewer _)

/-- A token list that has been read as one formula derives it. -/
theorem parse_derives (h : d.parse tokens = ⟨.ok formula, rest, mentions⟩) :
    Derives d (.chain .relational) tokens formula ∧ rest = [] ∧
      mentions = formula.leaves := by
  obtain ⟨rfl, hchain⟩ := parse_eq_ok h
  obtain ⟨front, hfront, hderives, hmentions⟩ :=
    read_derives d (.chain .relational) tokens hchain
  rw [List.append_nil] at hfront
  exact ⟨hfront ▸ hderives, rfl, hmentions⟩

end Formulary.Dialect
