import Formulary.Proofs.Grammar.Level
import Formulary.Proofs.Grammar.Phrase

/-!
# What a successful rule has read

For each rule of the grammar, the ways in which it can succeed: the tokens that
it took, the rules that it called on the others, and the formula that it made.
Each statement says everything that a success can be, so that what is proved of
successes never opens a rule again.

* `Dialect.chain_eq_ok`, `further_eq_ok`, `signed_eq_ok` and `atom_eq_ok` are
  the ways for phrases;
* `Dialect.argumentList_eq_ok` is the way for arguments;
* `Dialect.parse_eq_ok` is the way for a whole token list.
-/

namespace Formulary.Dialect

variable {d : Dialect} {level : Level} {tokens rest : List Token}
  {formula : Formula} {mentions : List String}

/-- A chain is an operand and what follows it. -/
theorem chain_eq_ok (h : d.chain level tokens = ⟨.ok formula, rest, mentions⟩) :
    ∃ first between early late,
      d.operand level tokens = ⟨.ok first, between, early⟩ ∧
      d.further level first between = ⟨.ok formula, rest, late⟩ ∧
      mentions = early ++ late := by
  rw [chain_eq] at h
  exact Outcome.andThen_eq_ok h

/-- A chain goes on with an operator of its level. -/
theorem further_of_denotes {token : Token} {operator : Operator}
    (h : level.Denotes token operator) (left : Formula) (tokens : List Token) :
    d.further level left (token :: tokens) =
      (d.rightOperand level tokens).andThen fun right between =>
        d.further level (.binary operator left right) between := by
  obtain ⟨htakes, hfind⟩ := Level.denotes_iff.mp h
  rw [further_cons, if_pos htakes]
  simp only [hfind]

/-- A chain ends before a token that its level does not take. -/
theorem further_of_not_takes (left : Formula)
    (h : ∀ token ∈ tokens.head?, level.takes token = false) :
    d.further level left tokens = ⟨.ok left, tokens, []⟩ := by
  cases tokens with
  | nil => exact further_nil d level left
  | cons token others =>
    rw [further_cons, if_neg (by simp [h token rfl])]

/-- After its first operand, a chain ends at once or goes on with an operator
and an operand. -/
theorem further_eq_ok {left : Formula}
    (h : d.further level left tokens = ⟨.ok formula, rest, mentions⟩) :
    (formula = left ∧ rest = tokens ∧ mentions = [] ∧
      ∀ token ∈ tokens.head?, level.takes token = false) ∨
    ∃ token others operator right between early late,
      tokens = token :: others ∧
      level.Denotes token operator ∧
      d.rightOperand level others = ⟨.ok right, between, early⟩ ∧
      d.further level (.binary operator left right) between =
        ⟨.ok formula, rest, late⟩ ∧
      mentions = early ++ late := by
  by_cases hstop : ∀ token ∈ tokens.head?, level.takes token = false
  · left
    rw [further_of_not_takes left hstop] at h
    simp only [Outcome.mk.injEq, Except.ok.injEq] at h
    obtain ⟨rfl, rfl, rfl⟩ := h
    exact ⟨rfl, rfl, rfl, hstop⟩
  · right
    cases tokens with
    | nil => simp at hstop
    | cons token others =>
      have htakes : level.takes token := by simpa using hstop
      obtain ⟨operator, hoperator⟩ := Level.takes_iff_denotes.mp htakes
      rw [further_of_denotes hoperator] at h
      obtain ⟨right, between, early, late, hright, hnext, hmentions⟩ :=
        Outcome.andThen_eq_ok h
      exact ⟨token, others, operator, right, between, early, late, rfl,
        hoperator, hright, hnext, hmentions⟩

/-- What goes on in a chain stops only where the level takes no token. -/
theorem further_stops {left : Formula}
    (h : d.further level left tokens = ⟨.ok formula, rest, mentions⟩) :
    ∀ token ∈ rest.head?, level.takes token = false := by
  induction hn : tokens.length using Nat.strongRecOn
    generalizing tokens left mentions with
  | ind n ih =>
    rcases further_eq_ok h with ⟨-, rfl, -, hstop⟩ | ⟨token, others, operator,
      right, between, early, late, rfl, -, hright, hnext, -⟩
    · exact hstop
    · have hshorter := rightOperand_shorter hright
      rw [List.length_cons] at hn
      exact ih between.length (by omega) hnext rfl

/-- A chain stops only where its level takes no token. -/
theorem chain_stops (h : d.chain level tokens = ⟨.ok formula, rest, mentions⟩) :
    ∀ token ∈ rest.head?, level.takes token = false := by
  obtain ⟨first, between, early, late, -, hnext, -⟩ := chain_eq_ok h
  exact further_stops hnext

/-- A signed atom is an atom, alone or after a sign. -/
theorem signed_eq_ok (h : d.signed tokens = ⟨.ok formula, rest, mentions⟩) :
    d.atom tokens = ⟨.ok formula, rest, mentions⟩ ∨
    (∃ sign others, tokens = sign :: others ∧ sign.isDelimiter "+" ∧
      d.atom others = ⟨.ok formula, rest, mentions⟩) ∨
    ∃ sign others inner, tokens = sign :: others ∧ sign.isDelimiter "-" ∧
      d.atom others = ⟨.ok inner, rest, mentions⟩ ∧ formula = .negate inner := by
  cases tokens with
  | nil => exact Or.inl (signed_nil d ▸ h)
  | cons sign others =>
    rw [signed_cons] at h
    split at h
    · next hminus =>
      obtain ⟨inner, hinner, hformula⟩ := Outcome.map_eq_ok h
      exact Or.inr (Or.inr ⟨sign, others, inner, rfl, hminus, hinner, hformula⟩)
    · split at h
      · next hplus => exact Or.inr (Or.inl ⟨sign, others, rfl, hplus, h⟩)
      · exact Or.inl h

/-- The inner formula of a pair of parentheses is followed by the closing
one. -/
theorem closing_eq_ok {inner : Formula}
    (h : closing inner tokens = ⟨.ok formula, rest, mentions⟩) :
    ∃ token, tokens = token :: rest ∧ token.isDelimiter ")" ∧
      formula = inner ∧ mentions = [] := by
  cases tokens with
  | nil => simp [closing_nil] at h
  | cons token others =>
    rw [closing_cons] at h
    split at h
    · next hcloses =>
      simp only [Outcome.mk.injEq, Except.ok.injEq] at h
      obtain ⟨rfl, rfl, rfl⟩ := h
      exact ⟨token, rfl, hcloses, rfl, rfl⟩
    · simp at h

/-- A call is made of as many arguments as the function takes. -/
theorem calling_eq_ok {name : Token} {function : Callable}
    {arguments : List Formula}
    (h : calling name function arguments tokens =
      ⟨.ok formula, rest, mentions⟩) :
    arguments.length = function.arity ∧
      formula = .call name.text function arguments ∧ rest = tokens ∧
      mentions = [] := by
  rw [calling_eq] at h
  split at h
  · next harity =>
    simp only [Outcome.mk.injEq, Except.ok.injEq] at h
    obtain ⟨rfl, rfl, rfl⟩ := h
    exact ⟨harity, rfl, rfl, rfl⟩
  · simp at h

/-- A name is a variable where no parenthesis follows, and otherwise the call
of a function in the table. -/
theorem named_eq_ok {name : Token}
    (h : d.named name tokens = ⟨.ok formula, rest, mentions⟩) :
    (formula = .var name.text ∧ rest = tokens ∧ mentions = [name.text] ∧
      ∀ token ∈ tokens.head?, token.isDelimiter "(" = false) ∨
    ∃ opening others function arguments, tokens = opening :: others ∧
      opening.isDelimiter "(" ∧
      d.functions.find? name.text = some function ∧
      d.arguments name others = ⟨.ok arguments, rest, mentions⟩ ∧
      arguments.length = function.arity ∧
      formula = .call name.text function arguments := by
  cases tokens with
  | nil =>
    rw [named_nil] at h
    simp only [Outcome.mk.injEq, Except.ok.injEq] at h
    obtain ⟨rfl, rfl, rfl⟩ := h
    exact Or.inl ⟨rfl, rfl, rfl, by simp⟩
  | cons opening others =>
    rw [named_cons] at h
    split at h
    · next hopens =>
      cases hfind : d.functions.find? name.text with
      | none => simp [hfind] at h
      | some function =>
        simp only [hfind] at h
        obtain ⟨arguments, between, early, late, harguments, hcall, rfl⟩ :=
          Outcome.andThen_eq_ok h
        obtain ⟨harity, rfl, rfl, rfl⟩ := calling_eq_ok hcall
        exact Or.inr ⟨opening, others, function, arguments, rfl, hopens,
          rfl, by simpa using harguments, harity, rfl⟩
    · next hopens =>
      simp only [Outcome.mk.injEq, Except.ok.injEq] at h
      obtain ⟨rfl, rfl, rfl⟩ := h
      exact Or.inl ⟨rfl, rfl, rfl, by simpa using hopens⟩

/-- An atom is a chain in parentheses, a number, or what a name stands for. -/
theorem atom_eq_ok (h : d.atom tokens = ⟨.ok formula, rest, mentions⟩) :
    (∃ opening others closing, tokens = opening :: others ∧
      opening.isDelimiter "(" ∧ closing.isDelimiter ")" ∧
      d.chain .relational others = ⟨.ok formula, closing :: rest, mentions⟩) ∨
    (∃ token value, tokens = token :: rest ∧ token.category = .number ∧
      d.convention.readNumber? token.text = some value ∧
      formula = .constant value ∧ mentions = []) ∨
    ∃ name others, tokens = name :: others ∧ name.category = .letter ∧
      d.named name others = ⟨.ok formula, rest, mentions⟩ := by
  cases tokens with
  | nil => simp [atom_nil] at h
  | cons token others =>
    rw [atom_cons] at h
    split at h
    · next hopens =>
      obtain ⟨inner, between, early, late, hinner, hclose, rfl⟩ :=
        Outcome.andThen_eq_ok h
      obtain ⟨closing, rfl, hcloses, rfl, rfl⟩ := closing_eq_ok hclose
      exact Or.inl ⟨token, others, closing, rfl, hopens, hcloses,
        by simpa using hinner⟩
    · split at h
      · next hnumber =>
        cases hvalue : d.convention.readNumber? token.text with
        | none => simp [hvalue] at h
        | some value =>
          simp only [hvalue, Outcome.mk.injEq, Except.ok.injEq] at h
          obtain ⟨rfl, rfl, rfl⟩ := h
          exact Or.inr (Or.inl ⟨token, value, rfl, hnumber, hvalue, rfl, rfl⟩)
      · next hletter =>
        exact Or.inr (Or.inr ⟨token, others, rfl, hletter, h⟩)
      · simp at h

/-- Arguments are none before the closing parenthesis, or a list of them. -/
theorem arguments_eq_ok {name : Token} {arguments : List Formula}
    (h : d.arguments name tokens = ⟨.ok arguments, rest, mentions⟩) :
    arguments = [] ∨
      d.argumentList name tokens = ⟨.ok arguments, rest, mentions⟩ := by
  cases tokens with
  | nil => exact Or.inr (arguments_nil d name ▸ h)
  | cons token others =>
    rw [arguments_cons] at h
    split at h
    · simp only [Outcome.mk.injEq, Except.ok.injEq] at h
      exact Or.inl h.1.symm
    · exact Or.inr h

/-- A list of arguments is a chain before the closing parenthesis, or a chain
before a separator and a list of arguments. -/
theorem argumentList_eq_ok {name : Token} {arguments : List Formula}
    (h : d.argumentList name tokens = ⟨.ok arguments, rest, mentions⟩) :
    ∃ first token others early,
      d.chain .relational tokens = ⟨.ok first, token :: others, early⟩ ∧
      ((token.isDelimiter ")" ∧ arguments = [first] ∧ rest = others ∧
          mentions = early) ∨
        ∃ more late, token.isDelimiter argumentSeparator ∧
          d.argumentList name others = ⟨.ok more, rest, late⟩ ∧
          arguments = first :: more ∧ mentions = early ++ late) := by
  cases tokens with
  | nil => simp [argumentList_nil] at h
  | cons head tail =>
    rw [argumentList_cons] at h
    split at h
    · simp at h
    · obtain ⟨first, between, early, late, hfirst, hnext, rfl⟩ :=
        Outcome.andThen_eq_ok h
      cases between with
      | nil => simp [separated_nil] at hnext
      | cons token others =>
        refine ⟨first, token, others, early, hfirst, ?_⟩
        rw [separated_cons] at hnext
        split at hnext
        · next hseparates =>
          obtain ⟨more, hmore, rfl⟩ := Outcome.map_eq_ok hnext
          exact Or.inr ⟨more, late, hseparates, hmore, rfl, rfl⟩
        · split at hnext
          · next hcloses =>
            simp only [Outcome.mk.injEq, Except.ok.injEq] at hnext
            obtain ⟨rfl, rfl, rfl⟩ := hnext
            exact Or.inl ⟨hcloses, rfl, rfl, by simp⟩
          · simp at hnext

/-- A token list is one formula where a chain takes all of it. -/
theorem parse_eq_ok (h : d.parse tokens = ⟨.ok formula, rest, mentions⟩) :
    rest = [] ∧ d.chain .relational tokens = ⟨.ok formula, [], mentions⟩ := by
  cases tokens with
  | nil => simp [parse] at h
  | cons first others =>
    rw [parse] at h
    obtain ⟨inner, between, early, late, hchain, hend, rfl⟩ :=
      Outcome.andThen_eq_ok h
    cases between with
    | cons token left => simp at hend
    | nil =>
      simp only [Outcome.mk.injEq, Except.ok.injEq] at hend
      obtain ⟨rfl, rfl, rfl⟩ := hend
      exact ⟨rfl, by simpa [expression] using hchain⟩

end Formulary.Dialect
