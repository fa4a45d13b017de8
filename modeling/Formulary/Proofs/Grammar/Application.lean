import Formulary.Proofs.Grammar.Occurrence
import Formulary.Proofs.Grammar.Success
import Mathlib.Logic.Relation

/-!
# Applications of the rules

A token list is read by applying rules, each to the tokens that are left when
its turn comes.  Which rules are applied to which tokens can be told step by
step: a rule applies others directly, on its own tokens, on those after a token
that it consumes, or on those that an earlier rule has left.

An error is raised by one application, on account of its own tokens, and all
rules on the way to it fail with the same error.  So the errors of a reading are
exactly those that some application on the way raises.  To say that the reader
never takes a certain branch is to say that no application is reached which would
take it.

* `Dialect.Applies` says which applications an application makes directly;
* `Dialect.Raises` lists the errors and the applications that raise them;
* `Dialect.error?_eq_some_iff` is the agreement with the outcomes of the rules.
-/

namespace Formulary

/-- The rules of the grammar, with what they have been told. -/
inductive Rule where
  /-- A whole token list as one formula. -/
  | whole
  | phrase (kind : Phrase)
  | further (level : Level) (left : Formula)
  | closing (inner : Formula)
  | named (name : Token)
  | arguments (name : Token)
  | argumentList (name : Token)
  | separated (name : Token) (first : Formula)

/-- A rule at work on the tokens that are left. -/
structure Application where
  rule : Rule
  tokens : List Token

/-- What stands to the right of the operators of the level. -/
def Phrase.rightOperandOf : Level → Phrase
  | .relational => chain .relational
  | level => operandOf level

@[simp]
theorem Dialect.read_rightOperandOf (d : Dialect) (level : Level)
    (tokens : List Token) :
    d.read (.rightOperandOf level) tokens = d.rightOperand level tokens := by
  rw [rightOperand_eq]
  cases level with
  | relational => rfl
  | _ => simp only [Phrase.rightOperandOf, read_operandOf]

/-- Whether the token is a sign. -/
def Token.isSign (token : Token) : Bool :=
  token.isDelimiter "-" || token.isDelimiter "+"

namespace Dialect

/-- The first application makes the second one directly. -/
inductive Applies (d : Dialect) : Application → Application → Prop where
  | whole {tokens : List Token} (nonempty : tokens ≠ []) :
      Applies d ⟨.whole, tokens⟩ ⟨.phrase (.chain .relational), tokens⟩
  | operand {level : Level} {tokens : List Token} :
      Applies d ⟨.phrase (.chain level), tokens⟩
        ⟨.phrase (.operandOf level), tokens⟩
  | further {level : Level} {tokens rest : List Token} {left : Formula}
      {mentions : List String}
      (read : d.read (.operandOf level) tokens = ⟨.ok left, rest, mentions⟩) :
      Applies d ⟨.phrase (.chain level), tokens⟩ ⟨.further level left, rest⟩
  | rightOperand {level : Level} {left : Formula} {token : Token}
      {tokens : List Token} (takes : level.takes token) :
      Applies d ⟨.further level left, token :: tokens⟩
        ⟨.phrase (.rightOperandOf level), tokens⟩
  | again {level : Level} {left right : Formula} {operator : Operator}
      {token : Token} {tokens rest : List Token} {mentions : List String}
      (denotes : level.Denotes token operator)
      (read : d.read (.rightOperandOf level) tokens =
        ⟨.ok right, rest, mentions⟩) :
      Applies d ⟨.further level left, token :: tokens⟩
        ⟨.further level (.binary operator left right), rest⟩
  | unsigned {tokens : List Token}
      (bare : ∀ token ∈ tokens.head?, token.isSign = false) :
      Applies d ⟨.phrase .signed, tokens⟩ ⟨.phrase .atom, tokens⟩
  | sign {token : Token} {tokens : List Token} (sign : token.isSign) :
      Applies d ⟨.phrase .signed, token :: tokens⟩ ⟨.phrase .atom, tokens⟩
  | group {token : Token} {tokens : List Token} (opens : token.isDelimiter "(") :
      Applies d ⟨.phrase .atom, token :: tokens⟩
        ⟨.phrase (.chain .relational), tokens⟩
  | closing {token : Token} {tokens rest : List Token} {inner : Formula}
      {mentions : List String} (opens : token.isDelimiter "(")
      (read : d.read (.chain .relational) tokens = ⟨.ok inner, rest, mentions⟩) :
      Applies d ⟨.phrase .atom, token :: tokens⟩ ⟨.closing inner, rest⟩
  | named {token : Token} {tokens : List Token}
      (letters : token.category = .letter) :
      Applies d ⟨.phrase .atom, token :: tokens⟩ ⟨.named token, tokens⟩
  | arguments {name token : Token} {tokens : List Token} {function : Callable}
      (opens : token.isDelimiter "(")
      (registered : d.functions.find? name.text = some function) :
      Applies d ⟨.named name, token :: tokens⟩ ⟨.arguments name, tokens⟩
  | argumentList {name : Token} {tokens : List Token}
      (some : nextIs ")" tokens = false) :
      Applies d ⟨.arguments name, tokens⟩ ⟨.argumentList name, tokens⟩
  | argument {name token : Token} {tokens : List Token}
      (begins : ¬(token.isDelimiter argumentSeparator || token.isDelimiter ")")) :
      Applies d ⟨.argumentList name, token :: tokens⟩
        ⟨.phrase (.chain .relational), token :: tokens⟩
  | separated {name token : Token} {tokens rest : List Token} {first : Formula}
      {mentions : List String}
      (begins : ¬(token.isDelimiter argumentSeparator || token.isDelimiter ")"))
      (read : d.read (.chain .relational) (token :: tokens) =
        ⟨.ok first, rest, mentions⟩) :
      Applies d ⟨.argumentList name, token :: tokens⟩ ⟨.separated name first, rest⟩
  | next {name token : Token} {first : Formula} {tokens : List Token}
      (separates : token.isDelimiter argumentSeparator) :
      Applies d ⟨.separated name first, token :: tokens⟩
        ⟨.argumentList name, tokens⟩

/-- The application raises the error on account of its own tokens. -/
inductive Raises (d : Dialect) : Application → CompileError → Prop where
  | empty : Raises d ⟨.whole, []⟩ .emptyExpression
  | leftOver {token : Token} {tokens rest : List Token} {formula : Formula}
      {mentions : List String} (nonempty : tokens ≠ [])
      (read : d.read (.chain .relational) tokens =
        ⟨.ok formula, token :: rest, mentions⟩) :
      Raises d ⟨.whole, tokens⟩ (.unexpectedToken token.text token.position)
  | nothing : Raises d ⟨.phrase .atom, []⟩ .unexpectedEndOfInput
  | literal {token : Token} {tokens : List Token}
      (digits : token.category = .number)
      (malformed : d.convention.readNumber? token.text = none) :
      Raises d ⟨.phrase .atom, token :: tokens⟩
        (.numericFormat token.text token.position)
  | noAtom {token : Token} {tokens : List Token}
      (other : token.isDelimiter "(" = false)
      (wordless : token.category ≠ .number ∧ token.category ≠ .letter) :
      Raises d ⟨.phrase .atom, token :: tokens⟩
        (.unexpectedToken token.text token.position)
  | unclosed {inner : Formula} :
      Raises d ⟨.closing inner, []⟩ .unexpectedEndOfInput
  | notClosed {inner : Formula} {token : Token} {tokens : List Token}
      (other : token.isDelimiter ")" = false) :
      Raises d ⟨.closing inner, token :: tokens⟩
        (.unexpectedToken token.text token.position)
  | unknown {name token : Token} {tokens : List Token}
      (opens : token.isDelimiter "(")
      (unregistered : d.functions.find? name.text = none) :
      Raises d ⟨.named name, token :: tokens⟩
        (.unknownFunction name.text name.position)
  | miscounted {name token : Token} {tokens rest : List Token}
      {function : Callable} {arguments : List Formula} {mentions : List String}
      (opens : token.isDelimiter "(")
      (registered : d.functions.find? name.text = some function)
      (read : d.arguments name tokens = ⟨.ok arguments, rest, mentions⟩)
      (differs : arguments.length ≠ function.arity) :
      Raises d ⟨.named name, token :: tokens⟩
        (.argumentCountMismatch name.text function.arity arguments.length)
  | noArgument {name : Token} :
      Raises d ⟨.argumentList name, []⟩
        (.missingArgument name.text name.position)
  | emptyArgument {name token : Token} {tokens : List Token}
      (ends : token.isDelimiter argumentSeparator || token.isDelimiter ")") :
      Raises d ⟨.argumentList name, token :: tokens⟩
        (.missingArgument name.text token.position)
  | unended {name : Token} {first : Formula} :
      Raises d ⟨.separated name first, []⟩ .unexpectedEndOfInput
  | notEnded {name token : Token} {first : Formula} {tokens : List Token}
      (other : ¬(token.isDelimiter argumentSeparator || token.isDelimiter ")")) :
      Raises d ⟨.separated name first, token :: tokens⟩
        (.unexpectedToken token.text token.position)

end Dialect

/-- The error that an outcome ends with. -/
def Outcome.error? {α : Type} (o : Outcome α) : Option CompileError :=
  match o.result with
  | .ok _ => none
  | .error e => some e

/-- The error that an application ends with. -/
def Dialect.error? (d : Dialect) (a : Application) : Option CompileError :=
  match a.rule with
  | .whole => (d.parse a.tokens).error?
  | .phrase phrase => (d.read phrase a.tokens).error?
  | .further level left => (d.further level left a.tokens).error?
  | .closing inner => (Dialect.closing inner a.tokens).error?
  | .named name => (d.named name a.tokens).error?
  | .arguments name => (d.arguments name a.tokens).error?
  | .argumentList name => (d.argumentList name a.tokens).error?
  | .separated name first => (d.separated name first a.tokens).error?

namespace Outcome

variable {α β : Type} {e : CompileError}

@[simp]
theorem error?_ok (value : α) (rest : List Token) (mentions : List String) :
    (⟨.ok value, rest, mentions⟩ : Outcome α).error? = none := rfl

@[simp]
theorem error?_error (e : CompileError) (rest : List Token)
    (mentions : List String) :
    (⟨.error e, rest, mentions⟩ : Outcome α).error? = some e := rfl

@[simp]
theorem error?_map (f : α → β) (o : Outcome α) : (o.map f).error? = o.error? := by
  obtain ⟨result, rest, mentions⟩ := o
  cases result <;> rfl

@[simp]
theorem error?_mentioning (names : List String) (o : Outcome α) :
    (o.mentioning names).error? = o.error? := rfl

theorem error?_eq_some_iff {o : Outcome α} :
    o.error? = some e ↔ o.result = .error e := by
  obtain ⟨result, rest, mentions⟩ := o
  cases result <;> simp [error?]

/-- A sequence fails where its first step does, or the second one after it. -/
theorem error?_andThen_eq_some_iff {o : Outcome α}
    {next : α → List Token → Outcome β} :
    (o.andThen next).error? = some e ↔ o.error? = some e ∨
      ∃ value rest mentions, o = ⟨.ok value, rest, mentions⟩ ∧
        (next value rest).error? = some e := by
  obtain ⟨result, rest, mentions⟩ := o
  cases result with
  | error error => simp
  | ok value =>
    simp only [ok_andThen, error?_mentioning, error?_ok, reduceCtorEq, false_or]
    constructor
    · intro h
      exact ⟨value, rest, mentions, rfl, h⟩
    · rintro ⟨_, _, _, hsame, h⟩
      cases hsame
      exact h

end Outcome

namespace Dialect

variable {d : Dialect} {a b : Application} {e : CompileError}

/-- A sequence fails as its first step does. -/
private theorem error?_andThen_of_first {α β : Type} {o : Outcome α}
    {next : α → List Token → Outcome β} (h : o.error? = some e) :
    (o.andThen next).error? = some e :=
  Outcome.error?_andThen_eq_some_iff.mpr (Or.inl h)

/-- A sequence fails as its second step does. -/
private theorem error?_andThen_of_second {α β : Type} {o : Outcome α}
    {next : α → List Token → Outcome β} {value : α} {rest : List Token}
    {mentions : List String} (hread : o = ⟨.ok value, rest, mentions⟩)
    (h : (next value rest).error? = some e) : (o.andThen next).error? = some e :=
  Outcome.error?_andThen_eq_some_iff.mpr
    (Or.inr ⟨value, rest, mentions, hread, h⟩)

/-- What is raised is what the application fails with. -/
theorem Raises.error? (h : d.Raises a e) : d.error? a = some e := by
  cases h with
  | empty => rfl
  | @leftOver token tokens rest formula mentions nonempty read =>
    show (d.parse tokens).error? = _
    obtain ⟨first, others, rfl⟩ := List.exists_cons_of_ne_nil nonempty
    exact error?_andThen_of_second read rfl
  | nothing =>
    show (d.atom []).error? = _
    rw [atom_nil, Outcome.error?_error]
  | @literal token tokens digits malformed =>
    have hopens : token.isDelimiter "(" = false := by
      simp [Token.isDelimiter, digits]
    show (d.atom (token :: tokens)).error? = _
    simp [atom_cons, hopens, digits, malformed]
  | @noAtom token tokens other wordless =>
    show (d.atom (token :: tokens)).error? = _
    rw [atom_cons, other]
    cases hcategory : token.category with
    | number => exact absurd hcategory wordless.1
    | letter => exact absurd hcategory wordless.2
    | _ => rfl
  | unclosed => rfl
  | @notClosed inner token tokens other =>
    show (Dialect.closing inner (token :: tokens)).error? = _
    simp [closing_cons, other]
  | @unknown name token tokens opens unregistered =>
    show (d.named name (token :: tokens)).error? = _
    simp [named_cons, opens, unregistered]
  | @miscounted name token tokens rest function arguments mentions opens
      registered read differs =>
    show (d.named name (token :: tokens)).error? = _
    rw [named_cons, if_pos opens]
    simp only [registered]
    refine error?_andThen_of_second read ?_
    rw [calling_eq, if_neg differs, Outcome.error?_error]
  | @noArgument name =>
    show (d.argumentList name []).error? = _
    rw [argumentList_nil, Outcome.error?_error]
  | @emptyArgument name token tokens ends =>
    show (d.argumentList name (token :: tokens)).error? = _
    rw [argumentList_cons, if_pos ends, Outcome.error?_error]
  | @unended name first =>
    show (d.separated name first []).error? = _
    rw [separated_nil, Outcome.error?_error]
  | @notEnded name token first tokens other =>
    show (d.separated name first (token :: tokens)).error? = _
    simp only [Bool.or_eq_true, not_or] at other
    rw [separated_cons, if_neg other.1, if_neg other.2, Outcome.error?_error]

/-- An application fails as those do that it makes. -/
theorem Applies.error? (h : d.Applies a b) (hb : d.error? b = some e) :
    d.error? a = some e := by
  cases h with
  | @whole tokens nonempty =>
    show (d.parse tokens).error? = _
    obtain ⟨first, others, rfl⟩ := List.exists_cons_of_ne_nil nonempty
    exact error?_andThen_of_first hb
  | @operand level tokens =>
    show (d.chain level tokens).error? = _
    rw [chain_eq]
    exact error?_andThen_of_first (d.read_operandOf level tokens ▸ hb)
  | @further level tokens rest left mentions read =>
    show (d.chain level tokens).error? = _
    rw [chain_eq]
    exact error?_andThen_of_second (d.read_operandOf level tokens ▸ read) hb
  | @rightOperand level left token tokens takes =>
    obtain ⟨operator, hdenotes⟩ := Level.takes_iff_denotes.mp takes
    show (d.further level left (token :: tokens)).error? = _
    rw [further_of_denotes hdenotes]
    exact error?_andThen_of_first (d.read_rightOperandOf level tokens ▸ hb)
  | @again level left right operator token tokens rest mentions denotes read =>
    show (d.further level left (token :: tokens)).error? = _
    rw [further_of_denotes denotes]
    exact error?_andThen_of_second (d.read_rightOperandOf level tokens ▸ read) hb
  | @unsigned tokens bare =>
    show (d.signed tokens).error? = _
    cases tokens with
    | nil => exact signed_nil d ▸ hb
    | cons token others =>
      have hsign : token.isSign = false := bare token rfl
      simp only [Token.isSign, Bool.or_eq_false_iff] at hsign
      rw [signed_cons, hsign.1, hsign.2]
      exact hb
  | @sign token tokens sign =>
    show (d.signed (token :: tokens)).error? = _
    rw [signed_cons]
    split
    · rw [Outcome.error?_map]
      exact hb
    · next hminus =>
      rw [if_pos (by simpa [Token.isSign, hminus] using sign)]
      exact hb
  | @group token tokens opens =>
    show (d.atom (token :: tokens)).error? = _
    rw [atom_cons, if_pos opens]
    exact error?_andThen_of_first hb
  | @closing token tokens rest inner mentions opens read =>
    show (d.atom (token :: tokens)).error? = _
    rw [atom_cons, if_pos opens]
    exact error?_andThen_of_second read hb
  | @named token tokens letters =>
    have hopens : token.isDelimiter "(" = false := by
      simp [Token.isDelimiter, letters]
    show (d.atom (token :: tokens)).error? = _
    rw [atom_cons, hopens]
    simp only [letters]
    exact hb
  | @arguments name token tokens function opens registered =>
    show (d.named name (token :: tokens)).error? = _
    rw [named_cons, if_pos opens]
    simp only [registered]
    exact error?_andThen_of_first hb
  | @argumentList name tokens some =>
    show (d.arguments name tokens).error? = _
    cases tokens with
    | nil => exact arguments_nil d name ▸ hb
    | cons token others =>
      have hcloses : token.isDelimiter ")" = false := some
      rw [arguments_cons, hcloses]
      exact hb
  | @argument name token tokens begins =>
    show (d.argumentList name (token :: tokens)).error? = _
    rw [argumentList_cons, if_neg begins]
    exact error?_andThen_of_first hb
  | @separated name token tokens rest first mentions begins read =>
    show (d.argumentList name (token :: tokens)).error? = _
    rw [argumentList_cons, if_neg begins]
    exact error?_andThen_of_second read hb
  | @next name token first tokens separates =>
    show (d.separated name first (token :: tokens)).error? = _
    rw [separated_cons, if_pos separates, Outcome.error?_map]
    exact hb

/-- The application raises the error, or makes an application that fails with
it. -/
def Explains (d : Dialect) (a : Application) (e : CompileError) : Prop :=
  d.Raises a e ∨ ∃ b, d.Applies a b ∧ d.error? b = some e

private theorem explains_whole {tokens : List Token}
    (h : (d.parse tokens).error? = some e) : d.Explains ⟨.whole, tokens⟩ e := by
  cases tokens with
  | nil =>
    obtain rfl : .emptyExpression = e := Option.some.inj h
    exact Or.inl .empty
  | cons first others =>
    have hnonempty : first :: others ≠ [] := List.cons_ne_nil _ _
    rcases Outcome.error?_andThen_eq_some_iff.mp h with hchain |
      ⟨formula, rest, mentions, hread, hend⟩
    · exact Or.inr ⟨_, .whole hnonempty, hchain⟩
    · cases rest with
      | nil => simp at hend
      | cons token rest =>
        obtain rfl := Option.some.inj hend
        exact Or.inl (.leftOver hnonempty hread)

private theorem explains_chain {level : Level} {tokens : List Token}
    (h : (d.chain level tokens).error? = some e) :
    d.Explains ⟨.phrase (.chain level), tokens⟩ e := by
  rw [chain_eq, ← read_operandOf] at h
  rcases Outcome.error?_andThen_eq_some_iff.mp h with hoperand |
    ⟨left, rest, mentions, hread, hfurther⟩
  · exact Or.inr ⟨_, .operand, hoperand⟩
  · exact Or.inr ⟨_, .further hread, hfurther⟩

private theorem explains_further {level : Level} {left : Formula}
    {tokens : List Token} (h : (d.further level left tokens).error? = some e) :
    d.Explains ⟨.further level left, tokens⟩ e := by
  by_cases hstop : ∀ token ∈ tokens.head?, level.takes token = false
  · rw [further_of_not_takes left hstop] at h
    simp at h
  · cases tokens with
    | nil => simp at hstop
    | cons token others =>
      have htakes : level.takes token := by simpa using hstop
      obtain ⟨operator, hdenotes⟩ := Level.takes_iff_denotes.mp htakes
      rw [further_of_denotes hdenotes, ← read_rightOperandOf] at h
      rcases Outcome.error?_andThen_eq_some_iff.mp h with hright |
        ⟨right, rest, mentions, hread, hmore⟩
      · exact Or.inr ⟨_, .rightOperand htakes, hright⟩
      · exact Or.inr ⟨_, .again hdenotes hread, hmore⟩

private theorem explains_signed {tokens : List Token}
    (h : (d.signed tokens).error? = some e) :
    d.Explains ⟨.phrase .signed, tokens⟩ e := by
  cases tokens with
  | nil =>
    rw [signed_nil] at h
    exact Or.inr ⟨_, .unsigned (by simp), h⟩
  | cons token others =>
    rw [signed_cons] at h
    split at h
    · next hminus =>
      rw [Outcome.error?_map] at h
      exact Or.inr ⟨_, .sign (by simp [Token.isSign, hminus]), h⟩
    · next hminus =>
      split at h
      · next hplus => exact Or.inr ⟨_, .sign (by simp [Token.isSign, hplus]), h⟩
      · next hplus =>
        refine Or.inr ⟨_, .unsigned ?_, h⟩
        simp [Token.isSign, hminus, hplus]

private theorem explains_atom {tokens : List Token}
    (h : (d.atom tokens).error? = some e) :
    d.Explains ⟨.phrase .atom, tokens⟩ e := by
  cases tokens with
  | nil =>
    rw [atom_nil] at h
    obtain rfl := Option.some.inj h
    exact Or.inl .nothing
  | cons token others =>
    rw [atom_cons] at h
    split at h
    · next hopens =>
      rcases Outcome.error?_andThen_eq_some_iff.mp h with hinner |
        ⟨inner, rest, mentions, hread, hclosing⟩
      · exact Or.inr ⟨_, .group hopens, hinner⟩
      · exact Or.inr ⟨_, .closing hopens hread, hclosing⟩
    · next hopens =>
      split at h
      · next hnumber =>
        cases hvalue : d.convention.readNumber? token.text with
        | some value => simp [hvalue] at h
        | none =>
          rw [hvalue] at h
          obtain rfl := Option.some.inj h
          exact Or.inl (.literal hnumber hvalue)
      · next hletter => exact Or.inr ⟨_, .named hletter, h⟩
      · next hnumber hletter =>
        obtain rfl := Option.some.inj h
        exact Or.inl (.noAtom (by simpa using hopens) ⟨hnumber, hletter⟩)

private theorem explains_closing {inner : Formula} {tokens : List Token}
    (h : (Dialect.closing inner tokens).error? = some e) :
    d.Explains ⟨.closing inner, tokens⟩ e := by
  cases tokens with
  | nil =>
    obtain rfl := Option.some.inj h
    exact Or.inl .unclosed
  | cons token others =>
    rw [closing_cons] at h
    split at h
    · simp at h
    · next hcloses =>
      obtain rfl := Option.some.inj h
      exact Or.inl (.notClosed (by simpa using hcloses))

private theorem explains_named {name : Token} {tokens : List Token}
    (h : (d.named name tokens).error? = some e) :
    d.Explains ⟨.named name, tokens⟩ e := by
  cases tokens with
  | nil => simp [named_nil] at h
  | cons token others =>
    rw [named_cons] at h
    split at h
    · next hopens =>
      cases hfind : d.functions.find? name.text with
      | none =>
        rw [hfind] at h
        obtain rfl := Option.some.inj h
        exact Or.inl (.unknown hopens hfind)
      | some function =>
        rw [hfind] at h
        rcases Outcome.error?_andThen_eq_some_iff.mp h with harguments |
          ⟨arguments, rest, mentions, hread, hcall⟩
        · exact Or.inr ⟨_, .arguments hopens hfind, harguments⟩
        · rw [calling_eq] at hcall
          split at hcall
          · simp at hcall
          · next harity =>
            obtain rfl := Option.some.inj hcall
            exact Or.inl (.miscounted hopens hfind hread harity)
    · simp at h

private theorem explains_arguments {name : Token} {tokens : List Token}
    (h : (d.arguments name tokens).error? = some e) :
    d.Explains ⟨.arguments name, tokens⟩ e := by
  cases tokens with
  | nil =>
    rw [arguments_nil] at h
    exact Or.inr ⟨_, .argumentList rfl, h⟩
  | cons token others =>
    rw [arguments_cons] at h
    split at h
    · simp at h
    · next hcloses =>
      have hnext : nextIs ")" (token :: others) = false := by
        simpa [nextIs] using hcloses
      exact Or.inr ⟨_, .argumentList hnext, h⟩

private theorem explains_argumentList {name : Token} {tokens : List Token}
    (h : (d.argumentList name tokens).error? = some e) :
    d.Explains ⟨.argumentList name, tokens⟩ e := by
  cases tokens with
  | nil =>
    rw [argumentList_nil] at h
    obtain rfl := Option.some.inj h
    exact Or.inl .noArgument
  | cons token others =>
    rw [argumentList_cons] at h
    split at h
    · next hends =>
      obtain rfl := Option.some.inj h
      exact Or.inl (.emptyArgument hends)
    · next hbegins =>
      rcases Outcome.error?_andThen_eq_some_iff.mp h with hfirst |
        ⟨first, rest, mentions, hread, hmore⟩
      · exact Or.inr ⟨_, .argument hbegins, hfirst⟩
      · exact Or.inr ⟨_, .separated hbegins hread, hmore⟩

private theorem explains_separated {name : Token} {first : Formula}
    {tokens : List Token} (h : (d.separated name first tokens).error? = some e) :
    d.Explains ⟨.separated name first, tokens⟩ e := by
  cases tokens with
  | nil =>
    rw [separated_nil] at h
    obtain rfl := Option.some.inj h
    exact Or.inl .unended
  | cons token others =>
    rw [separated_cons] at h
    split at h
    · next hseparates =>
      rw [Outcome.error?_map] at h
      exact Or.inr ⟨_, .next hseparates, h⟩
    · next hseparates =>
      split at h
      · simp at h
      · next hcloses =>
        obtain rfl := Option.some.inj h
        exact Or.inl (.notEnded (by simp [hseparates, hcloses]))

/-- An error is raised by the application that fails or by one that it makes. -/
theorem explains_of_error? (h : d.error? a = some e) : d.Explains a e := by
  obtain ⟨rule, tokens⟩ := a
  match rule with
  | .whole => exact explains_whole h
  | .phrase (.chain _) => exact explains_chain h
  | .phrase .signed => exact explains_signed h
  | .phrase .atom => exact explains_atom h
  | .further _ _ => exact explains_further h
  | .closing _ => exact explains_closing h
  | .named _ => exact explains_named h
  | .arguments _ => exact explains_arguments h
  | .argumentList _ => exact explains_argumentList h
  | .separated _ _ => exact explains_separated h

/-- A phrase that is read takes at least one token. -/
theorem read_shorter {phrase : Phrase} {tokens rest : List Token}
    {formula : Formula} {mentions : List String}
    (h : d.read phrase tokens = ⟨.ok formula, rest, mentions⟩) :
    rest.length < tokens.length := by
  cases phrase <;> exact Reading.shorter_of_outcome h

end Dialect

/-- How far a rule is from consuming a token. -/
def Rule.rank : Rule → Nat
  | .whole => 7
  | .phrase kind => kind.rank
  | .further _ _ | .closing _ | .named _ | .separated _ _ => 0
  | .arguments _ => 8
  | .argumentList _ => 7

/-- A bound on the applications that follow. -/
def Application.weight (a : Application) : Nat :=
  16 * a.tokens.length + a.rule.rank

theorem Phrase.rank_le (phrase : Phrase) : phrase.rank ≤ 6 := by
  rcases phrase with level | _ | _
  · exact Nat.succ_le_succ level.rank_le
  · decide
  · decide

namespace Dialect

variable {d : Dialect} {a b : Application} {e : CompileError}

/-- Every application is lighter than the one that makes it. -/
theorem Applies.weight_lt (h : d.Applies a b) : b.weight < a.weight := by
  have hrank := Phrase.rank_le
  cases h with
  | @operand level tokens =>
    have htighter := Phrase.rank_operandOf_lt level
    simp only [Application.weight, Rule.rank]
    omega
  | @rightOperand level left token tokens takes =>
    have hright := hrank (.rightOperandOf level)
    simp only [Application.weight, Rule.rank, List.length_cons]
    omega
  | further read | again _ read | closing _ read | separated _ read =>
    have hshorter := read_shorter read
    simp only [Application.weight, Rule.rank, List.length_cons] at hshorter ⊢
    omega
  | whole | unsigned | sign | group | named | arguments | argumentList
  | argument | next =>
    simp only [Application.weight, Rule.rank, List.length_cons, Phrase.rank,
      Level.rank]
    omega

/-- **Errors.**  An application fails with exactly the error that is raised by
one of the applications that it leads to. -/
theorem error?_eq_some_iff :
    d.error? a = some e ↔
      ∃ b, Relation.ReflTransGen d.Applies a b ∧ d.Raises b e := by
  constructor
  · intro h
    induction hn : a.weight using Nat.strongRecOn generalizing a with
    | ind n ih =>
      rcases explains_of_error? h with hraises | ⟨b, happlies, hb⟩
      · exact ⟨a, .refl, hraises⟩
      · have hlighter := happlies.weight_lt
        obtain ⟨c, hreaches, hraises⟩ := ih b.weight (hn ▸ hlighter) hb rfl
        exact ⟨c, .head happlies hreaches, hraises⟩
  · rintro ⟨b, hreaches, hraises⟩
    induction hreaches using Relation.ReflTransGen.head_induction_on with
    | refl => exact hraises.error?
    | head happlies _ ih => exact happlies.error? ih

end Dialect

end Formulary
