import Formulary.Proofs.Grammar.Application

/-!
# Why the reader comes to an end

The rules call one another, and some call a rule on the very tokens that they
were given.  What decreases from one call to the next is the weight of an
application: the tokens that are left count most, and among rules on the same
tokens those count less that are closer to consuming one.  The loops end since an
operand or an argument that has been read has consumed something.

To say so of the rules themselves, and not only of the relation between their
applications, each rule is written with the calls that it makes as a parameter.
Calls are cut off at some depth and get any answers there.  If the depth is at
least the weight of an application, these answers make no difference to its
outcome, so no calls are nested as deeply as that.

* `Dialect.apply` is one application with the answers to its calls given;
* `Dialect.within` nests calls up to a depth;
* `Dialect.within_eq` says which depth is enough;
* `Dialect.rest_suffix` says that a rule leaves the end of its tokens, and
  `Outcome.Advances` also that success has consumed some;
* `Dialect.rules_end` puts these together for all rules.
-/

namespace Formulary

/-- What a rule makes of tokens: a list of formulas from the arguments of a call,
and one formula otherwise. -/
@[reducible]
def Rule.Value : Rule → Type
  | .arguments _ | .argumentList _ | .separated _ _ => List Formula
  | .whole | .phrase _ | .further _ _ | .closing _ | .named _ => Formula

/-- An outcome for every application. -/
abbrev Answers := (a : Application) → Outcome a.rule.Value

namespace Outcome

variable {α β : Type}

/-- The outcome leaves the end of the tokens, and fewer than the bound if it is a
success. -/
structure Advances (o : Outcome α) (tokens : List Token) (bound : Nat) : Prop where
  suffix : o.rest <:+ tokens
  shorter : ∀ value, o.result = .ok value → o.rest.length < bound

/-- An outcome with a value is made of that and of what it leaves and mentions. -/
theorem eq_of_result {o : Outcome α} {value : α} (h : o.result = .ok value) :
    o = ⟨.ok value, o.rest, o.mentions⟩ := by
  rw [← h]

/-- The two outcomes are the same, and leave the end of the tokens. -/
structure Tallies (tokens : List Token) (o o' : Outcome α) : Prop where
  eq : o = o'
  suffix : o'.rest <:+ tokens

namespace Tallies

variable {token : Token} {tokens rest : List Token} {o o' : Outcome α}

/-- A rule ends where it is. -/
theorem here (result : Except CompileError α) (mentions : List String) :
    Tallies tokens ⟨result, tokens, mentions⟩ ⟨result, tokens, mentions⟩ :=
  ⟨rfl, List.suffix_refl _⟩

/-- A token has been consumed before. -/
theorem cons (h : Tallies rest o o') : Tallies (token :: rest) o o' :=
  ⟨h.eq, h.suffix.trans (List.suffix_cons token rest)⟩

/-- Another value leaves the same tokens. -/
theorem map (h : Tallies tokens o o') (f : α → β) :
    Tallies tokens (o.map f) (o'.map f) :=
  ⟨congrArg (Outcome.map f) h.eq, h.suffix⟩

/-- Sequences agree if their first steps do and, where these succeed, the second
ones. -/
theorem andThen {next next' : α → List Token → Outcome β}
    (h : Tallies tokens o o')
    (hnext : ∀ value rest mentions, o' = ⟨.ok value, rest, mentions⟩ →
      Tallies rest (next value rest) (next' value rest)) :
    Tallies tokens (o.andThen next) (o'.andThen next') := by
  obtain ⟨rfl, hsuffix⟩ := h
  obtain ⟨result, rest, mentions⟩ := o
  cases result with
  | error error => exact ⟨rfl, hsuffix⟩
  | ok value =>
    obtain ⟨hsame, hend⟩ := hnext value rest mentions rfl
    rw [ok_andThen, ok_andThen, hsame]
    exact ⟨rfl, hend.trans hsuffix⟩

end Tallies

end Outcome

namespace Dialect

/-- What the rules make of their tokens. -/
def answer (d : Dialect) : Answers
  | ⟨.whole, tokens⟩ => d.parse tokens
  | ⟨.phrase kind, tokens⟩ => d.read kind tokens
  | ⟨.further level left, tokens⟩ => d.further level left tokens
  | ⟨.closing inner, tokens⟩ => closing inner tokens
  | ⟨.named name, tokens⟩ => d.named name tokens
  | ⟨.arguments name, tokens⟩ => d.arguments name tokens
  | ⟨.argumentList name, tokens⟩ => d.argumentList name tokens
  | ⟨.separated name first, tokens⟩ => d.separated name first tokens

/-- One application of a rule, with the answers to the calls that it makes. -/
def apply (d : Dialect) (call : Answers) : Answers
  | ⟨.whole, []⟩ =>
    { result := .error .emptyExpression, rest := [], mentions := [] }
  | ⟨.whole, first :: others⟩ =>
    (call ⟨.phrase (.chain .relational), first :: others⟩).andThen
      fun formula rest =>
        match rest with
        | [] => { result := .ok formula, rest := [], mentions := [] }
        | token :: rest =>
          { result := .error (.unexpectedToken token.text token.position)
            rest
            mentions := [] }
  | ⟨.phrase (.chain level), tokens⟩ =>
    (call ⟨.phrase (.operandOf level), tokens⟩).andThen fun left rest =>
      call ⟨.further level left, rest⟩
  | ⟨.phrase .signed, []⟩ => call ⟨.phrase .atom, []⟩
  | ⟨.phrase .signed, token :: rest⟩ =>
    if token.isDelimiter "-" then (call ⟨.phrase .atom, rest⟩).map .negate
    else if token.isDelimiter "+" then call ⟨.phrase .atom, rest⟩
    else call ⟨.phrase .atom, token :: rest⟩
  | ⟨.phrase .atom, []⟩ =>
    { result := .error .unexpectedEndOfInput, rest := [], mentions := [] }
  | ⟨.phrase .atom, token :: rest⟩ =>
    if token.isDelimiter "(" then
      (call ⟨.phrase (.chain .relational), rest⟩).andThen fun inner rest' =>
        call ⟨.closing inner, rest'⟩
    else
      match token.category with
      | .number =>
        match d.convention.readNumber? token.text with
        | some value =>
          { result := .ok (.constant value), rest, mentions := [] }
        | none =>
          { result := .error (.numericFormat token.text token.position)
            rest
            mentions := [] }
      | .letter => call ⟨.named token, rest⟩
      | _ =>
        { result := .error (.unexpectedToken token.text token.position)
          rest := token :: rest
          mentions := [] }
  | ⟨.further _ left, []⟩ => { result := .ok left, rest := [], mentions := [] }
  | ⟨.further level left, token :: rest⟩ =>
    if level.takes token then
      (call ⟨.phrase (.rightOperandOf level), rest⟩).andThen fun right rest' =>
        match Operator.find? token.text with
        | some operator => call ⟨.further level (.binary operator left right), rest'⟩
        | none =>
          { result := .error (.unknownOperator token.text token.position)
            rest := rest'
            mentions := [] }
    else { result := .ok left, rest := token :: rest, mentions := [] }
  | ⟨.closing inner, tokens⟩ => closing inner tokens
  | ⟨.named name, []⟩ =>
    { result := .ok (.var name.text), rest := [], mentions := [name.text] }
  | ⟨.named name, token :: rest⟩ =>
    if token.isDelimiter "(" then
      match d.functions.find? name.text with
      | none =>
        { result := .error (.unknownFunction name.text name.position)
          rest
          mentions := [] }
      | some function =>
        (call ⟨.arguments name, rest⟩).andThen (calling name function)
    else
      { result := .ok (.var name.text)
        rest := token :: rest
        mentions := [name.text] }
  | ⟨.arguments name, []⟩ => call ⟨.argumentList name, []⟩
  | ⟨.arguments name, token :: rest⟩ =>
    if token.isDelimiter ")" then { result := .ok [], rest, mentions := [] }
    else call ⟨.argumentList name, token :: rest⟩
  | ⟨.argumentList name, []⟩ =>
    { result := .error (.missingArgument name.text name.position)
      rest := []
      mentions := [] }
  | ⟨.argumentList name, token :: rest⟩ =>
    if token.isDelimiter argumentSeparator || token.isDelimiter ")" then
      { result := .error (.missingArgument name.text token.position)
        rest := token :: rest
        mentions := [] }
    else
      (call ⟨.phrase (.chain .relational), token :: rest⟩).andThen
        fun first rest' => call ⟨.separated name first, rest'⟩
  | ⟨.separated _ _, []⟩ =>
    { result := .error .unexpectedEndOfInput, rest := [], mentions := [] }
  | ⟨.separated name first, token :: rest⟩ =>
    if token.isDelimiter argumentSeparator then
      (call ⟨.argumentList name, rest⟩).map (first :: ·)
    else if token.isDelimiter ")" then
      { result := .ok [first], rest, mentions := [] }
    else
      { result := .error (.unexpectedToken token.text token.position)
        rest
        mentions := [] }

/-- The rules with calls nested up to a depth, and with any answers to calls that
are nested more deeply. -/
def within (d : Dialect) (beyond : Answers) : Nat → Answers
  | 0 => beyond
  | depth + 1 => d.apply (d.within beyond depth)

/-- A formula in parentheses, from the opening one on. -/
def grouping (d : Dialect) (tokens : List Token) : Outcome Formula :=
  (d.chain .relational tokens.tail).andThen closing

variable {d : Dialect} {call : Answers} {a : Application} {tokens : List Token}

/-- An atom that begins with an opening parenthesis is a formula in
parentheses. -/
theorem atom_of_opens {token : Token} (h : token.isDelimiter "(")
    (rest : List Token) : d.atom (token :: rest) = d.grouping (token :: rest) := by
  rw [atom_cons, if_pos h]
  rfl

/-- The calls that the application makes are answered as the rules do, and the
answers leave the ends of the tokens. -/
def Answered (d : Dialect) (call : Answers) (a : Application) : Prop :=
  ∀ b, d.Applies a b → Outcome.Tallies b.tokens (call b) (d.answer b)

private theorem apply_whole (h : d.Answered call ⟨.whole, tokens⟩) :
    Outcome.Tallies tokens (d.apply call ⟨.whole, tokens⟩) (d.parse tokens) := by
  cases tokens with
  | nil => exact .here _ _
  | cons first others =>
    have hchain := h _ (.whole (List.cons_ne_nil first others))
    rw [parse]
    simp only [apply]
    refine hchain.andThen fun formula rest mentions _ => ?_
    cases rest with
    | nil => exact .here _ _
    | cons token rest => exact .cons (.here _ _)

private theorem apply_chain {level : Level}
    (h : d.Answered call ⟨.phrase (.chain level), tokens⟩) :
    Outcome.Tallies tokens (d.apply call ⟨.phrase (.chain level), tokens⟩)
      (d.chain level tokens) := by
  rw [chain_eq, ← read_operandOf, apply]
  exact (h _ .operand).andThen fun left rest mentions hread => h _ (.further hread)

private theorem apply_signed (h : d.Answered call ⟨.phrase .signed, tokens⟩) :
    Outcome.Tallies tokens (d.apply call ⟨.phrase .signed, tokens⟩)
      (d.signed tokens) := by
  cases tokens with
  | nil =>
    rw [signed_nil, apply]
    exact h _ (.unsigned (by simp))
  | cons token rest =>
    rw [signed_cons]
    simp only [apply]
    split
    · next hminus =>
      have hatom := h _ (.sign (by simp [Token.isSign, hminus]))
      exact .cons (hatom.map _)
    · next hminus =>
      split
      · next hplus =>
        have hatom := h _ (.sign (by simp [Token.isSign, hplus]))
        exact .cons hatom
      · next hplus => exact h _ (.unsigned (by simp [Token.isSign, hminus, hplus]))

private theorem apply_atom (h : d.Answered call ⟨.phrase .atom, tokens⟩) :
    Outcome.Tallies tokens (d.apply call ⟨.phrase .atom, tokens⟩)
      (d.atom tokens) := by
  cases tokens with
  | nil =>
    rw [atom_nil, apply]
    exact .here _ _
  | cons token rest =>
    rw [atom_cons]
    simp only [apply]
    split
    · next hopens =>
      have hinner := h _ (.group hopens)
      exact .cons (hinner.andThen fun inner rest' mentions hread =>
        h _ (.closing hopens hread))
    · cases hcategory : token.category with
      | number =>
        cases d.convention.readNumber? token.text with
        | none => exact .cons (.here _ _)
        | some value => exact .cons (.here _ _)
      | letter => exact .cons (h _ (.named hcategory))
      | delimiter | whitespace | undefined => exact .here _ _

private theorem apply_further {level : Level} {left : Formula}
    (h : d.Answered call ⟨.further level left, tokens⟩) :
    Outcome.Tallies tokens (d.apply call ⟨.further level left, tokens⟩)
      (d.further level left tokens) := by
  cases tokens with
  | nil =>
    rw [further_nil, apply]
    exact .here _ _
  | cons token rest =>
    rw [further_cons]
    simp only [apply]
    split
    · next htakes =>
      have hright := h _ (.rightOperand htakes)
      rw [← read_rightOperandOf]
      refine .cons (hright.andThen fun right rest' mentions hread => ?_)
      cases hfind : Operator.find? token.text with
      | none => exact .here _ _
      | some operator =>
        exact h _ (.again (Level.denotes_iff.mpr ⟨htakes, hfind⟩) hread)
    · exact .here _ _

private theorem apply_closing (inner : Formula) (tokens : List Token) :
    Outcome.Tallies tokens (closing inner tokens) (closing inner tokens) := by
  cases tokens with
  | nil => exact .here _ _
  | cons token rest =>
    rw [closing_cons]
    split <;> exact .cons (.here _ _)

private theorem apply_named {name : Token}
    (h : d.Answered call ⟨.named name, tokens⟩) :
    Outcome.Tallies tokens (d.apply call ⟨.named name, tokens⟩)
      (d.named name tokens) := by
  cases tokens with
  | nil =>
    rw [named_nil, apply]
    exact .here _ _
  | cons token rest =>
    rw [named_cons]
    simp only [apply]
    split
    · next hopens =>
      cases hfind : d.functions.find? name.text with
      | none => exact .cons (.here _ _)
      | some function =>
        have harguments := h _ (.arguments hopens hfind)
        refine .cons (harguments.andThen fun arguments rest' mentions _ => ?_)
        rw [calling_eq]
        split <;> exact .here _ _
    · exact .here _ _

private theorem apply_arguments {name : Token}
    (h : d.Answered call ⟨.arguments name, tokens⟩) :
    Outcome.Tallies tokens (d.apply call ⟨.arguments name, tokens⟩)
      (d.arguments name tokens) := by
  cases tokens with
  | nil =>
    rw [arguments_nil, apply]
    exact h _ (.argumentList rfl)
  | cons token rest =>
    rw [arguments_cons]
    simp only [apply]
    split
    · exact .cons (.here _ _)
    · next hcloses =>
      exact h _ (.argumentList (by simpa [nextIs] using hcloses))

private theorem apply_argumentList {name : Token}
    (h : d.Answered call ⟨.argumentList name, tokens⟩) :
    Outcome.Tallies tokens (d.apply call ⟨.argumentList name, tokens⟩)
      (d.argumentList name tokens) := by
  cases tokens with
  | nil =>
    rw [argumentList_nil, apply]
    exact .here _ _
  | cons token rest =>
    rw [argumentList_cons]
    simp only [apply]
    split
    · exact .here _ _
    · next hbegins =>
      exact (h _ (.argument hbegins)).andThen fun first rest' mentions hread =>
        h _ (.separated hbegins hread)

private theorem apply_separated {name : Token} {first : Formula}
    (h : d.Answered call ⟨.separated name first, tokens⟩) :
    Outcome.Tallies tokens (d.apply call ⟨.separated name first, tokens⟩)
      (d.separated name first tokens) := by
  cases tokens with
  | nil =>
    rw [separated_nil, apply]
    exact .here _ _
  | cons token rest =>
    rw [separated_cons]
    simp only [apply]
    split
    · next hseparates =>
      have hlist : Outcome.Tallies rest (call ⟨.argumentList name, rest⟩)
          (d.argumentList name rest) := h _ (.next hseparates)
      exact .cons (hlist.map _)
    · split <;> exact .cons (.here _ _)

/-- **One application.**  The outcome depends on nothing but the outcomes of the
applications that are made directly. -/
theorem apply_tallies (h : d.Answered call a) :
    Outcome.Tallies a.tokens (d.apply call a) (d.answer a) := by
  obtain ⟨rule, tokens⟩ := a
  match rule with
  | .whole => exact apply_whole h
  | .phrase (.chain _) => exact apply_chain h
  | .phrase .signed => exact apply_signed h
  | .phrase .atom => exact apply_atom h
  | .further _ _ => exact apply_further h
  | .closing inner => exact apply_closing inner tokens
  | .named _ => exact apply_named h
  | .arguments _ => exact apply_arguments h
  | .argumentList _ => exact apply_argumentList h
  | .separated _ _ => exact apply_separated h

/-- **The tokens that are left.**  Whatever a rule makes of its tokens, it leaves
the end of them. -/
theorem rest_suffix (d : Dialect) (a : Application) :
    (d.answer a).rest <:+ a.tokens := by
  induction hn : a.weight using Nat.strongRecOn generalizing a with
  | ind n ih =>
    have hanswered : d.Answered d.answer a := fun b happlies =>
      ⟨rfl, ih b.weight (hn ▸ happlies.weight_lt) b rfl⟩
    exact (apply_tallies hanswered).suffix

/-- **Calls come to an end.**  Whatever is answered to calls that are nested more
deeply than the weight of an application, its outcome is the same. -/
theorem within_eq (beyond : Answers) {depth : Nat} (h : a.weight < depth) :
    d.within beyond depth a = d.answer a := by
  induction depth generalizing a with
  | zero => cases h
  | succ depth ih =>
    have hanswered : d.Answered (d.within beyond depth) a := fun b happlies =>
      have hlighter : b.weight < depth :=
        Nat.lt_of_lt_of_le happlies.weight_lt (Nat.le_of_lt_succ h)
      ⟨ih hlighter, d.rest_suffix b⟩
    exact (apply_tallies hanswered).eq

/-- Every application of a rule to the tokens is lighter than this. -/
theorem weight_lt (rule : Rule) (tokens : List Token) :
    (⟨rule, tokens⟩ : Application).weight < 16 * tokens.length + 9 := by
  have hrank : rule.rank ≤ 8 := by
    cases rule with
    | phrase kind => exact Nat.le_trans kind.rank_le (by decide)
    | _ => simp [Rule.rank]
  simp only [Application.weight]
  omega

/-- A rule that leaves an end of its tokens leaves fewer than the bound of its
reading. -/
private theorem advances_outcome {α : Type} {n : Nat} {r : Reading α n}
    (h : r.outcome.rest <:+ tokens) : r.outcome.Advances tokens n where
  suffix := h
  shorter _ hresult := Reading.shorter_of_outcome (Outcome.eq_of_result hresult)

/-- A formula in parentheses leaves an end of its tokens, which is shorter if it
is read. -/
theorem grouping_advances (d : Dialect) (tokens : List Token) :
    (d.grouping tokens).Advances tokens tokens.length where
  suffix := by
    have hinner : Outcome.Tallies tokens.tail (d.chain .relational tokens.tail)
        (d.chain .relational tokens.tail) :=
      ⟨rfl, d.rest_suffix ⟨.phrase (.chain .relational), tokens.tail⟩⟩
    have hgroup := hinner.andThen fun inner rest _ _ => apply_closing inner rest
    exact hgroup.suffix.trans (List.tail_suffix tokens)
  shorter formula hresult := by
    obtain ⟨inner, between, early, late, hchain, hclosing, -⟩ :=
      Outcome.andThen_eq_ok (Outcome.eq_of_result hresult)
    obtain ⟨token, rfl, -⟩ := closing_eq_ok hclosing
    have hread : d.read (.chain .relational) tokens.tail =
        ⟨.ok inner, token :: (d.grouping tokens).rest, early⟩ := hchain
    have hshorter := read_shorter hread
    simp only [List.length_cons, List.length_tail] at hshorter
    omega

/-- **All rules end.**  Calls of any rule are nested no more deeply than a bound
that depends on the number of its tokens alone.  Whatever its outcome, the rule
leaves an end of the tokens; and if it succeeds, it has consumed at least one of
them, where the name before what is read of a name counts as well.  The variables
of a store play no part in it, since they are declared once a rule has ended. -/
theorem rules_end (d : Dialect) (tokens : List Token) :
    (∀ (rule : Rule) (beyond : Answers),
      d.within beyond (16 * tokens.length + 9) ⟨rule, tokens⟩ =
        d.answer ⟨rule, tokens⟩) ∧
    (d.expression tokens).Advances tokens tokens.length ∧
    (∀ level, (d.chain level tokens).Advances tokens tokens.length) ∧
    (d.signed tokens).Advances tokens tokens.length ∧
    (d.atom tokens).Advances tokens tokens.length ∧
    ((d.grouping tokens).Advances tokens tokens.length ∧
      (nextIs "(" tokens → d.atom tokens = d.grouping tokens)) ∧
    (∀ name, (d.named name tokens).Advances tokens (name :: tokens).length) ∧
    ∀ name, (d.arguments name tokens).Advances tokens tokens.length := by
  have hsuffix : ∀ rule, (d.answer ⟨rule, tokens⟩).rest <:+ tokens := fun rule =>
    d.rest_suffix ⟨rule, tokens⟩
  refine ⟨fun rule beyond => within_eq beyond (weight_lt rule tokens), ?expression,
    ?chain, ?signed, ?atom, ⟨d.grouping_advances tokens, ?opening⟩, ?named,
    ?arguments⟩
  case expression => exact advances_outcome (hsuffix (.phrase (.chain .relational)))
  case chain => exact fun level => advances_outcome (hsuffix (.phrase (.chain level)))
  case signed => exact advances_outcome (hsuffix (.phrase .signed))
  case atom => exact advances_outcome (hsuffix (.phrase .atom))
  case opening =>
    intro hopens
    cases tokens with
    | nil => simp [nextIs] at hopens
    | cons token rest => exact atom_of_opens (by simpa [nextIs] using hopens) rest
  case named => exact fun name => advances_outcome (hsuffix (.named name))
  case arguments => exact fun name => advances_outcome (hsuffix (.arguments name))

end Dialect

end Formulary
