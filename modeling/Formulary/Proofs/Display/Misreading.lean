import Formulary.Proofs.Display.Grammar

/-!
# Display forms that are misread

A display form with a misread node is no phrase that means its formula.  Two
properties of token lists show this.

What can stand next in a phrase depends on what was before: after an operand an
operator, elsewhere an operand, and directly after a sign an operand that has
none itself.  Phrases follow this order, and so do the display forms of all
formulas, unless a negation is under a negation.

A phrase has as many numbers among its tokens as its formula has constants.  A
display form has one less for each infinite constant.

* `Expects.run` is the order; `Derives.run` and `Displays.orderly` are the two
  statements about it;
* `Derives.countP_isNumber` and `Displays.countsNumbers` are those about
  numbers;
* `Displays.derives_iff` says when a display form means its formula.
-/

namespace Formulary

/-- What can stand next in a token list. -/
inductive Expects where
  | operand
  | unsignedOperand
  | operator
deriving DecidableEq

namespace Expects

/-- What can stand after the token, if the token can stand where it is.  A
closing parenthesis ends an operand; every other delimiter after an operand
comes before another one. -/
def next? (expected : Expects) (token : Token) : Option Expects :=
  if expected = operator then
    if token.isDelimiter ")" then some operator
    else if token.category = .delimiter then some operand
    else none
  else if token.isDelimiter "(" then some operand
  else if token.category ≠ .delimiter then some operator
  else if expected = operand ∧
      (token.isDelimiter "-" ∨ token.isDelimiter "+") then some unsignedOperand
  else none

/-- What can stand after the tokens. -/
def run (expected : Expects) (tokens : List Token) : Option Expects :=
  tokens.foldlM next? expected

variable {expected : Expects} {token : Token} {symbol : String}
  {tokens before after : List Token}

@[simp]
theorem run_nil : run expected [] = some expected := rfl

theorem run_cons :
    run expected (token :: tokens) =
      (expected.next? token).bind (run · tokens) := by
  rw [run, List.foldlM_cons]
  rfl

theorem run_append :
    run expected (before ++ after) = (run expected before).bind (run · after) := by
  rw [run, List.foldlM_append]
  rfl

/-- An opening parenthesis stands where an operand can. -/
theorem next?_opening (h : token.isDelimiter "(") :
    expected.next? token = some operand := by
  have hcategory := (Token.isDelimiter_iff.mp h).1
  have hclosing := Token.isDelimiter_of_ne h (show "(" ≠ ")" by decide)
  cases expected <;> simp [next?, h, hcategory, hclosing]

/-- A number or a name is an operand. -/
theorem next?_leaf (h : token.category ≠ .delimiter)
    (hexpected : expected ≠ operator) : expected.next? token = some operator := by
  have hopening : token.isDelimiter "(" = false := by
    rw [Bool.eq_false_iff, ne_eq, Token.isDelimiter_iff]
    exact fun hopens => h hopens.1
  simp [next?, hexpected, hopening, h]

/-- After an operand, a delimiter that does not close comes before another. -/
theorem next?_operator (h : token.isDelimiter symbol) (hsymbol : symbol ≠ ")") :
    operator.next? token = some operand := by
  have hcategory := (Token.isDelimiter_iff.mp h).1
  have hclosing := Token.isDelimiter_of_ne h hsymbol
  simp [next?, hcategory, hclosing]

/-- A closing parenthesis stands after an operand. -/
theorem next?_closing (h : token.isDelimiter ")") :
    operator.next? token = some operator := by
  simp [next?, h]

/-- A sign stands where an operand can have one. -/
theorem next?_sign (h : token.isDelimiter symbol)
    (hsymbol : symbol = "-" ∨ symbol = "+") :
    operand.next? token = some unsignedOperand := by
  have hcategory := (Token.isDelimiter_iff.mp h).1
  have hopening : token.isDelimiter "(" = false := by
    refine Token.isDelimiter_of_ne h ?_
    rcases hsymbol with rfl | rfl <;> decide
  have hsign : token.isDelimiter "-" ∨ token.isDelimiter "+" := by
    rcases hsymbol with rfl | rfl
    · exact Or.inl h
    · exact Or.inr h
  simp [next?, hcategory, hopening, hsign]

/-- No sign stands after a sign. -/
theorem next?_sign_sign (h : token.isDelimiter "-") :
    unsignedOperand.next? token = none := by
  have hcategory := (Token.isDelimiter_iff.mp h).1
  have hopening := Token.isDelimiter_of_ne h (show "-" ≠ "(" by decide)
  simp [next?, hcategory, hopening]

/-- What is in parentheses begins anew, and is an operand. -/
theorem run_parenthesized {opening closing : Token}
    (hopens : opening.isDelimiter "(") (h : operand.run tokens = some operator)
    (hcloses : closing.isDelimiter ")") :
    expected.run (opening :: (tokens ++ [closing])) = some operator := by
  rw [run_cons, next?_opening hopens, Option.bind_some, run_append, h,
    Option.bind_some, run_cons, next?_closing hcloses]
  rfl

/-- Operands are joined by delimiters. -/
theorem run_joined (hexpected : expected.run before = some operator)
    (h : token.isDelimiter symbol) (hsymbol : symbol ≠ ")") :
    expected.run (before ++ token :: after) = operand.run after := by
  rw [run_append, hexpected, Option.bind_some, run_cons, next?_operator h hsymbol,
    Option.bind_some]

/-- Names and numbers are whole operands. -/
theorem run_leaf (h : token.category ≠ .delimiter)
    (hexpected : expected ≠ operator) : expected.run [token] = some operator := by
  rw [run_cons, next?_leaf h hexpected]
  rfl

end Expects

/-- No operator closes anything. -/
theorem Operator.symbol_ne_closing {operator : Operator}
    (h : operator ∈ Operator.table) : operator.symbol ≠ ")" := by
  have hsymbols : ∀ symbol ∈ Operator.symbols, symbol ≠ ")" := by decide
  exact hsymbols _ (List.mem_map_of_mem h)

/-- What is expected where a phrase of the kind can stand. -/
inductive Expects.Begins : Expects → Phrase → Prop where
  | operand (phrase : Phrase) : Begins .operand phrase
  | unsigned : Begins .unsignedOperand .atom

/-- No phrase stands where an operator is expected. -/
theorem Expects.Begins.ne_operator {expected : Expects} {phrase : Phrase}
    (h : expected.Begins phrase) : expected ≠ .operator := by
  cases h <;> decide

mutual

/-- **A phrase is an operand**, and an atom is one without a sign. -/
theorem Derives.run {d : Dialect} {phrase : Phrase} {tokens : List Token}
    {formula : Formula} (h : Derives d phrase tokens formula)
    {expected : Expects} (hbegins : expected.Begins phrase) :
    expected.run tokens = some .operator := by
  match h with
  | .operand inner =>
    cases hbegins
    exact inner.run (.operand _)
  | .toRight first denotes others =>
    cases hbegins
    rw [Expects.run_joined (first.run (.operand _)) denotes.delimiter
      (Operator.symbol_ne_closing denotes.registered)]
    exact others.run (.operand _)
  | .toLeft _ others denotes last =>
    cases hbegins
    rw [Expects.run_joined (others.run (.operand _)) denotes.delimiter
      (Operator.symbol_ne_closing denotes.registered)]
    exact last.run (.operand _)
  | .unsigned inner =>
    cases hbegins
    exact inner.run (.operand _)
  | .plus positive inner =>
    cases hbegins
    rw [Expects.run_cons, Expects.next?_sign positive (Or.inr rfl)]
    exact inner.run .unsigned
  | .minus negative inner =>
    cases hbegins
    rw [Expects.run_cons, Expects.next?_sign negative (Or.inl rfl)]
    exact inner.run .unsigned
  | .group opens inner closes =>
    exact Expects.run_parenthesized opens (inner.run (.operand _)) closes
  | .number digits _ =>
    exact Expects.run_leaf (by simp [digits]) hbegins.ne_operator
  | .name letters =>
    exact Expects.run_leaf (by simp [letters]) hbegins.ne_operator
  | .call letters opens _ inner _ closes =>
    rw [Expects.run_cons,
      Expects.next?_leaf (by simp [letters]) hbegins.ne_operator]
    exact Expects.run_parenthesized opens inner.run closes

/-- The same for arguments. -/
theorem DerivesArguments.run {d : Dialect} {tokens : List Token}
    {arguments : List Formula} (h : DerivesArguments d tokens arguments) :
    Expects.operand.run tokens = some .operator := by
  match h with
  | .one inner => exact inner.run (.operand _)
  | .more inner separates rest =>
    rw [Expects.run_joined (inner.run (.operand _)) separates (by decide)]
    exact rest.run

end

/-- The tokens are no operand, or there is no negation under a negation among
the nodes. -/
def Orderly (tokens : List Token) (nodes : List Formula) : Prop :=
  Expects.operand.run tokens = none ∨
    Expects.operand.run tokens = some .operator ∧
      ∀ inner, .negate (.negate inner) ∉ nodes

namespace Orderly

variable {tokens before after : List Token} {token : Token} {symbol : String}
  {node : Formula} {nodes others : List Formula}

theorem leaf (h : token.category ≠ .delimiter)
    (hnode : ∀ inner, node ≠ .negate inner) : Orderly [token] [node] := by
  refine Or.inr ⟨Expects.run_leaf h (by decide), fun inner hmem => ?_⟩
  exact hnode _ (List.mem_singleton.mp hmem).symm

/-- A node that is no negation of a negation is added. -/
theorem cons (h : Orderly tokens nodes)
    (hnode : ∀ inner, node ≠ .negate (.negate inner)) :
    Orderly tokens (node :: nodes) := by
  refine h.imp_right fun ⟨hrun, hnodes⟩ => ⟨hrun, fun inner hmem => ?_⟩
  rcases List.mem_cons.mp hmem with heq | hmem
  · exact hnode inner heq.symm
  · exact hnodes inner hmem

theorem parenthesized {opening closing : Token} (h : Orderly tokens nodes)
    (hopens : opening.isDelimiter "(") (hcloses : closing.isDelimiter ")") :
    Orderly (opening :: (tokens ++ [closing])) nodes := by
  rcases h with hnone | ⟨hrun, hnodes⟩
  · refine Or.inl ?_
    rw [Expects.run_cons, Expects.next?_opening hopens, Option.bind_some,
      Expects.run_append, hnone]
    rfl
  · exact Or.inr ⟨Expects.run_parenthesized hopens hrun hcloses, hnodes⟩

theorem called {name opening closing : Token} (h : Orderly tokens nodes)
    (hletter : name.category = .letter) (hopens : opening.isDelimiter "(")
    (hcloses : closing.isDelimiter ")") :
    Orderly (name :: opening :: (tokens ++ [closing])) nodes := by
  have hrun : Expects.operand.run (name :: opening :: (tokens ++ [closing])) =
      Expects.operand.run (opening :: (tokens ++ [closing])) := by
    rw [Expects.run_cons, Expects.next?_leaf (by simp [hletter]) (by decide),
      Option.bind_some, Expects.run_cons, Expects.run_cons,
      Expects.next?_opening hopens, Expects.next?_opening hopens]
  unfold Orderly
  rw [hrun]
  exact h.parenthesized hopens hcloses

theorem joined (h : Orderly before nodes) (htoken : token.isDelimiter symbol)
    (hsymbol : symbol ≠ ")") (hother : Orderly after others) :
    Orderly (before ++ token :: after) (nodes ++ others) := by
  rcases h with hnone | ⟨hrun, hnodes⟩
  · refine Or.inl ?_
    rw [Expects.run_append, hnone]
    rfl
  · unfold Orderly
    rw [Expects.run_joined hrun htoken hsymbol]
    refine hother.imp_right fun ⟨hafter, hothers⟩ =>
      ⟨hafter, fun inner hmem => ?_⟩
    rcases List.mem_append.mp hmem with hmem | hmem
    · exact hnodes inner hmem
    · exact hothers inner hmem

end Orderly

/-- Where a sign stood before, names and numbers stand as elsewhere. -/
private theorem run_unsigned_leaf {token : Token} (h : token.category ≠ .delimiter)
    (tokens : List Token) :
    Expects.unsignedOperand.run (token :: tokens) =
      Expects.operand.run (token :: tokens) := by
  rw [Expects.run_cons, Expects.run_cons, Expects.next?_leaf h (by decide),
    Expects.next?_leaf h (by decide)]

/-- Only a negation is displayed with a sign at the front. -/
theorem Displays.run_unsigned {tokens : List Token} {formula : Formula}
    (h : Displays tokens formula) :
    Expects.unsignedOperand.run tokens = none ∨
      (∀ inner, formula ≠ .negate inner) ∧
        Expects.unsignedOperand.run tokens = Expects.operand.run tokens := by
  cases h with
  | constant _ numeric _ =>
    exact Or.inr ⟨by simp, run_unsigned_leaf (by simp [numeric]) _⟩
  | infinity letters =>
    exact Or.inr ⟨by simp, run_unsigned_leaf (by simp [letters]) _⟩
  | var letters =>
    exact Or.inr ⟨by simp, run_unsigned_leaf (by simp [letters]) _⟩
  | negate negative _ =>
    refine Or.inl ?_
    rw [Expects.run_cons, Expects.next?_sign_sign negative]
    rfl
  | binary _ opens _ _ _ _ =>
    refine Or.inr ⟨by simp, ?_⟩
    rw [Expects.run_cons, Expects.run_cons, Expects.next?_opening opens,
      Expects.next?_opening opens]
  | call letters _ _ _ =>
    exact Or.inr ⟨by simp, run_unsigned_leaf (by simp [letters]) _⟩

/-- A sign before a negation is no operand, and any other display form is read as
it is without the sign. -/
theorem Orderly.signed {sign : Token} {tokens : List Token} {formula : Formula}
    (h : Orderly tokens formula.subtrees) (hsign : sign.isDelimiter "-")
    (hdisplays : Displays tokens formula) :
    Orderly (sign :: tokens) (.negate formula :: formula.subtrees) := by
  have hrun : Expects.operand.run (sign :: tokens) =
      Expects.unsignedOperand.run tokens := by
    rw [Expects.run_cons, Expects.next?_sign hsign (Or.inl rfl), Option.bind_some]
  rcases hdisplays.run_unsigned with hnone | ⟨hformula, hsame⟩
  · exact Or.inl (hrun.trans hnone)
  · unfold Orderly
    rw [hrun, hsame]
    refine h.cons fun inner heq => hformula inner ?_
    exact Tree.negate.inj heq

mutual

/-- **A display form is an operand** only where no negation is under a
negation. -/
theorem Displays.orderly {tokens : List Token} {formula : Formula}
    (h : Displays tokens formula) : Orderly tokens formula.subtrees := by
  match h with
  | .constant _ numeric _ =>
    rw [Tree.subtrees]
    exact .leaf (by simp [numeric]) (by simp)
  | .infinity letters =>
    rw [Tree.subtrees]
    exact .leaf (by simp [letters]) (by simp)
  | .var letters =>
    rw [Tree.subtrees]
    exact .leaf (by simp [letters]) (by simp)
  | .negate negative inner =>
    rw [Tree.subtrees]
    exact inner.orderly.signed negative inner
  | .binary registered opens first symbol second closes =>
    rw [Tree.subtrees]
    have hjoined := first.orderly.joined symbol
      (Operator.symbol_ne_closing registered) second.orderly
    exact (hjoined.parenthesized opens closes).cons (by simp)
  | .call letters opens inner closes =>
    rw [Tree.subtrees]
    exact (inner.orderly.called letters opens closes).cons (by simp)

/-- The same for arguments. -/
theorem DisplaysArguments.orderly {tokens : List Token}
    {arguments : List Formula} (h : DisplaysArguments tokens arguments) :
    Orderly tokens (Tree.subtreesAll arguments) := by
  match h with
  | .one inner =>
    rw [Tree.subtreesAll, Tree.subtreesAll, List.append_nil]
    exact inner.orderly
  | .more inner separates rest =>
    rw [Tree.subtreesAll]
    exact inner.orderly.joined separates (by decide) rest.orderly

end

/-- Whether the token is a number. -/
def Token.isNumber (token : Token) : Bool :=
  token.category == .number

/-- Whether the node is a constant. -/
def Tree.isConstant {α : Type} : Tree α → Bool
  | .constant _ => true
  | .var _ | .negate _ | .binary _ _ _ | .call _ _ _ => false

theorem Token.isNumber_of_isDelimiter {token : Token} {symbol : String}
    (h : token.isDelimiter symbol) : token.isNumber = false := by
  rw [isNumber, (isDelimiter_iff.mp h).1]
  rfl

theorem Token.isNumber_of_letter {token : Token} (h : token.category = .letter) :
    token.isNumber = false := by
  rw [isNumber, h]
  rfl

mutual

/-- **A phrase has a number for each constant.** -/
theorem Derives.countP_isNumber {d : Dialect} {phrase : Phrase}
    {tokens : List Token} {formula : Formula}
    (h : Derives d phrase tokens formula) :
    tokens.countP Token.isNumber = formula.subtrees.countP Tree.isConstant := by
  match h with
  | .operand inner => exact inner.countP_isNumber
  | .toRight first denotes others =>
    simp [Tree.subtrees, Tree.isConstant,
      Token.isNumber_of_isDelimiter denotes.delimiter, first.countP_isNumber,
      others.countP_isNumber]
  | .toLeft _ others denotes last =>
    simp [Tree.subtrees, Tree.isConstant,
      Token.isNumber_of_isDelimiter denotes.delimiter, others.countP_isNumber,
      last.countP_isNumber]
  | .unsigned inner => exact inner.countP_isNumber
  | .plus positive inner =>
    simp [Token.isNumber_of_isDelimiter positive,
      inner.countP_isNumber]
  | .minus negative inner =>
    simp [Tree.subtrees, Tree.isConstant,
      Token.isNumber_of_isDelimiter negative, inner.countP_isNumber]
  | .group opens inner closes =>
    simp [Token.isNumber_of_isDelimiter opens,
      Token.isNumber_of_isDelimiter closes, inner.countP_isNumber]
  | .number digits _ =>
    simp [Tree.subtrees, Tree.isConstant, Token.isNumber, digits]
  | .name letters =>
    simp [Tree.subtrees, Tree.isConstant, Token.isNumber_of_letter letters]
  | .call letters opens _ inner _ closes =>
    simp [Tree.subtrees, Tree.isConstant,
      Token.isNumber_of_letter letters, Token.isNumber_of_isDelimiter opens,
      Token.isNumber_of_isDelimiter closes, inner.countP_isNumber]

/-- The same for arguments. -/
theorem DerivesArguments.countP_isNumber {d : Dialect} {tokens : List Token}
    {arguments : List Formula} (h : DerivesArguments d tokens arguments) :
    tokens.countP Token.isNumber =
      (Tree.subtreesAll arguments).countP Tree.isConstant := by
  match h with
  | .one inner => simp [Tree.subtreesAll, inner.countP_isNumber]
  | .more inner separates rest =>
    simp [Tree.subtreesAll,
      Token.isNumber_of_isDelimiter separates, inner.countP_isNumber,
      rest.countP_isNumber]

end

/-- As many numbers can stand for the nodes: at most one for each constant, and
one for each only if none of them is infinite. -/
structure CountsNumbers (count : Nat) (nodes : List Formula) : Prop where
  le : count ≤ nodes.countP Tree.isConstant
  finite : nodes.countP Tree.isConstant ≤ count →
    ∀ negative, .constant (Binary64.ofParts negative .infinity) ∉ nodes

namespace CountsNumbers

variable {count more : Nat} {node : Formula} {nodes others : List Formula}

/-- A finite constant has a number. -/
theorem constant {m : Binary64.Magnitude} (h : m.isFinite) :
    CountsNumbers 1 [.constant (Binary64.ofParts false m)] where
  le := by simp [Tree.isConstant]
  finite := by
    intro _ negative hmem
    have hvalue := Tree.constant.inj (List.mem_singleton.mp hmem)
    have hparts := congrArg Binary64.parts? hvalue
    simp only [Binary64.parts?_ofParts, Option.some.injEq, Prod.mk.injEq] at hparts
    rw [← hparts.2] at h
    exact absurd h (by decide)

/-- An infinite constant has none. -/
theorem infinity (negative : Bool) :
    CountsNumbers 0 [.constant (Binary64.ofParts negative .infinity)] where
  le := Nat.zero_le _
  finite := by simp [Tree.isConstant]

/-- Other leaves have none, either. -/
theorem nil : CountsNumbers 0 [] where
  le := Nat.zero_le _
  finite := by simp

theorem cons (h : CountsNumbers count nodes) (hnode : node.isConstant = false) :
    CountsNumbers count (node :: nodes) where
  le := by simpa [hnode] using h.le
  finite := by
    intro hle negative hmem
    rcases List.mem_cons.mp hmem with heq | hmem
    · rw [← heq] at hnode
      cases hnode
    · exact h.finite (by simpa [hnode] using hle) negative hmem

theorem append (h : CountsNumbers count nodes)
    (hothers : CountsNumbers more others) :
    CountsNumbers (count + more) (nodes ++ others) where
  le := by
    rw [List.countP_append]
    exact Nat.add_le_add h.le hothers.le
  finite := by
    intro hle negative hmem
    have hcount := h.le
    have hmore := hothers.le
    rw [List.countP_append] at hle
    rcases List.mem_append.mp hmem with hmem | hmem
    · exact h.finite (by omega) negative hmem
    · exact hothers.finite (by omega) negative hmem

end CountsNumbers

mutual

/-- **A display form has a number for each finite constant.** -/
theorem Displays.countsNumbers {tokens : List Token} {formula : Formula}
    (h : Displays tokens formula) :
    CountsNumbers (tokens.countP Token.isNumber) formula.subtrees := by
  match h with
  | .constant finite numeric _ =>
    simpa [Tree.subtrees, Token.isNumber, numeric] using .constant finite
  | .infinity letters =>
    simpa [Tree.subtrees, Token.isNumber_of_letter letters] using .infinity false
  | .var letters =>
    simpa [Tree.subtrees, Token.isNumber_of_letter letters] using
      CountsNumbers.nil.cons rfl
  | .negate negative inner =>
    simpa [Tree.subtrees, Token.isNumber_of_isDelimiter negative] using
      inner.countsNumbers.cons rfl
  | .binary _ opens first symbol second closes =>
    simpa [Tree.subtrees, Token.isNumber_of_isDelimiter opens,
      Token.isNumber_of_isDelimiter symbol,
      Token.isNumber_of_isDelimiter closes] using
      (first.countsNumbers.append second.countsNumbers).cons rfl
  | .call letters opens inner closes =>
    simpa [Tree.subtrees, Token.isNumber_of_letter letters,
      Token.isNumber_of_isDelimiter opens,
      Token.isNumber_of_isDelimiter closes] using inner.countsNumbers.cons rfl

/-- The same for arguments. -/
theorem DisplaysArguments.countsNumbers {tokens : List Token}
    {arguments : List Formula} (h : DisplaysArguments tokens arguments) :
    CountsNumbers (tokens.countP Token.isNumber) (Tree.subtreesAll arguments) := by
  match h with
  | .one inner => simpa [Tree.subtreesAll] using inner.countsNumbers
  | .more inner separates rest =>
    simpa [Tree.subtreesAll, Token.isNumber_of_isDelimiter separates] using
      inner.countsNumbers.append rest.countsNumbers

end

/-- **A display form means its formula exactly where no node is misread.** -/
theorem Displays.derives_iff {d : Dialect} (hdecimal : d.convention.decimal = '.')
    {tokens : List Token} {formula : Formula} (h : Displays tokens formula)
    (hlegible : ∀ node ∈ formula.subtrees, Legible d.functions node) :
    Derives d (.chain .relational) tokens formula ↔
      ∀ node ∈ formula.subtrees, ¬node.Misread := by
  constructor
  · intro hderives node hnode hmisread
    cases hmisread with
    | twice inner =>
      have hrun := hderives.run (.operand _)
      rcases h.orderly with hnone | ⟨-, hnodes⟩
      · rw [hnone] at hrun
        cases hrun
      · exact hnodes inner hnode
    | infinite negative =>
      have hcount := hderives.countP_isNumber
      exact h.countsNumbers.finite (Nat.le_of_eq hcount.symm) negative hnode
  · intro hread
    exact (h.derives hdecimal hlegible hread).signed.looser (by decide)

end Formulary
