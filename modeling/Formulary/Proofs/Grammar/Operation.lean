import Formulary.Proofs.Grammar.Exactness
import Formulary.Proofs.Grammar.Exhaustion
import Formulary.Proofs.Grammar.Node

/-!
# Operations and operators

The operations of a formula and the operators among its tokens belong together.
A binary operation comes from an operator that the table knows, and it does what
the table says.  A minus in front of an operand makes a negation.  A plus in
front of an operand makes nothing, and every other operator makes one operation.

Which plus is a sign can be seen from the token before it: a sign stands first,
or directly after an operator, an opening parenthesis or a separator.  No phrase
ends with one of these, so what follows a phrase is no sign, and the signs in
the parts of a phrase are counted one part after the other.

* `plusSigns` counts the signs that make nothing;
* `Accounted` is the account of a phrase, and `Derives.accounted` settles it;
* `Scope.compileTokens_operations` is the statement for token lists.
-/

namespace Formulary

/-- Whether the token spells an operator of the table. -/
def Token.isOperator (token : Token) : Bool :=
  Operator.symbols.any token.isDelimiter

/-- Whether a sign can stand directly after the token. -/
def Token.precedesSign (token : Token) : Bool :=
  token.isOperator || token.isDelimiter "(" ||
    token.isDelimiter argumentSeparator

/-- The number of plus signs among the tokens, given whether a sign can stand
before them. -/
def plusSigns (signed : Bool) : List Token → Nat
  | [] => 0
  | token :: rest =>
    (if signed && token.isDelimiter "+" then 1 else 0) +
      plusSigns token.precedesSign rest

/-- The first plus is an operator and the second one a sign. -/
example :
    plusSigns true [⟨"a", .letter, 0⟩, ⟨"+", .delimiter, 1⟩,
      ⟨"+", .delimiter, 2⟩, ⟨"b", .letter, 3⟩] = 1 := by
  decide

/-- Whether the node is an operation. -/
def Tree.isOperation {α : Type} : Tree α → Bool
  | .negate _ | .binary _ _ _ => true
  | .constant _ | .var _ | .call _ _ _ => false

namespace Token

variable {token : Token} {symbol : String}

/-- A delimiter is an operator if its text is one. -/
theorem isOperator_of_isDelimiter (h : token.isDelimiter symbol) :
    token.isOperator = decide (symbol ∈ Operator.symbols) := by
  obtain ⟨hcategory, htext⟩ := isDelimiter_iff.mp h
  rw [Bool.eq_iff_iff, isOperator, List.any_eq_true, decide_eq_true_iff]
  simp [isDelimiter_iff, hcategory, htext]

/-- A sign can stand after a delimiter if its text is an operator, an opening
parenthesis or a separator. -/
theorem precedesSign_of_isDelimiter (h : token.isDelimiter symbol) :
    token.precedesSign =
      decide (symbol ∈ Operator.symbols ++ ["(", argumentSeparator]) := by
  obtain ⟨hcategory, htext⟩ := isDelimiter_iff.mp h
  rw [precedesSign, isOperator_of_isDelimiter h, Bool.eq_iff_iff, Bool.or_assoc]
  simp [isDelimiter_iff, hcategory, htext]

/-- Numbers and names are no operators. -/
theorem isOperator_of_ne (h : token.category ≠ .delimiter) :
    token.isOperator = false := by
  simp [isOperator, isDelimiter, h]

/-- No sign stands after a number or a name. -/
theorem precedesSign_of_ne (h : token.category ≠ .delimiter) :
    token.precedesSign = false := by
  simp [precedesSign, isOperator_of_ne h, isDelimiter, h]

/-- A token that a level takes is an operator, and a sign can stand after it. -/
theorem isOperator_of_takes {level : Level} (h : level.takes token) :
    token.isOperator ∧ token.precedesSign := by
  obtain ⟨hcategory, hlisted⟩ := Level.takes_iff.mp h
  have hdelimiter : token.isDelimiter token.text :=
    isDelimiter_iff.mpr ⟨hcategory, rfl⟩
  have hsymbol := level.symbols_subset hlisted
  rw [isOperator_of_isDelimiter hdelimiter,
    precedesSign_of_isDelimiter hdelimiter]
  simp [hsymbol]

end Token

/-- The tokens end with one after which no sign can stand. -/
def EndsOperand (tokens : List Token) : Prop :=
  ∃ front last, tokens = front ++ [last] ∧ last.precedesSign = false

namespace EndsOperand

variable {tokens before after : List Token} {token : Token}

theorem single (h : token.precedesSign = false) : EndsOperand [token] :=
  ⟨[], token, rfl, h⟩

/-- Only the end matters. -/
theorem append (h : EndsOperand after) : EndsOperand (before ++ after) := by
  obtain ⟨front, last, rfl, hlast⟩ := h
  exact ⟨before ++ front, last, by simp, hlast⟩

/-- Only the end matters. -/
theorem cons (h : EndsOperand tokens) : EndsOperand (token :: tokens) :=
  List.singleton_append ▸ h.append

/-- A closing parenthesis ends an operand. -/
theorem closed (h : token.isDelimiter ")") : EndsOperand (before ++ [token]) := by
  refine (single ?_).append
  rw [Token.precedesSign_of_isDelimiter h]
  decide

end EndsOperand

mutual

/-- After a phrase no sign can stand. -/
theorem Derives.endsOperand {d : Dialect} {phrase : Phrase}
    {tokens : List Token} {formula : Formula}
    (h : Derives d phrase tokens formula) : EndsOperand tokens := by
  match h with
  | .operand inner => exact inner.endsOperand
  | .toRight _ _ others => exact others.endsOperand.cons.append
  | .toLeft _ _ _ last => exact last.endsOperand.cons.append
  | .unsigned inner => exact inner.endsOperand
  | .plus _ inner => exact inner.endsOperand.cons
  | .minus _ inner => exact inner.endsOperand.cons
  | .group _ _ closes => exact (EndsOperand.closed closes).cons
  | .number digits _ =>
    exact .single (Token.precedesSign_of_ne (by simp [digits]))
  | .name letters =>
    exact .single (Token.precedesSign_of_ne (by simp [letters]))
  | .call _ _ _ _ _ closes => exact (EndsOperand.closed closes).cons.cons

/-- The same for arguments. -/
theorem DerivesArguments.endsOperand {d : Dialect} {tokens : List Token}
    {arguments : List Formula} (h : DerivesArguments d tokens arguments) :
    EndsOperand tokens := by
  match h with
  | .one inner => exact inner.endsOperand
  | .more _ _ rest => exact rest.endsOperand.cons.append

end

section PlusSigns

variable {token : Token} {tokens before after : List Token} {signed : Bool}

/-- A token that is no plus counts for nothing. -/
theorem plusSigns_cons_of_ne (h : token.isDelimiter "+" = false) :
    plusSigns signed (token :: tokens) = plusSigns token.precedesSign tokens := by
  simp [plusSigns, h]

/-- What follows an operand is no sign, so its two sides are counted apart. -/
theorem plusSigns_joined (h : EndsOperand before) :
    plusSigns signed (before ++ token :: after) =
      plusSigns signed before + plusSigns token.precedesSign after := by
  obtain ⟨front, last, rfl, hlast⟩ := h
  induction front generalizing signed with
  | nil => simp [plusSigns, hlast]
  | cons first front ih =>
    simp only [List.cons_append, plusSigns, ih]
    omega

/-- What is in parentheses is counted as it stands there alone. -/
theorem plusSigns_parenthesized {opening closing : Token}
    (hopens : opening.isDelimiter "(") (h : EndsOperand tokens) :
    plusSigns signed (opening :: (tokens ++ [closing])) = plusSigns true tokens := by
  have hplus : opening.isDelimiter "+" = false :=
    Token.isDelimiter_of_ne hopens (by decide)
  have hsign : opening.precedesSign = true := by
    rw [Token.precedesSign_of_isDelimiter hopens]
    decide
  rw [plusSigns_cons_of_ne hplus, hsign, plusSigns_joined h]
  simp [plusSigns]

end PlusSigns

/-- Each operator among the tokens is a plus sign or makes one of the operations
among the nodes. -/
def Accounted (tokens : List Token) (nodes : List Formula) : Prop :=
  nodes.countP Tree.isOperation + plusSigns true tokens =
    tokens.countP Token.isOperator

namespace Accounted

variable {token : Token} {tokens before after : List Token} {node : Formula}
  {nodes others : List Formula}

/-- A number or a name makes no operation. -/
theorem word (h : token.category ≠ .delimiter) (hnode : node.isOperation = false) :
    Accounted [token] [node] := by
  simp [Accounted, plusSigns, Token.isDelimiter, Token.isOperator, h, hnode]

/-- An operator after an operand makes one operation. -/
theorem infixed (h : Accounted before nodes) (hends : EndsOperand before)
    (htoken : token.isOperator ∧ token.precedesSign)
    (hother : Accounted after others) (hnode : node.isOperation) :
    Accounted (before ++ token :: after) (node :: (nodes ++ others)) := by
  unfold Accounted at h hother ⊢
  rw [plusSigns_joined hends, htoken.2]
  simp only [List.countP_cons, List.countP_append, htoken.1, hnode, if_true]
  omega

/-- A separator makes none. -/
theorem separated (h : Accounted before nodes) (hends : EndsOperand before)
    (hseparates : token.isDelimiter argumentSeparator)
    (hother : Accounted after others) :
    Accounted (before ++ token :: after) (nodes ++ others) := by
  have hoperator : token.isOperator = false := by
    rw [Token.isOperator_of_isDelimiter hseparates]
    decide
  have hsign : token.precedesSign = true := by
    rw [Token.precedesSign_of_isDelimiter hseparates]
    decide
  unfold Accounted at h hother ⊢
  rw [plusSigns_joined hends, hsign, List.countP_append, List.countP_append,
    List.countP_cons_of_neg (by simp [hoperator])]
  omega

/-- A plus sign is counted as one. -/
theorem positive (h : Accounted tokens nodes) (hplus : token.isDelimiter "+") :
    Accounted (token :: tokens) nodes := by
  have htoken := Token.isOperator_of_takes
    (Token.takes_of_isSign (show token.isSign by simp [Token.isSign, hplus]))
  unfold Accounted at h ⊢
  rw [List.countP_cons_of_pos htoken.1, plusSigns, hplus, htoken.2]
  simp only [Bool.and_self, if_true]
  omega

/-- A minus sign makes one operation. -/
theorem negative (h : Accounted tokens nodes) (hminus : token.isDelimiter "-")
    (hnode : node.isOperation) : Accounted (token :: tokens) (node :: nodes) := by
  have htoken := Token.isOperator_of_takes
    (Token.takes_of_isSign (show token.isSign by simp [Token.isSign, hminus]))
  have hplus : token.isDelimiter "+" = false :=
    Token.isDelimiter_of_ne hminus (by decide)
  unfold Accounted at h ⊢
  rw [List.countP_cons_of_pos htoken.1, List.countP_cons_of_pos hnode,
    plusSigns_cons_of_ne hplus, htoken.2]
  omega

/-- Parentheses make none. -/
theorem parenthesized {opening closing : Token} (h : Accounted tokens nodes)
    (hends : EndsOperand tokens) (hopens : opening.isDelimiter "(")
    (hcloses : closing.isDelimiter ")") :
    Accounted (opening :: (tokens ++ [closing])) nodes := by
  have hopening : opening.isOperator = false := by
    rw [Token.isOperator_of_isDelimiter hopens]
    decide
  have hclosing : closing.isOperator = false := by
    rw [Token.isOperator_of_isDelimiter hcloses]
    decide
  unfold Accounted at h ⊢
  rw [plusSigns_parenthesized hopens hends, h]
  simp [hopening, hclosing]

/-- A name before parentheses makes none, either. -/
theorem called {name : Token} (h : Accounted (token :: tokens) nodes)
    (hletter : name.category = .letter) (hopens : token.isDelimiter "(")
    (hnode : node.isOperation = false) :
    Accounted (name :: token :: tokens) (node :: nodes) := by
  have hword : name.category ≠ .delimiter := by simp [hletter]
  have hplus : token.isDelimiter "+" = false :=
    Token.isDelimiter_of_ne hopens (by decide)
  unfold Accounted at h ⊢
  rw [plusSigns_cons_of_ne hplus] at h
  rw [plusSigns_cons_of_ne (by simp [Token.isDelimiter, hword]),
    plusSigns_cons_of_ne hplus,
    List.countP_cons_of_neg (by simp [hnode]),
    List.countP_cons_of_neg (by simp [Token.isOperator_of_ne hword]), h]

end Accounted

mutual

/-- **Every operator makes one operation**, except for the plus signs. -/
theorem Derives.accounted {d : Dialect} {phrase : Phrase}
    {tokens : List Token} {formula : Formula}
    (h : Derives d phrase tokens formula) :
    Accounted tokens formula.subtrees := by
  match h with
  | .operand inner => exact inner.accounted
  | .toRight first denotes others =>
    rw [Tree.subtrees]
    exact first.accounted.infixed first.endsOperand
      (Token.isOperator_of_takes (Level.denotes_iff.mp denotes).1)
      others.accounted rfl
  | .toLeft _ others denotes last =>
    rw [Tree.subtrees]
    exact others.accounted.infixed others.endsOperand
      (Token.isOperator_of_takes (Level.denotes_iff.mp denotes).1)
      last.accounted rfl
  | .unsigned inner => exact inner.accounted
  | .plus positive inner => exact inner.accounted.positive positive
  | .minus negative inner =>
    rw [Tree.subtrees]
    exact inner.accounted.negative negative rfl
  | .group opens inner closes =>
    exact inner.accounted.parenthesized inner.endsOperand opens closes
  | .number digits _ =>
    rw [Tree.subtrees]
    exact .word (by simp [digits]) rfl
  | .name letters =>
    rw [Tree.subtrees]
    exact .word (by simp [letters]) rfl
  | .call letters opens _ inner _ closes =>
    rw [Tree.subtrees]
    exact (inner.accounted.parenthesized inner.endsOperand opens closes).called
      letters opens rfl

/-- The same for arguments. -/
theorem DerivesArguments.accounted {d : Dialect} {tokens : List Token}
    {arguments : List Formula} (h : DerivesArguments d tokens arguments) :
    Accounted tokens (Tree.subtreesAll arguments) := by
  match h with
  | .one inner =>
    rw [Tree.subtreesAll, Tree.subtreesAll, List.append_nil]
    exact inner.accounted
  | .more inner separates rest =>
    rw [Tree.subtreesAll]
    exact inner.accounted.separated inner.endsOperand separates rest.accounted

end

namespace Tree

variable {α β : Type}

/-- A replacement makes no operation. -/
theorem isOperation_map (f : α → β) (tree : Tree α) :
    (tree.map f).isOperation = tree.isOperation := by
  cases tree <;> rw [map] <;> rfl

/-- A binary operation after a replacement was one before. -/
theorem exists_binary_of_map {f : α → β} {tree : Tree α} {operator : Operator}
    {left right : Tree β} (h : tree.map f = .binary operator left right) :
    ∃ first second, tree = .binary operator first second := by
  cases tree with
  | binary other first second =>
    rw [map] at h
    obtain ⟨rfl, -, -⟩ := binary.inj h
    exact ⟨first, second, rfl⟩
  | _ =>
    rw [map] at h
    cases h

end Tree

/-- **Operators and operations agree.**  Whatever the tokens are, none of them
is reported as an operator that the table does not know.  If they compile, every
binary operation in the tree is the one that the table has under its symbol, and
one of the tokens is that symbol; and there are as many operations in the tree
as operators among the tokens that are no plus signs. -/
theorem Scope.compileTokens_operations (s : Scope) (d : Dialect)
    (tokens : List Token) :
    (∀ symbol position,
      (s.compileTokens d tokens).1 ≠ .error (.unknownOperator symbol position)) ∧
    ∀ tree after, s.compileTokens d tokens = (.ok tree, after) →
      (∀ operator left right, .binary operator left right ∈ tree.subtrees →
        Operator.find? operator.symbol = some operator ∧
          ∃ token ∈ tokens, token.isDelimiter operator.symbol) ∧
      tree.subtrees.countP Tree.isOperation + plusSigns true tokens =
        tokens.countP Token.isOperator := by
  refine ⟨?_, ?_⟩
  · intro symbol position hresult
    rw [compileTokens_eq_error_iff] at hresult
    obtain ⟨a, -, hraises⟩ := hresult
    cases hraises
  · intro tree after hcompile
    obtain ⟨formula, hparse, -, rfl⟩ := parse_of_compileTokens hcompile
    have hderives := (d.parse_eq_ok_iff tokens formula).mp hparse
    rw [bind, Tree.subtrees_map]
    constructor
    · intro operator left right hmem
      obtain ⟨node, hnode, hmap⟩ := List.mem_map.mp hmem
      obtain ⟨first, second, rfl⟩ := Tree.exists_binary_of_map hmap
      cases hderives.yields _ hnode with
      | binary among denotes =>
        exact ⟨Operator.find?_symbol denotes.registered, _, among,
          denotes.delimiter⟩
    · rw [List.countP_map, show Tree.isOperation ∘ Tree.map _ = Tree.isOperation from
        funext (Tree.isOperation_map _)]
      exact hderives.accounted

end Formulary
