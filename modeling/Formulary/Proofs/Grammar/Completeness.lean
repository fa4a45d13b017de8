import Formulary.Proofs.Grammar.Derivation
import Formulary.Proofs.Grammar.Success

/-!
# What is derived is read

The reader looks one token ahead, so a derived phrase is read whatever comes
after it, as long as the next token does not make the phrase longer.  A chain
is made longer by an operator of its level or a tighter one, and a name at the
end of a phrase by an opening parenthesis.

A chain that groups to the left is met in the middle of a longer one, before an
operator of its own level.  There the reader does not stop, and `CompleteAt`
says instead that it goes on with what it has read of the chain.

* `Follows` is the condition on the next token;
* `Derives.read_eq` is the statement for every phrase;
* `Derives.parse_eq` is the one for whole token lists.
-/

namespace Formulary

variable {d : Dialect} {level : Level} {phrase : Phrase}
  {front rest : List Token} {formula : Formula}

/-- The tokens that come after those of a phrase do not make it longer. -/
structure Follows (phrase : Phrase) (front rest : List Token) : Prop where
  ends_chain : ∀ token ∈ rest.head?, ∀ level : Level,
    level.rank < phrase.rank → level.takes token = false
  ends_name : ∀ token ∈ rest.head?, token.isDelimiter "(" →
    ∀ last ∈ front.getLast?, last.category ≠ .letter

namespace Follows

/-- The end of the tokens follows everything. -/
theorem nil (phrase : Phrase) (front : List Token) : Follows phrase front [] where
  ends_chain := by simp
  ends_name := by simp

/-- What follows a phrase follows a tighter one at its end. -/
theorem tighter {other : Phrase} (h : Follows phrase front rest)
    (hrank : other.rank ≤ phrase.rank) : Follows other front rest where
  ends_chain token htoken level hlevel :=
    h.ends_chain token htoken level (Nat.lt_of_lt_of_le hlevel hrank)
  ends_name := h.ends_name

/-- What follows a phrase follows the part of it after a token. -/
theorem after {before back : List Token} {token : Token}
    (h : Follows phrase (before ++ token :: back) rest) :
    Follows phrase back rest where
  ends_chain := h.ends_chain
  ends_name next hnext hopens last hlast := by
    refine h.ends_name next hnext hopens last ?_
    rw [Option.mem_def] at hlast ⊢
    rw [List.getLast?_append, List.getLast?_cons, hlast]
    simp

/-- What follows a phrase follows the part of it after its first token. -/
theorem tail {token : Token} (h : Follows phrase (token :: front) rest) :
    Follows phrase front rest := by
  rw [← List.nil_append (token :: front)] at h
  exact h.after

/-- An operator of the level follows the operands of the level. -/
theorem of_takes {token : Token} (h : level.takes token) :
    Follows (.operandOf level) front (token :: rest) where
  ends_chain next hnext other hother := by
    obtain rfl : token = next := by simpa using hnext
    rw [Bool.eq_false_iff]
    intro htakes
    rw [Level.eq_of_takes htakes h, Phrase.rank_operandOf] at hother
    exact Nat.lt_irrefl _ hother
  ends_name next hnext hopens := by
    obtain rfl : token = next := by simpa using hnext
    rw [Level.not_isDelimiter_of_takes h (by simp)] at hopens
    cases hopens

/-- A closing parenthesis and a separator follow every phrase. -/
theorem of_isDelimiter {token : Token} {symbol : String}
    (h : token.isDelimiter symbol) (hsymbol : symbol ∈ [")", argumentSeparator]) :
    Follows phrase front (token :: rest) where
  ends_chain next hnext level _ := by
    obtain rfl : token = next := by simpa using hnext
    rw [Bool.eq_false_iff]
    intro htakes
    rw [Level.not_isDelimiter_of_takes htakes (List.mem_cons_of_mem _ hsymbol)] at h
    cases h
  ends_name next hnext hopens := by
    obtain rfl : token = next := by simpa using hnext
    rw [Token.isDelimiter_of_ne h fun h => absurd (h ▸ hsymbol) (by decide)]
      at hopens
    cases hopens

/-- Nothing goes on in a chain before what follows it. -/
theorem further_eq (h : Follows (.chain level) front rest) (left : Formula) :
    d.further level left rest = ⟨.ok left, rest, []⟩ :=
  Dialect.further_of_not_takes left fun token htoken =>
    h.ends_chain token htoken level (Nat.lt_succ_self _)

end Follows

/-- The token can begin a phrase. -/
def Token.BeginsPhrase (token : Token) : Prop :=
  token.category ≠ .delimiter ∨ token.text ∈ ["(", "+", "-"]

/-- A phrase has a first token, and it is one that can begin a phrase. -/
theorem Derives.begins {phrase : Phrase} {tokens : List Token}
    {formula : Formula} (h : Derives d phrase tokens formula) :
    ∃ token others, tokens = token :: others ∧ token.BeginsPhrase := by
  match h with
  | .operand inner => exact inner.begins
  | .toRight first _ _ =>
    obtain ⟨token, others, rfl, hbegins⟩ := first.begins
    exact ⟨token, _, rfl, hbegins⟩
  | .toLeft _ others _ _ =>
    obtain ⟨token, others, rfl, hbegins⟩ := others.begins
    exact ⟨token, _, rfl, hbegins⟩
  | .unsigned inner => exact inner.begins
  | .plus positive _ =>
    exact ⟨_, _, rfl, Or.inr (by simp [(Token.isDelimiter_iff.mp positive).2])⟩
  | .minus negative _ =>
    exact ⟨_, _, rfl, Or.inr (by simp [(Token.isDelimiter_iff.mp negative).2])⟩
  | .group opens _ _ =>
    exact ⟨_, _, rfl, Or.inr (by simp [(Token.isDelimiter_iff.mp opens).2])⟩
  | .number digits _ => exact ⟨_, _, rfl, Or.inl (by simp [digits])⟩
  | .name letters => exact ⟨_, _, rfl, Or.inl (by simp [letters])⟩
  | .call letters _ _ _ _ _ => exact ⟨_, _, rfl, Or.inl (by simp [letters])⟩

/-- A token that begins a phrase ends no argument. -/
theorem Token.BeginsPhrase.not_isDelimiter {token : Token}
    (h : token.BeginsPhrase) {symbol : String}
    (hsymbol : symbol ∈ [")", argumentSeparator]) :
    token.isDelimiter symbol = false := by
  rw [Bool.eq_false_iff, ne_eq, Token.isDelimiter_iff]
  intro hdelimiter
  obtain ⟨hcategory, rfl⟩ := hdelimiter
  rcases h with h | h
  · exact h hcategory
  · have hdisjoint : ∀ symbol ∈ ["(", "+", "-"],
        symbol ∉ [")", argumentSeparator] := by decide
    exact hdisjoint _ h hsymbol

/-- Reading the phrase goes on after its tokens, and for an atom or a signed
atom it ends there. -/
def CompleteAt (d : Dialect) : Phrase → List Token → Formula → Prop
  | .chain level, front, formula => ∀ rest,
      Follows (.operandOf level) front rest →
      (level = .relational → Follows (.chain level) front rest) →
      d.chain level (front ++ rest) =
        (d.further level formula rest).mentioning formula.leaves
  | phrase, front, formula => ∀ rest, Follows phrase front rest →
      d.read phrase (front ++ rest) = ⟨.ok formula, rest, formula.leaves⟩

/-- What goes on after a phrase ends before tokens that follow it. -/
theorem CompleteAt.read_eq (h : CompleteAt d phrase front formula)
    (hrest : Follows phrase front rest) :
    d.read phrase (front ++ rest) = ⟨.ok formula, rest, formula.leaves⟩ := by
  cases phrase with
  | chain level =>
    have htight := hrest.tighter (Nat.le_of_lt (Phrase.rank_operandOf_lt level))
    have hchain := h rest htight fun _ => hrest
    rw [hrest.further_eq] at hchain
    simpa [Dialect.read] using hchain
  | signed => exact h rest hrest
  | atom => exact h rest hrest

/-- The same for the operands of a level. -/
theorem CompleteAt.operand_eq (h : CompleteAt d (.operandOf level) front formula)
    (hrest : Follows (.operandOf level) front rest) :
    d.operand level (front ++ rest) = ⟨.ok formula, rest, formula.leaves⟩ := by
  rw [← Dialect.read_operandOf]
  exact h.read_eq hrest

private theorem completeAt_toRight {before after : List Token} {token : Token}
    {operator : Operator} {left right : Formula}
    (hfirst : CompleteAt d (.operandOf .relational) before left)
    (hdenotes : Level.relational.Denotes token operator)
    (hothers : CompleteAt d (.chain .relational) after right) :
    CompleteAt d (.chain .relational) (before ++ token :: after)
      (.binary operator left right) := by
  intro rest _ hrest
  have hafter := (hrest rfl).after
  have htakes := (Level.denotes_iff.mp hdenotes).1
  have hleft : d.operand .relational (before ++ token :: (after ++ rest)) =
      ⟨.ok left, token :: (after ++ rest), left.leaves⟩ :=
    hfirst.operand_eq (.of_takes htakes)
  have hright : d.rightOperand .relational (after ++ rest) =
      ⟨.ok right, rest, right.leaves⟩ := by
    rw [Dialect.rightOperand_eq]
    exact hothers.read_eq hafter
  rw [List.append_assoc, List.cons_append, Dialect.chain_eq, hleft,
    Outcome.ok_andThen, Dialect.further_of_denotes hdenotes, hright]
  simp [Tree.leaves]

private theorem completeAt_toLeft {before after : List Token} {token : Token}
    {operator : Operator} {left right : Formula} (hlevel : level ≠ .relational)
    (hothers : CompleteAt d (.chain level) before left)
    (hdenotes : level.Denotes token operator)
    (hlast : CompleteAt d (.operandOf level) after right) :
    CompleteAt d (.chain level) (before ++ token :: after)
      (.binary operator left right) := by
  intro rest hrest _
  have htakes := (Level.denotes_iff.mp hdenotes).1
  have hleft : d.chain level (before ++ token :: (after ++ rest)) =
      (d.further level left (token :: (after ++ rest))).mentioning left.leaves :=
    hothers _ (.of_takes htakes) fun h => absurd h hlevel
  have hright : d.rightOperand level (after ++ rest) =
      ⟨.ok right, rest, right.leaves⟩ := by
    rw [← hlast.operand_eq hrest.after, Dialect.rightOperand_eq]
    cases level <;> first | rfl | exact absurd rfl hlevel
  rw [List.append_assoc, List.cons_append, hleft,
    Dialect.further_of_denotes hdenotes, hright]
  simp [Tree.leaves]

/-- An atom has no sign before it. -/
private theorem completeAt_unsigned (h : CompleteAt d .atom front formula) :
    CompleteAt d .signed front formula := by
  intro rest hrest
  have hatom : d.atom (front ++ rest) = ⟨.ok formula, rest, formula.leaves⟩ :=
    h rest (hrest.tighter (Nat.zero_le _))
  show d.signed (front ++ rest) = _
  cases htokens : front ++ rest with
  | nil => rw [Dialect.signed_nil, ← htokens, hatom]
  | cons sign others =>
    rw [htokens] at hatom
    have hnone : ∀ symbol ∈ ["-", "+"], sign.isDelimiter symbol = false := by
      intro symbol hsymbol
      rw [Bool.eq_false_iff]
      intro hsign
      have hopens : sign.isDelimiter "(" = false :=
        Token.isDelimiter_of_ne hsign fun h => absurd (h ▸ hsymbol) (by decide)
      have hcategory := (Token.isDelimiter_iff.mp hsign).1
      simp [Dialect.atom_cons, hopens, hcategory] at hatom
    rw [Dialect.signed_cons, hnone "-" (by simp), hnone "+" (by simp)]
    simpa using hatom

private theorem completeAt_plus {sign : Token} (hplus : sign.isDelimiter "+")
    (h : CompleteAt d .atom front formula) :
    CompleteAt d .signed (sign :: front) formula := by
  intro rest hrest
  have hatom : d.atom (front ++ rest) = ⟨.ok formula, rest, formula.leaves⟩ :=
    h rest (hrest.tail.tighter (Nat.zero_le _))
  have hminus : sign.isDelimiter "-" = false :=
    Token.isDelimiter_of_ne hplus (by decide)
  show d.signed (sign :: (front ++ rest)) = _
  rw [Dialect.signed_cons, hminus, hplus, hatom]
  rfl

private theorem completeAt_minus {sign : Token} (hminus : sign.isDelimiter "-")
    (h : CompleteAt d .atom front formula) :
    CompleteAt d .signed (sign :: front) (.negate formula) := by
  intro rest hrest
  have hatom : d.atom (front ++ rest) = ⟨.ok formula, rest, formula.leaves⟩ :=
    h rest (hrest.tail.tighter (Nat.zero_le _))
  show d.signed (sign :: (front ++ rest)) = _
  rw [Dialect.signed_cons, hminus, hatom]
  simp [Tree.leaves]

private theorem completeAt_group {opening closing : Token}
    (hopens : opening.isDelimiter "(")
    (h : CompleteAt d (.chain .relational) front formula)
    (hcloses : closing.isDelimiter ")") :
    CompleteAt d .atom (opening :: (front ++ [closing])) formula := by
  intro rest _
  have hchain : d.chain .relational (front ++ closing :: rest) =
      ⟨.ok formula, closing :: rest, formula.leaves⟩ :=
    h.read_eq (.of_isDelimiter hcloses (by simp))
  show d.atom (opening :: (front ++ [closing] ++ rest)) = _
  rw [List.append_assoc, List.singleton_append, Dialect.atom_cons,
    if_pos hopens, hchain, Outcome.ok_andThen, Dialect.closing_cons,
    if_pos hcloses]
  simp

private theorem completeAt_number {token : Token} {value : Float}
    (hnumber : token.category = .number)
    (hvalue : d.convention.readNumber? token.text = some value) :
    CompleteAt d .atom [token] (.constant value) := by
  intro rest _
  show d.atom (token :: rest) = _
  have hopens : token.isDelimiter "(" = false := by
    simp [Token.isDelimiter, hnumber]
  simp [Dialect.atom_cons, hopens, hnumber, hvalue, Tree.leaves]

private theorem completeAt_name {token : Token}
    (hletter : token.category = .letter) :
    CompleteAt d .atom [token] (.var token.text) := by
  intro rest hrest
  have hopens : token.isDelimiter "(" = false := by
    simp [Token.isDelimiter, hletter]
  have hnamed : d.named token rest =
      ⟨.ok (.var token.text), rest, [token.text]⟩ := by
    cases rest with
    | nil => exact Dialect.named_nil d token
    | cons next others =>
      have hnext : next.isDelimiter "(" = false := by
        rw [Bool.eq_false_iff]
        intro hnext
        exact hrest.ends_name next rfl hnext token rfl hletter
      rw [Dialect.named_cons, hnext]
      rfl
  show d.atom (token :: rest) = _
  rw [Dialect.atom_cons, hopens]
  simp [hletter, hnamed, Tree.leaves]

private theorem completeAt_call {name opening closing : Token}
    {function : Callable} {arguments : List Formula}
    (hletter : name.category = .letter) (hopens : opening.isDelimiter "(")
    (hfind : d.functions.find? name.text = some function)
    (hbegins : ∃ token others, front = token :: others ∧ token.BeginsPhrase)
    (h : ∀ rest, d.argumentList name (front ++ closing :: rest) =
      ⟨.ok arguments, rest, Tree.leavesAll arguments⟩)
    (harity : arguments.length = function.arity) :
    CompleteAt d .atom (name :: opening :: (front ++ [closing]))
      (.call name.text function arguments) := by
  intro rest _
  have hname : name.isDelimiter "(" = false := by
    simp [Token.isDelimiter, hletter]
  have harguments : d.arguments name (front ++ closing :: rest) =
      ⟨.ok arguments, rest, Tree.leavesAll arguments⟩ := by
    obtain ⟨token, others, rfl, hbegins⟩ := hbegins
    rw [← h rest, List.cons_append, Dialect.arguments_cons,
      hbegins.not_isDelimiter (by simp)]
    rfl
  show d.atom (name :: opening :: (front ++ [closing] ++ rest)) = _
  rw [List.append_assoc, List.singleton_append, Dialect.atom_cons, hname]
  simp [hletter, Dialect.named_cons, hopens, hfind, harguments,
    Dialect.calling_eq, harity, Tree.leaves]

/-- A list of arguments begins with an argument. -/
theorem DerivesArguments.begins {tokens : List Token} {arguments : List Formula}
    (h : DerivesArguments d tokens arguments) :
    ∃ token others, tokens = token :: others ∧ token.BeginsPhrase := by
  cases h with
  | one inner => exact inner.begins
  | more inner _ _ =>
    obtain ⟨token, others, rfl, hbegins⟩ := inner.begins
    exact ⟨token, _, rfl, hbegins⟩

/-- A list of arguments is read as its first argument and what follows it. -/
private theorem argumentList_of_derives {name : Token}
    (hderives : Derives d (.chain .relational) front formula)
    (h : CompleteAt d (.chain .relational) front formula)
    (hrest : Follows (.chain .relational) front rest) :
    d.argumentList name (front ++ rest) =
      (d.separated name formula rest).mentioning formula.leaves := by
  have hchain : d.chain .relational (front ++ rest) =
      ⟨.ok formula, rest, formula.leaves⟩ := h.read_eq hrest
  obtain ⟨token, others, rfl, hbegins⟩ := hderives.begins
  rw [List.cons_append] at hchain ⊢
  rw [Dialect.argumentList_cons, hbegins.not_isDelimiter (by simp),
    hbegins.not_isDelimiter (by simp), hchain]
  rfl

mutual

/-- **Completeness.**  A derived phrase is read from its tokens, whatever comes
after them without making it longer. -/
theorem Derives.completeAt {phrase : Phrase} {front : List Token}
    {formula : Formula} (h : Derives d phrase front formula) :
    CompleteAt d phrase front formula := by
  match h with
  | .operand inner =>
    intro rest hrest _
    rw [Dialect.chain_eq, inner.completeAt.operand_eq hrest]
    rfl
  | .toRight first denotes others =>
    exact completeAt_toRight first.completeAt denotes others.completeAt
  | .toLeft tight others denotes last =>
    exact completeAt_toLeft tight others.completeAt denotes last.completeAt
  | .unsigned inner => exact completeAt_unsigned inner.completeAt
  | .plus positive inner => exact completeAt_plus positive inner.completeAt
  | .minus negative inner => exact completeAt_minus negative inner.completeAt
  | .group opens inner closes =>
    exact completeAt_group opens inner.completeAt closes
  | .number digits reads => exact completeAt_number digits reads
  | .name letters => exact completeAt_name letters
  | .call letters opens registered inner arity closes =>
    exact completeAt_call letters opens registered inner.begins
      (fun rest => inner.argumentList_eq closes) arity

/-- Derived arguments are read up to their closing parenthesis. -/
theorem DerivesArguments.argumentList_eq {front : List Token}
    {arguments : List Formula} (h : DerivesArguments d front arguments)
    {name closing : Token} {rest : List Token}
    (hcloses : closing.isDelimiter ")") :
    d.argumentList name (front ++ closing :: rest) =
      ⟨.ok arguments, rest, Tree.leavesAll arguments⟩ := by
  have hseparator : closing.isDelimiter argumentSeparator = false :=
    Token.isDelimiter_of_ne hcloses (by decide)
  match h with
  | .one inner =>
    rw [argumentList_of_derives inner inner.completeAt
      (.of_isDelimiter hcloses (by simp)), Dialect.separated_cons, hseparator,
      hcloses]
    simp [Tree.leavesAll]
  | .more inner separates others =>
    rw [List.append_assoc, List.cons_append,
      argumentList_of_derives inner inner.completeAt
        (.of_isDelimiter separates (by simp)), Dialect.separated_cons, separates,
      if_pos rfl, others.argumentList_eq hcloses]
    simp [Tree.leavesAll]

end

/-- A derived phrase is read from its tokens, whatever comes after them without
making it longer. -/
theorem Derives.read_eq (h : Derives d phrase front formula)
    (hrest : Follows phrase front rest) :
    d.read phrase (front ++ rest) = ⟨.ok formula, rest, formula.leaves⟩ :=
  h.completeAt.read_eq hrest

/-- A token list that derives a formula is read as this formula. -/
theorem Derives.parse_eq {tokens : List Token}
    (h : Derives d (.chain .relational) tokens formula) :
    d.parse tokens = ⟨.ok formula, [], formula.leaves⟩ := by
  have hchain : d.chain .relational tokens =
      ⟨.ok formula, [], formula.leaves⟩ := by
    simpa [Dialect.read] using h.read_eq (.nil _ _)
  obtain ⟨token, others, rfl, -⟩ := h.begins
  rw [Dialect.parse, Dialect.expression, hchain]
  simp

end Formulary
