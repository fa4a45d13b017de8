import Formulary.Proofs.Grammar.Exhaustion
import Formulary.Proofs.Tree.Relinking

/-!
# Tables that a token list does not tell apart

The reader asks a function table for names that stand before an opening
parenthesis, and of what it is given it looks at the number of arguments alone.
Two tables that give the same answers to these questions are therefore read with
alike: the same tokens are consumed, the same names are mentioned and the same
errors are raised, down to their texts and positions.  A formula that is read
with the one table is the formula that is read with the other, but for the
functions that its calls hold.

The agreement is asked of the tokens that are left, so what carries the argument
is that each rule leaves a suffix of its tokens.

* `FunctionTable.AgreesOn` are the questions that a token list asks;
* `Dialect.read_relink` is the statement for every phrase;
* `Dialect.parse_relink` is the one for whole token lists.
-/

namespace Formulary

/-- Every name that stands before an opening parenthesis is registered in both
tables, with as many arguments, or in neither. -/
def FunctionTable.AgreesOn (table other : FunctionTable) (tokens : List Token) :
    Prop :=
  ∀ name opening, [name, opening] <:+: tokens → name.category = .letter →
    opening.isDelimiter "(" →
    (table.find? name.text).map Callable.arity =
      (other.find? name.text).map Callable.arity

namespace FunctionTable.AgreesOn

variable {table other : FunctionTable} {token : Token} {tokens rest : List Token}

/-- Fewer tokens ask fewer questions. -/
theorem of_suffix (h : table.AgreesOn other tokens) (hsuffix : rest <:+ tokens) :
    table.AgreesOn other rest :=
  fun name opening hpair => h name opening (hpair.trans hsuffix.isInfix)

/-- The questions after the first token. -/
theorem tail (h : table.AgreesOn other (token :: rest)) :
    table.AgreesOn other rest :=
  h.of_suffix (List.suffix_cons token rest)

/-- The questions after a phrase. -/
theorem after_read {d : Dialect} {phrase : Phrase} {formula : Formula}
    {mentions : List String} (h : table.AgreesOn other tokens)
    (hread : d.read phrase tokens = ⟨.ok formula, rest, mentions⟩) :
    table.AgreesOn other rest :=
  h.of_suffix (Dialect.passes_of_read hread).suffix

/-- The question that a call asks. -/
theorem head {name opening : Token}
    (h : table.AgreesOn other (name :: opening :: rest))
    (hname : name.category = .letter) (hopens : opening.isDelimiter "(") :
    (table.find? name.text).map Callable.arity =
      (other.find? name.text).map Callable.arity :=
  h name opening ⟨[], rest, rfl⟩ hname hopens

end FunctionTable.AgreesOn

namespace Outcome

variable {α β γ : Type}

/-- Two changes of the value are one. -/
theorem map_map (f : α → β) (g : β → γ) (o : Outcome α) :
    (o.map f).map g = o.map fun value => g (f value) := by
  obtain ⟨result, rest, mentions⟩ := o
  cases result <;> rfl

/-- A sequence whose first value is changed has a changed value if what goes on
after a success has. -/
theorem map_andThen_eq {f : α → β} {g : γ → γ} {o : Outcome α}
    {next : α → List Token → Outcome γ} {next' : β → List Token → Outcome γ}
    (h : ∀ value rest mentions, o = ⟨.ok value, rest, mentions⟩ →
      next' (f value) rest = (next value rest).map g) :
    (o.map f).andThen next' = (o.andThen next).map g := by
  obtain ⟨result, rest, mentions⟩ := o
  cases result with
  | error error => rfl
  | ok value =>
    rw [map_ok, ok_andThen, ok_andThen, h value rest mentions rfl]
    rfl

end Outcome

namespace Dialect

variable {d e : Dialect} {level : Level} {tokens : List Token}

/-- Where the tables agree, the phrase is read alike but for the functions. -/
def Relinks (d e : Dialect) (phrase : Phrase) (tokens : List Token) : Prop :=
  d.functions.AgreesOn e.functions tokens →
    e.read phrase tokens = (d.read phrase tokens).map (Tree.relink e.functions)

/-- Chains go on alike if their operands are read alike. -/
private theorem further_relink {bound : Nat}
    (hoperand : ∀ fewer : List Token, fewer.length < bound →
      Relinks d e (.rightOperandOf level) fewer)
    (left : Formula) (hbound : tokens.length ≤ bound)
    (hagree : d.functions.AgreesOn e.functions tokens) :
    e.further level (left.relink e.functions) tokens =
      (d.further level left tokens).map (Tree.relink e.functions) := by
  induction hn : tokens.length using Nat.strongRecOn
    generalizing tokens left with
  | ind n ih =>
    cases tokens with
    | nil =>
      rw [further_nil, further_nil]
      rfl
    | cons token rest =>
      rw [List.length_cons] at hbound hn
      rw [further_cons, further_cons]
      split
      · have hright := hoperand rest (by omega) hagree.tail
        rw [read_rightOperandOf, read_rightOperandOf] at hright
        rw [hright]
        refine Outcome.map_andThen_eq ?_
        intro right between mentions hread
        have hshorter := rightOperand_shorter hread
        rw [← read_rightOperandOf] at hread
        cases Operator.find? token.text with
        | some operator =>
          have hmore := ih between.length (by omega)
            (.binary operator left right) (by omega)
            (hagree.tail.after_read hread) rfl
          rwa [Tree.relink] at hmore
        | none => rfl
      · rfl

/-- Lists of arguments are read alike if chains are. -/
private theorem argumentList_relink {name : Token} {bound : Nat}
    (hchain : ∀ fewer : List Token, fewer.length < bound →
      Relinks d e (.chain .relational) fewer)
    (hbound : tokens.length < bound)
    (hagree : d.functions.AgreesOn e.functions tokens) :
    e.argumentList name tokens =
      (d.argumentList name tokens).map (Tree.relinkAll e.functions) := by
  induction hn : tokens.length using Nat.strongRecOn generalizing tokens with
  | ind n ih =>
    cases tokens with
    | nil =>
      rw [argumentList_nil, argumentList_nil]
      rfl
    | cons head tail =>
      rw [argumentList_cons, argumentList_cons]
      split
      · rfl
      have hfirst : e.chain .relational (head :: tail) =
          (d.chain .relational (head :: tail)).map (Tree.relink e.functions) :=
        hchain (head :: tail) hbound hagree
      rw [hfirst]
      refine Outcome.map_andThen_eq ?_
      intro first rest mentions hread
      replace hread : d.read (.chain .relational) (head :: tail) =
          ⟨.ok first, rest, mentions⟩ := hread
      have hshorter := read_shorter hread
      have hrest := hagree.after_read hread
      cases rest with
      | nil =>
        rw [separated_nil, separated_nil]
        rfl
      | cons token others =>
        simp only [List.length_cons] at hshorter hn hbound
        rw [separated_cons, separated_cons]
        split
        · have hmore := ih others.length (by omega) (by omega) hrest.tail rfl
          rw [hmore, Outcome.map_map, Outcome.map_map]
          simp only [Tree.relinkAll]
        · split
          · rfl
          · rfl

/-- The arguments of a call are read alike if chains are. -/
private theorem arguments_relink {name : Token} {bound : Nat}
    (hchain : ∀ fewer : List Token, fewer.length < bound →
      Relinks d e (.chain .relational) fewer)
    (hbound : tokens.length < bound)
    (hagree : d.functions.AgreesOn e.functions tokens) :
    e.arguments name tokens =
      (d.arguments name tokens).map (Tree.relinkAll e.functions) := by
  have hlist : e.argumentList name tokens =
      (d.argumentList name tokens).map (Tree.relinkAll e.functions) :=
    argumentList_relink hchain hbound hagree
  cases tokens with
  | nil =>
    rw [arguments_nil, arguments_nil]
    exact hlist
  | cons head tail =>
    rw [arguments_cons, arguments_cons]
    split
    · rfl
    · exact hlist

/-- A name stands for the same variable, or calls a function that takes as many
arguments. -/
private theorem named_relink {name : Token} {bound : Nat}
    (hname : name.category = .letter)
    (hchain : ∀ fewer : List Token, fewer.length < bound →
      Relinks d e (.chain .relational) fewer)
    (hbound : tokens.length ≤ bound)
    (hagree : d.functions.AgreesOn e.functions (name :: tokens)) :
    e.named name tokens =
      (d.named name tokens).map (Tree.relink e.functions) := by
  cases tokens with
  | nil =>
    rw [named_nil, named_nil]
    rfl
  | cons token rest =>
    rw [named_cons, named_cons]
    split
    · next hopens =>
      have harity := hagree.head hname hopens
      cases hfunction : d.functions.find? name.text with
      | none =>
        rw [hfunction, Option.map_none, eq_comm, Option.map_eq_none_iff] at harity
        simp only [harity]
        rfl
      | some function =>
        rw [hfunction, Option.map_some, eq_comm, Option.map_eq_some_iff] at harity
        obtain ⟨function', hfunction', harity⟩ := harity
        rw [List.length_cons] at hbound
        simp only [hfunction',
          arguments_relink hchain (by omega) hagree.tail.tail]
        refine Outcome.map_andThen_eq ?_
        intro arguments after mentions _
        rw [calling_eq, calling_eq, Tree.length_relinkAll, harity]
        split
        · simp only [Outcome.map_ok, Tree.relink, hfunction', Option.getD_some]
        · rfl
    · rfl

/-- An atom is read alike if the chains in it are. -/
private theorem atom_relink (hconvention : d.convention = e.convention)
    (hchain : ∀ fewer : List Token, fewer.length < tokens.length →
      Relinks d e (.chain .relational) fewer) : Relinks d e .atom tokens := by
  intro hagree
  show e.atom tokens = (d.atom tokens).map (Tree.relink e.functions)
  cases tokens with
  | nil =>
    rw [atom_nil, atom_nil]
    rfl
  | cons token rest =>
    rw [atom_cons, atom_cons, hconvention]
    split
    · have hinner : e.chain .relational rest =
          (d.chain .relational rest).map (Tree.relink e.functions) :=
        hchain rest (Nat.lt_succ_self _) hagree.tail
      rw [hinner]
      refine Outcome.map_andThen_eq ?_
      intro inner after mentions _
      cases after with
      | nil => rfl
      | cons next others =>
        rw [closing_cons, closing_cons]
        split <;> rfl
    cases hcategory : token.category with
    | number => cases e.convention.readNumber? token.text <;> rfl
    | letter => exact named_relink hcategory hchain (Nat.le_succ _) hagree
    | delimiter | whitespace | undefined => rfl

/-- A signed atom is read alike if atoms are. -/
private theorem signed_relink
    (hfewer : ∀ fewer : List Token, fewer.length < tokens.length →
      Relinks d e .atom fewer)
    (hatom : Relinks d e .atom tokens) : Relinks d e .signed tokens := by
  intro hagree
  show e.signed tokens = (d.signed tokens).map (Tree.relink e.functions)
  have hbare : e.atom tokens = (d.atom tokens).map (Tree.relink e.functions) :=
    hatom hagree
  cases tokens with
  | nil =>
    rw [signed_nil, signed_nil]
    exact hbare
  | cons token rest =>
    have hrest : e.atom rest = (d.atom rest).map (Tree.relink e.functions) :=
      hfewer rest (Nat.lt_succ_self _) hagree.tail
    rw [signed_cons, signed_cons]
    split
    · rw [hrest, Outcome.map_map, Outcome.map_map]
      simp only [Tree.relink]
    · split
      · exact hrest
      · exact hbare

/-- A chain is read alike if its operands are. -/
private theorem chain_relink
    (hfewer : ∀ fewer : List Token, fewer.length < tokens.length →
      Relinks d e (.rightOperandOf level) fewer)
    (hoperand : Relinks d e (.operandOf level) tokens) :
    Relinks d e (.chain level) tokens := by
  intro hagree
  show e.chain level tokens =
    (d.chain level tokens).map (Tree.relink e.functions)
  have hfirst := hoperand hagree
  rw [read_operandOf, read_operandOf] at hfirst
  rw [chain_eq, chain_eq, hfirst]
  refine Outcome.map_andThen_eq ?_
  intro left rest mentions hread
  have hshorter := operand_shorter hread
  rw [← read_operandOf] at hread
  exact further_relink hfewer left (by omega) (hagree.after_read hread)

/-- **Phrases are read alike** with tables that agree on the tokens, but for the
functions that are called. -/
theorem read_relink (hconvention : d.convention = e.convention) (phrase : Phrase)
    (tokens : List Token) : Relinks d e phrase tokens := by
  induction phrase, tokens using Phrase.induction with
  | step phrase tokens hfewer htighter =>
    cases phrase with
    | chain level =>
      exact chain_relink (fun fewer => hfewer _ fewer)
        (htighter _ (Phrase.rank_operandOf_lt level))
    | signed =>
      exact signed_relink (fun fewer => hfewer _ fewer)
        (htighter .atom (by decide))
    | atom => exact atom_relink hconvention fun fewer => hfewer _ fewer

/-- **Token lists are read alike** with tables that agree on them: with the same
error, or to formulas that differ in the functions that are called. -/
theorem parse_relink (hconvention : d.convention = e.convention)
    (hagree : d.functions.AgreesOn e.functions tokens) :
    e.parse tokens = (d.parse tokens).map (Tree.relink e.functions) := by
  have hwhole : e.chain .relational tokens =
      (d.chain .relational tokens).map (Tree.relink e.functions) :=
    read_relink hconvention (.chain .relational) tokens hagree
  cases tokens with
  | nil => rfl
  | cons head tail =>
    rw [parse, parse, expression, expression, hwhole]
    refine Outcome.map_andThen_eq ?_
    intro formula rest mentions _
    cases rest <;> rfl

end Dialect

end Formulary
