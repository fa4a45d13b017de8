import Formulary.Proofs.Grammar.Application
import Mathlib.Data.List.Forall2

/-!
# Token lists that are read alike

The grammar asks little of a token: which of the symbols it is that formulas are
written with, the text of a name, and the number that a literal writes.  Two
token lists that give the same answers, token by token, are therefore read in
the same way, also where the positions differ, the literals are written in
different conventions, or a delimiter that is no symbol is another one.

The reader then consumes tokens at the same rate and mentions the same names,
and in the end both lists are the same formula, or both are rejected for the
same cause.

* `Token.Alike` are the answers;
* `CompileError.cause` is what two rejections have in common;
* `Dialect.read_alike` is the statement for every phrase;
* `Dialect.parse_alike` is the one for whole token lists.
-/

namespace Formulary

/-- What is wrong, without what it is wrong with. -/
inductive CompileError.Cause where
  | emptyExpression
  | invalidCharacter
  | unexpectedEndOfInput
  | unexpectedToken
  | unmatchedParentheses
  | unknownFunction
  | unknownOperator
  | argumentCountMismatch
  | missingArgument
  | numericFormat
deriving DecidableEq

/-- The cause of an error. -/
def CompileError.cause : CompileError → Cause
  | emptyExpression => .emptyExpression
  | invalidCharacter .. => .invalidCharacter
  | unexpectedEndOfInput => .unexpectedEndOfInput
  | unexpectedToken .. => .unexpectedToken
  | unmatchedParentheses .. => .unmatchedParentheses
  | unknownFunction .. => .unknownFunction
  | unknownOperator .. => .unknownOperator
  | argumentCountMismatch .. => .argumentCountMismatch
  | missingArgument .. => .missingArgument
  | numericFormat .. => .numericFormat

/-- A result in which only the cause of an error counts. -/
def byCause {α : Type} (result : Except CompileError α) :
    Except CompileError.Cause α :=
  result.mapError CompileError.cause

@[simp]
theorem byCause_ok {α : Type} (value : α) : byCause (.ok value) = .ok value := rfl

@[simp]
theorem byCause_error {α : Type} (error : CompileError) :
    byCause (.error error : Except CompileError α) = .error error.cause := rfl

/-- A success has no cause. -/
theorem byCause_eq_ok_iff {α : Type} {result : Except CompileError α} {value : α} :
    byCause result = .ok value ↔ result = .ok value := by
  cases result <;> simp

/-- The delimiters that formulas are written with. -/
def grammarSymbols : List String :=
  ["(", ")", argumentSeparator] ++ Operator.symbols

/-- The two tokens, each in its dialect, give the same answers. -/
structure Token.Alike (d e : Dialect) (a b : Token) : Prop where
  category : a.category = b.category
  delimiter : ∀ symbol ∈ grammarSymbols,
    a.isDelimiter symbol = b.isDelimiter symbol
  name : a.category = .letter → a.text = b.text
  number : a.category = .number →
    d.convention.readNumber? a.text = e.convention.readNumber? b.text

namespace Token.Alike

variable {d e : Dialect} {a b : Token}

/-- Only the text and the category of a token count. -/
theorem of_eq (hcategory : a.category = b.category) (htext : a.text = b.text) :
    a.Alike d d b where
  category := hcategory
  delimiter := fun symbol _ => by simp only [isDelimiter, hcategory, htext]
  name := fun _ => htext
  number := fun _ => by rw [htext]

/-- The same levels take both tokens. -/
theorem takes (h : a.Alike d e b) (level : Level) :
    level.takes a = level.takes b := by
  have hsymbols : ∀ symbol ∈ level.symbols,
      a.isDelimiter symbol = b.isDelimiter symbol := fun symbol hsymbol =>
    h.delimiter symbol (List.mem_append_right _ (level.symbols_subset hsymbol))
  rw [Bool.eq_iff_iff, Level.takes, Level.takes, List.any_eq_true,
    List.any_eq_true]
  constructor
  · rintro ⟨symbol, hsymbol, htakes⟩
    exact ⟨symbol, hsymbol, hsymbols symbol hsymbol ▸ htakes⟩
  · rintro ⟨symbol, hsymbol, htakes⟩
    exact ⟨symbol, hsymbol, (hsymbols symbol hsymbol).symm ▸ htakes⟩

/-- An operator is written in one way. -/
theorem text_of_takes (h : a.Alike d e b) {level : Level}
    (htakes : level.takes a) : a.text = b.text := by
  obtain ⟨hcategory, hsymbol⟩ := Level.takes_iff.mp htakes
  have hsame := h.delimiter a.text
    (List.mem_append_right _ (level.symbols_subset hsymbol))
  have hdelimiter : a.isDelimiter a.text :=
    Token.isDelimiter_iff.mpr ⟨hcategory, rfl⟩
  rw [hsame, Token.isDelimiter_iff] at hdelimiter
  exact hdelimiter.2.symm

end Token.Alike

/-- The two outcomes agree in everything but the tokens and what errors name. -/
structure Outcome.Alike (d e : Dialect) {α : Type} (o p : Outcome α) : Prop where
  result : byCause o.result = byCause p.result
  rest : List.Forall₂ (Token.Alike d e) o.rest p.rest
  mentions : o.mentions = p.mentions

namespace Outcome.Alike

variable {d e : Dialect} {α β : Type} {o p : Outcome α}

theorem ok {value : α} {rest rest' : List Token} {mentions : List String}
    (hrest : List.Forall₂ (Token.Alike d e) rest rest') :
    Alike d e ⟨.ok value, rest, mentions⟩ ⟨.ok value, rest', mentions⟩ :=
  ⟨rfl, hrest, rfl⟩

theorem failed {error error' : CompileError} {rest rest' : List Token}
    {mentions : List String} (h : error.cause = error'.cause)
    (hrest : List.Forall₂ (Token.Alike d e) rest rest') :
    Alike d e (⟨.error error, rest, mentions⟩ : Outcome α)
      ⟨.error error', rest', mentions⟩ :=
  ⟨congrArg Except.error h, hrest, rfl⟩

theorem mentioning (h : Alike d e o p) (names : List String) :
    Alike d e (o.mentioning names) (p.mentioning names) :=
  ⟨h.result, h.rest, congrArg (names ++ ·) h.mentions⟩

/-- Outcomes that are alike have the same value, or errors of the same cause. -/
theorem cases (h : Alike d e o p) :
    (∃ value, o.result = .ok value ∧ p.result = .ok value) ∨
      ∃ error error', o.result = .error error ∧ p.result = .error error' ∧
        error.cause = error'.cause := by
  have hresult := h.result
  cases ho : o.result with
  | ok value =>
    rw [ho] at hresult
    exact Or.inl ⟨value, rfl, byCause_eq_ok_iff.mp hresult.symm⟩
  | error error =>
    rw [ho] at hresult
    cases hp : p.result with
    | ok value =>
      rw [hp] at hresult
      cases hresult
    | error error' =>
      rw [hp] at hresult
      exact Or.inr ⟨error, error', rfl, rfl, Except.error.inj hresult⟩

/-- Sequences are alike if what goes on after a success is. -/
theorem andThen {next next' : α → List Token → Outcome β} (h : Alike d e o p)
    (hnext : ∀ value rest rest' mentions, o = ⟨.ok value, rest, mentions⟩ →
      List.Forall₂ (Token.Alike d e) rest rest' →
      Alike d e (next value rest) (next' value rest')) :
    Alike d e (o.andThen next) (p.andThen next') := by
  have hcases := h.cases
  obtain ⟨result, rest, mentions⟩ := o
  obtain ⟨result', rest', mentions'⟩ := p
  obtain ⟨-, hrest, rfl⟩ := h
  rcases hcases with ⟨value, rfl, rfl⟩ | ⟨error, error', rfl, rfl, hcause⟩
  · exact (hnext value rest rest' mentions rfl hrest).mentioning mentions
  · exact .failed hcause hrest

theorem map (h : Alike d e o p) (f : α → β) : Alike d e (o.map f) (p.map f) := by
  have hcases := h.cases
  obtain ⟨result, rest, mentions⟩ := o
  obtain ⟨result', rest', mentions'⟩ := p
  obtain ⟨-, hrest, rfl⟩ := h
  rcases hcases with ⟨value, rfl, rfl⟩ | ⟨error, error', rfl, rfl, hcause⟩
  · exact .ok hrest
  · exact .failed hcause hrest

end Outcome.Alike

namespace Dialect

variable {d e : Dialect} {level : Level} {tokens tokens' : List Token}

/-- Whatever is alike to the tokens is read alike as the phrase. -/
def ReadsAlike (d e : Dialect) (phrase : Phrase) (tokens : List Token) : Prop :=
  ∀ ⦃tokens'⦄, List.Forall₂ (Token.Alike d e) tokens tokens' →
    Outcome.Alike d e (d.read phrase tokens) (e.read phrase tokens')

/-- Chains go on alike if their operands are read alike. -/
private theorem further_alike {bound : Nat}
    (hoperand : ∀ fewer : List Token, fewer.length < bound →
      ReadsAlike d e (.rightOperandOf level) fewer)
    (left : Formula) (hbound : tokens.length ≤ bound)
    (h : List.Forall₂ (Token.Alike d e) tokens tokens') :
    Outcome.Alike d e (d.further level left tokens)
      (e.further level left tokens') := by
  induction hn : tokens.length using Nat.strongRecOn
    generalizing tokens tokens' left with
  | ind n ih =>
    cases h with
    | nil =>
      rw [further_nil, further_nil]
      exact .ok .nil
    | @cons token token' rest rest' hhead htail =>
      rw [List.length_cons] at hbound hn
      rw [further_cons, further_cons, ← hhead.takes]
      split
      · next htakes =>
        have hright := hoperand rest (by omega) htail
        rw [read_rightOperandOf, read_rightOperandOf] at hright
        refine hright.andThen ?_
        intro right between between' mentions hread hbetween
        have hshorter := rightOperand_shorter hread
        rw [← hhead.text_of_takes htakes]
        cases Operator.find? token.text with
        | some operator =>
          exact ih between.length (by omega) _ (by omega) hbetween rfl
        | none => exact .failed rfl hbetween
      · exact .ok (.cons hhead htail)

/-- A group is closed alike. -/
private theorem closing_alike (inner : Formula)
    (h : List.Forall₂ (Token.Alike d e) tokens tokens') :
    Outcome.Alike d e (closing inner tokens) (closing inner tokens') := by
  cases h with
  | nil => exact .failed rfl .nil
  | cons hhead htail =>
    rw [closing_cons, closing_cons, ← hhead.delimiter ")" (by decide)]
    split
    · exact .ok htail
    · exact .failed rfl htail

/-- Lists of arguments are read alike if chains are. -/
private theorem argumentList_alike {name name' : Token} {bound : Nat}
    (hchain : ∀ fewer : List Token, fewer.length < bound →
      ReadsAlike d e (.chain .relational) fewer)
    (hbound : tokens.length < bound)
    (h : List.Forall₂ (Token.Alike d e) tokens tokens') :
    Outcome.Alike d e (d.argumentList name tokens)
      (e.argumentList name' tokens') := by
  induction hn : tokens.length using Nat.strongRecOn
    generalizing tokens tokens' with
  | ind n ih =>
    cases h with
    | nil =>
      rw [argumentList_nil, argumentList_nil]
      exact .failed rfl .nil
    | @cons head head' tail tail' hhead htail =>
      rw [argumentList_cons, argumentList_cons,
        ← hhead.delimiter ")" (by decide),
        ← hhead.delimiter argumentSeparator (by decide)]
      split
      · exact .failed rfl (.cons hhead htail)
      have hfirst := hchain (head :: tail) hbound (.cons hhead htail)
      refine hfirst.andThen ?_
      intro first rest rest' mentions hread hrest
      have hshorter := read_shorter hread
      cases hrest with
      | nil =>
        rw [separated_nil, separated_nil]
        exact .failed rfl .nil
      | @cons token token' others others' htoken hothers =>
        simp only [List.length_cons] at hshorter hn hbound
        rw [separated_cons, separated_cons,
          ← htoken.delimiter ")" (by decide),
          ← htoken.delimiter argumentSeparator (by decide)]
        split
        · have hmore := ih others.length (by omega) (by omega) hothers rfl
          exact hmore.map _
        · split
          · exact .ok hothers
          · exact .failed rfl hothers

/-- The arguments of a call are read alike if chains are. -/
private theorem arguments_alike {name name' : Token} {bound : Nat}
    (hchain : ∀ fewer : List Token, fewer.length < bound →
      ReadsAlike d e (.chain .relational) fewer)
    (hbound : tokens.length < bound)
    (h : List.Forall₂ (Token.Alike d e) tokens tokens') :
    Outcome.Alike d e (d.arguments name tokens) (e.arguments name' tokens') := by
  have hlist : Outcome.Alike d e (d.argumentList name tokens)
      (e.argumentList name' tokens') := argumentList_alike hchain hbound h
  cases h with
  | nil =>
    rw [arguments_nil, arguments_nil]
    exact hlist
  | cons hhead htail =>
    rw [arguments_cons, arguments_cons, ← hhead.delimiter ")" (by decide)]
    split
    · exact .ok htail
    · exact hlist

/-- A name stands for the same variable, or calls the same function. -/
private theorem named_alike (hfunctions : d.functions = e.functions)
    {name name' : Token} (hname : name.text = name'.text) {bound : Nat}
    (hchain : ∀ fewer : List Token, fewer.length < bound →
      ReadsAlike d e (.chain .relational) fewer)
    (hbound : tokens.length ≤ bound)
    (h : List.Forall₂ (Token.Alike d e) tokens tokens') :
    Outcome.Alike d e (d.named name tokens) (e.named name' tokens') := by
  cases h with
  | nil =>
    rw [named_nil, named_nil, hname]
    exact .ok .nil
  | @cons token token' rest rest' hhead htail =>
    rw [named_cons, named_cons, ← hhead.delimiter "(" (by decide), ← hname,
      ← hfunctions]
    split
    · cases d.functions.find? name.text with
      | none => exact .failed rfl htail
      | some function =>
        rw [List.length_cons] at hbound
        refine (arguments_alike hchain (by omega) htail).andThen ?_
        intro arguments after after' mentions _ hafter
        rw [calling_eq, calling_eq, hname]
        split
        · exact .ok hafter
        · exact .failed rfl hafter
    · exact .ok (.cons hhead htail)

/-- An atom is read alike if the chains in it are. -/
private theorem atom_alike (hfunctions : d.functions = e.functions)
    (hchain : ∀ fewer : List Token, fewer.length < tokens.length →
      ReadsAlike d e (.chain .relational) fewer) :
    ReadsAlike d e .atom tokens := by
  intro tokens' h
  show Outcome.Alike d e (d.atom tokens) (e.atom tokens')
  cases h with
  | nil =>
    rw [atom_nil, atom_nil]
    exact .failed rfl .nil
  | @cons token token' rest rest' hhead htail =>
    rw [atom_cons, atom_cons, ← hhead.delimiter "(" (by decide)]
    split
    · refine (hchain rest (Nat.lt_succ_self _) htail).andThen ?_
      intro inner after after' mentions _ hafter
      exact closing_alike inner hafter
    rw [← hhead.category]
    cases hcategory : token.category with
    | number =>
      simp only [← hhead.number hcategory]
      cases d.convention.readNumber? token.text with
      | some value => exact .ok htail
      | none => exact .failed rfl htail
    | letter =>
      exact named_alike hfunctions (hhead.name hcategory) hchain
        (Nat.le_succ _) htail
    | delimiter | whitespace | undefined =>
      exact .failed rfl (.cons hhead htail)

/-- A signed atom is read alike if atoms are. -/
private theorem signed_alike
    (hfewer : ∀ fewer : List Token, fewer.length < tokens.length →
      ReadsAlike d e .atom fewer)
    (hatom : ReadsAlike d e .atom tokens) : ReadsAlike d e .signed tokens := by
  intro tokens' h
  show Outcome.Alike d e (d.signed tokens) (e.signed tokens')
  have hbare := hatom h
  cases h with
  | nil =>
    rw [signed_nil, signed_nil]
    exact hbare
  | @cons token token' rest rest' hhead htail =>
    have hrest := hfewer rest (Nat.lt_succ_self _) htail
    rw [signed_cons, signed_cons, ← hhead.delimiter "-" (by decide),
      ← hhead.delimiter "+" (by decide)]
    split
    · exact hrest.map _
    · split
      · exact hrest
      · exact hbare

/-- A chain is read alike if its operands are. -/
private theorem chain_alike
    (hfewer : ∀ fewer : List Token, fewer.length < tokens.length →
      ReadsAlike d e (.rightOperandOf level) fewer)
    (hoperand : ReadsAlike d e (.operandOf level) tokens) :
    ReadsAlike d e (.chain level) tokens := by
  intro tokens' h
  show Outcome.Alike d e (d.chain level tokens) (e.chain level tokens')
  rw [chain_eq, chain_eq]
  have hfirst := hoperand h
  rw [read_operandOf, read_operandOf] at hfirst
  refine hfirst.andThen ?_
  intro left rest rest' mentions hread hrest
  have hshorter := operand_shorter hread
  exact further_alike hfewer left (by omega) hrest

/-- **Phrases are read alike** from token lists that are alike. -/
theorem read_alike (hfunctions : d.functions = e.functions) (phrase : Phrase)
    (tokens : List Token) : ReadsAlike d e phrase tokens := by
  induction phrase, tokens using Phrase.induction with
  | step phrase tokens hfewer htighter =>
    cases phrase with
    | chain level =>
      exact chain_alike (fun fewer => hfewer _ fewer)
        (htighter _ (Phrase.rank_operandOf_lt level))
    | signed =>
      exact signed_alike (fun fewer => hfewer _ fewer)
        (htighter .atom (by decide))
    | atom => exact atom_alike hfunctions fun fewer => hfewer _ fewer

/-- **Token lists are read alike** where they are alike, whether they are a
formula or not. -/
theorem parse_alike (hfunctions : d.functions = e.functions)
    (h : List.Forall₂ (Token.Alike d e) tokens tokens') :
    Outcome.Alike d e (d.parse tokens) (e.parse tokens') := by
  have hwhole := read_alike hfunctions (.chain .relational) tokens h
  cases h with
  | nil => exact .failed rfl .nil
  | cons hhead htail =>
    rw [parse, parse]
    refine Outcome.Alike.andThen hwhole ?_
    intro formula rest rest' mentions _ hrest
    cases hrest with
    | nil => exact .ok .nil
    | cons htoken hothers => exact .failed rfl hothers

end Dialect

end Formulary
