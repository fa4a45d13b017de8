import Formulary.Grammar.Rules
import Formulary.Proofs.Grammar.Level

/-!
# Variables and calls of a token list

Where a name stands for a variable and where it is called can be seen in the
tokens, without reading them as a formula.  A name that no opening parenthesis
follows is a variable.  The others are called; a call ends at the parenthesis
that closes the one after its name, and it has one argument more than there are
separators directly between the two, or none where nothing stands between them.

* `occurrences` are the names that stand for variables;
* `calls` are the calls, in the order of their closing parentheses;
* `Dialect.miscounts` says of a call whether its function takes another number
  of arguments.
-/

namespace Formulary

/-- Whether the next token is the delimiter. -/
def nextIs (symbol : String) (tokens : List Token) : Bool :=
  tokens.head?.any (·.isDelimiter symbol)

/-- The names that stand for variables, in their order. -/
def occurrences : List Token → List Token
  | [] => []
  | token :: rest =>
    if token.category = .letter ∧ nextIs "(" rest = false then
      token :: occurrences rest
    else occurrences rest

/-- A parenthesis that is open: the name before it, if one stands there, and the
number of arguments that have begun since. -/
structure Frame where
  name? : Option Token
  arguments : Nat

namespace Frame

/-- The parenthesis after which the tokens follow. -/
def opening (name? : Option Token) (tokens : List Token) : Frame where
  name?
  arguments := if nextIs ")" tokens then 0 else 1

/-- The parenthesis with one argument more. -/
def separated (frame : Frame) : Frame :=
  { frame with arguments := frame.arguments + 1 }

end Frame

/-- A call with the number of its arguments and the parenthesis that closes
it. -/
structure CallSite where
  name : Token
  arguments : Nat
  closing : Token

/-- The call that ends where the parenthesis is closed. -/
def Frame.call? (frame : Frame) (closing : Token) : Option CallSite :=
  frame.name?.map fun name => ⟨name, frame.arguments, closing⟩

/-- The calls that end in the tokens, where parentheses are open before them and
a name may stand directly before them. -/
def callsFrom (name? : Option Token) (frames : List Frame) :
    List Token → List CallSite
  | [] => []
  | token :: rest =>
    if token.isDelimiter "(" then
      callsFrom none (.opening name? rest :: frames) rest
    else if token.isDelimiter argumentSeparator then
      callsFrom none (frames.modifyHead Frame.separated) rest
    else if token.isDelimiter ")" then
      (frames.head?.bind (·.call? token)).toList ++
        callsFrom none frames.tail rest
    else
      callsFrom (if token.category = .letter then some token else none) frames
        rest

/-- The calls in a token list, in the order of their closing parentheses. -/
def calls (tokens : List Token) : List CallSite :=
  callsFrom none [] tokens

/-- Whether the function of a call takes another number of arguments. -/
def Dialect.miscounts (d : Dialect) (call : CallSite) : Bool :=
  (d.functions.find? call.name.text).any (·.arity != call.arguments)

/-- The arguments of `max`, of which one is a call itself, and a group between
them; `sin` without an argument. -/
example :
    (calls [⟨"max", .letter, 0⟩, ⟨"(", .delimiter, 3⟩, ⟨"f", .letter, 4⟩,
        ⟨"(", .delimiter, 5⟩, ⟨"a", .letter, 6⟩, ⟨")", .delimiter, 7⟩,
        ⟨";", .delimiter, 8⟩, ⟨"(", .delimiter, 9⟩, ⟨"b", .letter, 10⟩,
        ⟨")", .delimiter, 11⟩, ⟨")", .delimiter, 12⟩, ⟨"sin", .letter, 13⟩,
        ⟨"(", .delimiter, 16⟩, ⟨")", .delimiter, 17⟩]).map
      (fun call => (call.name.text, call.arguments, call.closing.position)) =
      [("f", 1, 7), ("max", 2, 12), ("sin", 0, 17)] := by
  decide

section Token

variable {token name : Token} {rest : List Token} {frames : List Frame}
  {name? : Option Token}

/-- A name that no opening parenthesis follows is a variable. -/
theorem occurrences_var (hletter : name.category = .letter)
    (hnext : nextIs "(" rest = false) :
    occurrences (name :: rest) = name :: occurrences rest := by
  rw [occurrences, if_pos ⟨hletter, hnext⟩]

/-- Only names are variables. -/
theorem occurrences_other (h : token.category ≠ .letter) :
    occurrences (token :: rest) = occurrences rest := by
  rw [occurrences, if_neg fun hvariable => h hvariable.1]

/-- A delimiter is no name. -/
theorem Token.category_ne_letter {symbol : String} (h : token.isDelimiter symbol) :
    token.category ≠ .letter := by
  rw [(isDelimiter_iff.mp h).1]
  decide

/-- A called name is no variable. -/
theorem occurrences_call {opening : Token} (h : opening.isDelimiter "(") :
    occurrences (name :: opening :: rest) = occurrences rest := by
  have hnext : nextIs "(" (opening :: rest) = true := h
  rw [occurrences, if_neg, occurrences_other (Token.category_ne_letter h)]
  rw [hnext]
  simp

/-- Variables are among the tokens, in their order. -/
theorem occurrences_sublist (tokens : List Token) :
    (occurrences tokens).Sublist tokens := by
  induction tokens with
  | nil => exact List.Sublist.slnil
  | cons token rest ih =>
    rw [occurrences]
    split
    · exact ih.cons_cons token
    · exact ih.cons token

/-- Whatever a token list is taken apart into, its variables are those of the
second part after some of the first. -/
theorem exists_occurrences_append (front rest : List Token) :
    ∃ passed, occurrences (front ++ rest) = passed ++ occurrences rest ∧
      passed.Sublist front := by
  induction front with
  | nil => exact ⟨[], rfl, List.Sublist.slnil⟩
  | cons token front ih =>
    obtain ⟨passed, hpassed, hsub⟩ := ih
    rw [List.cons_append, occurrences, hpassed]
    split
    · exact ⟨token :: passed, rfl, hsub.cons_cons token⟩
    · exact ⟨passed, rfl, hsub.cons token⟩

/-- An opening parenthesis is open from there on. -/
theorem callsFrom_opening (h : token.isDelimiter "(") :
    callsFrom name? frames (token :: rest) =
      callsFrom none (.opening name? rest :: frames) rest := by
  rw [callsFrom, if_pos h]

/-- A separator begins an argument. -/
theorem callsFrom_separator (h : token.isDelimiter argumentSeparator) :
    callsFrom name? frames (token :: rest) =
      callsFrom none (frames.modifyHead Frame.separated) rest := by
  have hopening : token.isDelimiter "(" = false :=
    Token.isDelimiter_of_ne h (by decide)
  rw [callsFrom, hopening, if_neg (by decide), if_pos h]

/-- A closing parenthesis ends the call that is open. -/
theorem callsFrom_closing (h : token.isDelimiter ")") {frame : Frame} :
    callsFrom name? (frame :: frames) (token :: rest) =
      (frame.call? token).toList ++ callsFrom none frames rest := by
  have hopening : token.isDelimiter "(" = false :=
    Token.isDelimiter_of_ne h (by decide)
  have hseparator : token.isDelimiter argumentSeparator = false :=
    Token.isDelimiter_of_ne h (by decide)
  rw [callsFrom, hopening, hseparator, if_neg (by decide), if_neg (by decide),
    if_pos h]
  rfl

/-- A token that opens, separates or closes. -/
def Token.IsBracket (token : Token) : Prop :=
  token.isDelimiter "(" ∨ token.isDelimiter argumentSeparator ∨
    token.isDelimiter ")"

/-- A name opens, separates and closes nothing. -/
theorem Token.not_isBracket (h : name.category = .letter) : ¬name.IsBracket := by
  rintro (hopens | hseparates | hcloses)
  · exact category_ne_letter hopens h
  · exact category_ne_letter hseparates h
  · exact category_ne_letter hcloses h

/-- Other tokens change nothing, unless they are names. -/
private theorem callsFrom_token (h : ¬token.IsBracket) :
    callsFrom name? frames (token :: rest) =
      callsFrom (if token.category = .letter then some token else none) frames
        rest := by
  simp only [Token.IsBracket, not_or] at h
  rw [callsFrom, if_neg h.1, if_neg h.2.1, if_neg h.2.2]

/-- A token that is neither a bracket nor a name changes nothing. -/
theorem callsFrom_other (hletter : token.category ≠ .letter)
    (h : ¬token.IsBracket) :
    callsFrom name? frames (token :: rest) = callsFrom none frames rest := by
  rw [callsFrom_token h, if_neg hletter]

/-- A variable changes nothing. -/
theorem callsFrom_var (hletter : name.category = .letter)
    (hnext : nextIs "(" rest = false) :
    callsFrom name? frames (name :: rest) = callsFrom none frames rest := by
  rw [callsFrom_token (Token.not_isBracket hletter), if_pos hletter]
  cases rest with
  | nil => rfl
  | cons token rest =>
    have hopening : token.isDelimiter "(" = false := hnext
    rw [callsFrom, hopening, callsFrom, hopening]
    rfl

/-- A call is open after its name and the parenthesis. -/
theorem callsFrom_call {opening : Token} (hletter : name.category = .letter)
    (h : opening.isDelimiter "(") :
    callsFrom name? frames (name :: opening :: rest) =
      callsFrom none (.opening (some name) rest :: frames) rest := by
  rw [callsFrom_token (Token.not_isBracket hletter), if_pos hletter,
    callsFrom_opening h]

end Token

end Formulary
