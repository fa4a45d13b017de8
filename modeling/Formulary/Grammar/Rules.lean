import Formulary.FunctionTable
import Formulary.Grammar.Level
import Formulary.Grammar.Reading
import Formulary.Numeral
import Formulary.Tree

/-!
# The grammar of formulas

A dialect fixes what a token list means: the convention reads its numbers, and
the function table knows the names that it may call.  The rules are

* a *chain* of a level is operands of the next tighter level with operators of
  the level between them; the right operand of a relational operator is a whole
  relational chain, so that this level groups to the right;
* a *signed atom* is an atom with at most one sign before it;
* an *atom* is a number, a variable, a call, or a relational chain in
  parentheses;
* the *arguments* of a call are relational chains with separators between them.

Every rule looks one token ahead, and the first fault ends the reading.  The
rules call one another on shorter lists, or on the same list with a tighter
rule, so they end.
-/

namespace Formulary

/-- What the meaning of a token list depends on. -/
structure Dialect where
  convention : Convention
  functions : FunctionTable

namespace Dialect

/-- Consuming a token leaves fewer than one more than there were. -/
private theorem rest_lt_bound (token : Token) (rest : List Token) :
    rest.length < (token :: rest).length + 1 :=
  Nat.lt_succ_of_lt (Nat.lt_succ_self _)

/-- What bounds the tokens after a consumed one bounds those before it. -/
private theorem rest_le_bound (token : Token) (rest : List Token) :
    rest.length ≤ (token :: rest).length + 1 :=
  Nat.le_of_lt (rest_lt_bound token rest)

/-- What follows the inner formula of a pair of parentheses: the closing one. -/
def readClosing (inner : Formula) (tokens : List Token) :
    Reading Formula (tokens.length + 1) :=
  match tokens with
  | [] => .failed .unexpectedEndOfInput [] []
  | token :: rest =>
    if token.isDelimiter ")" then .done inner rest [] (rest_lt_bound token rest)
    else .failed (.unexpectedToken token.text token.position) rest []

/-- A call whose arguments have been read, if they are as many as the function
takes. -/
def readCall (name : Token) (function : Callable) (arguments : List Formula)
    (tokens : List Token) : Reading Formula (tokens.length + 1) :=
  if arguments.length = function.arity then
    .done (.call name.text function arguments) tokens [] (Nat.lt_succ_self _)
  else
    .failed (.argumentCountMismatch name.text function.arity arguments.length)
      tokens []

mutual

/-- A chain of the level. -/
def readChain (d : Dialect) (level : Level) (tokens : List Token) :
    Reading Formula tokens.length :=
  (d.readOperand level tokens).andThen fun left rest _ =>
    d.readFurther level left rest
termination_by 16 * tokens.length + 2 * level.rank + 1
decreasing_by all_goals omega

/-- The first operand in a chain of the level. -/
def readOperand (d : Dialect) (level : Level) (tokens : List Token) :
    Reading Formula tokens.length :=
  match level with
  | .relational => d.readChain .additive tokens
  | .additive => d.readChain .multiplicative tokens
  | .multiplicative => d.readChain .modulo tokens
  | .modulo => d.readChain .power tokens
  | .power => d.readSigned tokens
termination_by 16 * tokens.length + 2 * level.rank
decreasing_by all_goals (simp only [Level.rank]; omega)

/-- How a chain of the level goes on after what has been read of it. -/
def readFurther (d : Dialect) (level : Level) (left : Formula)
    (tokens : List Token) : Reading Formula (tokens.length + 1) :=
  match tokens with
  | [] => .done left [] [] (Nat.lt_succ_self _)
  | token :: rest =>
    if level.takes token then
      ((d.readRightOperand level rest).andThen fun right rest' _ =>
        match Operator.find? token.text with
        | some operator =>
          d.readFurther level (.binary operator left right) rest'
        | none =>
          .failed (.unknownOperator token.text token.position) rest' []).weaken
        (rest_le_bound token rest)
    else .done left (token :: rest) [] (Nat.lt_succ_self _)
termination_by 16 * tokens.length
decreasing_by all_goals (simp only [List.length_cons] at *; omega)

/-- The operand to the right of an operator of the level. -/
def readRightOperand (d : Dialect) (level : Level) (tokens : List Token) :
    Reading Formula tokens.length :=
  match level with
  | .relational => d.readChain .relational tokens
  | level => d.readOperand level tokens
termination_by 16 * tokens.length + 12
decreasing_by
  · simp only [Level.rank]
    omega
  · have := level.rank_le
    omega

/-- An atom with at most one sign before it.  Only a minus changes it. -/
def readSigned (d : Dialect) (tokens : List Token) :
    Reading Formula tokens.length :=
  match tokens with
  | [] => d.readAtom []
  | token :: rest =>
    if token.isDelimiter "-" then
      ((d.readAtom rest).map .negate).weaken (Nat.le_succ _)
    else if token.isDelimiter "+" then
      (d.readAtom rest).weaken (Nat.le_succ _)
    else d.readAtom (token :: rest)
termination_by 16 * tokens.length + 1
decreasing_by all_goals first | omega | (simp only [List.length_cons]; omega)

/-- A number, a variable, a call, or a relational chain in parentheses. -/
def readAtom (d : Dialect) (tokens : List Token) :
    Reading Formula tokens.length :=
  match tokens with
  | [] => .failed .unexpectedEndOfInput [] []
  | token :: rest =>
    if token.isDelimiter "(" then
      ((d.readChain .relational rest).andThen fun inner rest' _ =>
        readClosing inner rest').weaken (Nat.le_succ _)
    else
      match token.category with
      | .number =>
        match d.convention.readNumber? token.text with
        | some value => .done (.constant value) rest [] (Nat.lt_succ_self _)
        | none => .failed (.numericFormat token.text token.position) rest []
      | .letter => d.readName token rest
      | _ =>
        .failed (.unexpectedToken token.text token.position) (token :: rest) []
termination_by 16 * tokens.length
decreasing_by all_goals (simp only [List.length_cons, Level.rank]; omega)

/-- What a name stands for, after it has been consumed: a call where an opening
parenthesis follows, and a variable elsewhere. -/
def readName (d : Dialect) (name : Token) (tokens : List Token) :
    Reading Formula (tokens.length + 1) :=
  match tokens with
  | [] => .done (.var name.text) [] [name.text] (Nat.lt_succ_self _)
  | token :: rest =>
    if token.isDelimiter "(" then
      match d.functions.find? name.text with
      | none => .failed (.unknownFunction name.text name.position) rest []
      | some function =>
        ((d.readArguments name rest).andThen fun arguments rest' _ =>
          readCall name function arguments rest').weaken
          (rest_le_bound token rest)
    else .done (.var name.text) (token :: rest) [name.text] (Nat.lt_succ_self _)
termination_by 16 * tokens.length
decreasing_by all_goals (simp only [List.length_cons]; omega)

/-- The arguments of a call, after its opening parenthesis: none where the
closing one follows. -/
def readArguments (d : Dialect) (name : Token) (tokens : List Token) :
    Reading (List Formula) tokens.length :=
  match tokens with
  | [] => d.readArgumentList name []
  | token :: rest =>
    if token.isDelimiter ")" then .done [] rest [] (Nat.lt_succ_self _)
    else d.readArgumentList name (token :: rest)
termination_by 16 * tokens.length + 13
decreasing_by all_goals omega

/-- One or more arguments up to the closing parenthesis. -/
def readArgumentList (d : Dialect) (name : Token) (tokens : List Token) :
    Reading (List Formula) tokens.length :=
  match tokens with
  | [] => .failed (.missingArgument name.text name.position) [] []
  | token :: rest =>
    if token.isDelimiter argumentSeparator || token.isDelimiter ")" then
      .failed (.missingArgument name.text token.position) (token :: rest) []
    else
      (d.readChain .relational (token :: rest)).andThen fun first rest' _ =>
        d.readSeparated name first rest'
termination_by 16 * tokens.length + 12
decreasing_by all_goals first | omega | (simp only [Level.rank]; omega)

/-- What follows an argument: the next one after a separator, or the end of the
list at the closing parenthesis. -/
def readSeparated (d : Dialect) (name : Token) (first : Formula)
    (tokens : List Token) : Reading (List Formula) (tokens.length + 1) :=
  match tokens with
  | [] => .failed .unexpectedEndOfInput [] []
  | token :: rest =>
    if token.isDelimiter argumentSeparator then
      ((d.readArgumentList name rest).map (first :: ·)).weaken
        (rest_le_bound token rest)
    else if token.isDelimiter ")" then
      .done [first] rest [] (rest_lt_bound token rest)
    else .failed (.unexpectedToken token.text token.position) rest []
termination_by 16 * tokens.length
decreasing_by all_goals (simp only [List.length_cons]; omega)

end

end Dialect

end Formulary
