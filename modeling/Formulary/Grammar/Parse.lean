import Formulary.Grammar.Rules

/-!
# Outcomes of the rules

Each rule of the grammar as a function from token lists to outcomes, and the
equation that it satisfies.  The equations are the grammar as one would write
it down, without a word about why the recursion ends; what is proved of the
rules is proved from them.

* `Dialect.chain`, `Dialect.signed`, `Dialect.atom`, … are the rules;
* `Dialect.chain_eq` and its like are the equations;
* `Dialect.parse` reads a whole token list as one formula.
-/

namespace Formulary.Dialect

variable (d : Dialect)

/-- A chain of the level. -/
def chain (level : Level) (tokens : List Token) : Outcome Formula :=
  (d.readChain level tokens).outcome

/-- The first operand in a chain of the level. -/
def operand (level : Level) (tokens : List Token) : Outcome Formula :=
  (d.readOperand level tokens).outcome

/-- How a chain of the level goes on after what has been read of it. -/
def further (level : Level) (left : Formula) (tokens : List Token) :
    Outcome Formula :=
  (d.readFurther level left tokens).outcome

/-- The operand to the right of an operator of the level. -/
def rightOperand (level : Level) (tokens : List Token) : Outcome Formula :=
  (d.readRightOperand level tokens).outcome

/-- An atom with at most one sign before it. -/
def signed (tokens : List Token) : Outcome Formula :=
  (d.readSigned tokens).outcome

/-- A number, a variable, a call, or a formula in parentheses. -/
def atom (tokens : List Token) : Outcome Formula :=
  (d.readAtom tokens).outcome

/-- What a name stands for, after it has been consumed. -/
def named (name : Token) (tokens : List Token) : Outcome Formula :=
  (d.readName name tokens).outcome

/-- The arguments of a call, after its opening parenthesis. -/
def arguments (name : Token) (tokens : List Token) : Outcome (List Formula) :=
  (d.readArguments name tokens).outcome

/-- One or more arguments up to the closing parenthesis. -/
def argumentList (name : Token) (tokens : List Token) :
    Outcome (List Formula) :=
  (d.readArgumentList name tokens).outcome

/-- What follows an argument in the list. -/
def separated (name : Token) (first : Formula) (tokens : List Token) :
    Outcome (List Formula) :=
  (d.readSeparated name first tokens).outcome

/-- What follows a formula in parentheses. -/
def closing (inner : Formula) (tokens : List Token) : Outcome Formula :=
  (readClosing inner tokens).outcome

/-- A call whose arguments have been read. -/
def calling (name : Token) (function : Callable) (arguments : List Formula)
    (tokens : List Token) : Outcome Formula :=
  (readCall name function arguments tokens).outcome

/-- A formula at the front of a token list: a chain of the loosest level. -/
def expression (tokens : List Token) : Outcome Formula :=
  d.chain .relational tokens

theorem chain_eq (level : Level) (tokens : List Token) :
    d.chain level tokens =
      (d.operand level tokens).andThen (d.further level) := by
  unfold chain operand
  rw [readChain]
  exact Reading.outcome_andThen _ _ _ fun _ _ _ => rfl

theorem operand_eq (level : Level) (tokens : List Token) :
    d.operand level tokens =
      match level with
      | .relational => d.chain .additive tokens
      | .additive => d.chain .multiplicative tokens
      | .multiplicative => d.chain .modulo tokens
      | .modulo => d.chain .power tokens
      | .power => d.signed tokens := by
  unfold operand
  cases level <;> rw [readOperand] <;> rfl

theorem further_nil (level : Level) (left : Formula) :
    d.further level left [] =
      { result := .ok left, rest := [], mentions := [] } := by
  unfold further
  rw [readFurther]
  rfl

theorem further_cons (level : Level) (left : Formula) (token : Token)
    (rest : List Token) :
    d.further level left (token :: rest) =
      if level.takes token then
        (d.rightOperand level rest).andThen fun right rest' =>
          match Operator.find? token.text with
          | some operator =>
            d.further level (.binary operator left right) rest'
          | none =>
            { result := .error (.unknownOperator token.text token.position)
              rest := rest'
              mentions := [] }
      else { result := .ok left, rest := token :: rest, mentions := [] } := by
  unfold further
  rw [readFurther]
  split
  · rw [Reading.outcome_weaken]
    refine Reading.outcome_andThen _ _ _ fun right rest' shorter => ?_
    cases Operator.find? token.text <;> rfl
  · rfl

theorem rightOperand_eq (level : Level) (tokens : List Token) :
    d.rightOperand level tokens =
      match level with
      | .relational => d.chain .relational tokens
      | level => d.operand level tokens := by
  unfold rightOperand
  cases level <;> simp [readRightOperand, chain, operand]

theorem signed_nil : d.signed [] = d.atom [] := by
  unfold signed
  rw [readSigned]
  rfl

theorem signed_cons (token : Token) (rest : List Token) :
    d.signed (token :: rest) =
      if token.isDelimiter "-" then (d.atom rest).map .negate
      else if token.isDelimiter "+" then d.atom rest
      else d.atom (token :: rest) := by
  unfold signed
  rw [readSigned]
  split
  · simp [atom]
  · split <;> simp [atom]

theorem atom_nil :
    d.atom [] =
      { result := .error .unexpectedEndOfInput, rest := [], mentions := [] } := by
  unfold atom
  rw [readAtom]
  rfl

theorem atom_cons (token : Token) (rest : List Token) :
    d.atom (token :: rest) =
      if token.isDelimiter "(" then
        (d.chain .relational rest).andThen closing
      else
        match token.category with
        | .number =>
          match d.convention.readNumber? token.text with
          | some value =>
            { result := .ok (.constant value), rest, mentions := [] }
          | none =>
            { result := .error (.numericFormat token.text token.position)
              rest
              mentions := [] }
        | .letter => d.named token rest
        | _ =>
          { result := .error (.unexpectedToken token.text token.position)
            rest := token :: rest
            mentions := [] } := by
  unfold atom
  rw [readAtom]
  split
  · rw [Reading.outcome_weaken]
    exact Reading.outcome_andThen _ _ _ fun _ _ _ => rfl
  · cases token.category <;> try rfl
    cases d.convention.readNumber? token.text <;> rfl

theorem closing_nil (inner : Formula) :
    closing inner [] =
      { result := .error .unexpectedEndOfInput, rest := [], mentions := [] } :=
  rfl

theorem closing_cons (inner : Formula) (token : Token) (rest : List Token) :
    closing inner (token :: rest) =
      if token.isDelimiter ")" then
        { result := .ok inner, rest, mentions := [] }
      else
        { result := .error (.unexpectedToken token.text token.position)
          rest
          mentions := [] } := by
  simp only [closing, readClosing]
  split <;> rfl

theorem named_nil (name : Token) :
    d.named name [] =
      { result := .ok (.var name.text), rest := [], mentions := [name.text] } := by
  unfold named
  rw [readName]
  rfl

theorem named_cons (name token : Token) (rest : List Token) :
    d.named name (token :: rest) =
      if token.isDelimiter "(" then
        match d.functions.find? name.text with
        | none =>
          { result := .error (.unknownFunction name.text name.position)
            rest
            mentions := [] }
        | some function =>
          (d.arguments name rest).andThen (calling name function)
      else
        { result := .ok (.var name.text)
          rest := token :: rest
          mentions := [name.text] } := by
  unfold named
  rw [readName]
  split
  · cases d.functions.find? name.text with
    | none => rfl
    | some function =>
      simp only [Reading.outcome_weaken]
      exact Reading.outcome_andThen _ _ _ fun _ _ _ => rfl
  · rfl

theorem calling_eq (name : Token) (function : Callable)
    (arguments : List Formula) (tokens : List Token) :
    calling name function arguments tokens =
      if arguments.length = function.arity then
        { result := .ok (.call name.text function arguments)
          rest := tokens
          mentions := [] }
      else
        { result := .error (.argumentCountMismatch name.text function.arity
            arguments.length)
          rest := tokens
          mentions := [] } := by
  unfold calling readCall
  split <;> rfl

theorem arguments_nil (name : Token) :
    d.arguments name [] = d.argumentList name [] := by
  unfold arguments
  rw [readArguments]
  rfl

theorem arguments_cons (name token : Token) (rest : List Token) :
    d.arguments name (token :: rest) =
      if token.isDelimiter ")" then { result := .ok [], rest, mentions := [] }
      else d.argumentList name (token :: rest) := by
  unfold arguments
  rw [readArguments]
  split <;> rfl

theorem argumentList_nil (name : Token) :
    d.argumentList name [] =
      { result := .error (.missingArgument name.text name.position)
        rest := []
        mentions := [] } := by
  unfold argumentList
  rw [readArgumentList]
  rfl

theorem argumentList_cons (name token : Token) (rest : List Token) :
    d.argumentList name (token :: rest) =
      if token.isDelimiter argumentSeparator || token.isDelimiter ")" then
        { result := .error (.missingArgument name.text token.position)
          rest := token :: rest
          mentions := [] }
      else
        (d.chain .relational (token :: rest)).andThen (d.separated name) := by
  unfold argumentList
  rw [readArgumentList]
  split
  · rfl
  · exact Reading.outcome_andThen _ _ _ fun _ _ _ => rfl

theorem separated_nil (name : Token) (first : Formula) :
    d.separated name first [] =
      { result := .error .unexpectedEndOfInput, rest := [], mentions := [] } := by
  unfold separated
  rw [readSeparated]
  rfl

theorem separated_cons (name token : Token) (first : Formula)
    (rest : List Token) :
    d.separated name first (token :: rest) =
      if token.isDelimiter argumentSeparator then
        (d.argumentList name rest).map (first :: ·)
      else if token.isDelimiter ")" then
        { result := .ok [first], rest, mentions := [] }
      else
        { result := .error (.unexpectedToken token.text token.position)
          rest
          mentions := [] } := by
  unfold separated
  rw [readSeparated]
  split
  · simp [argumentList]
  · split <;> rfl

/-- The tokens as one formula: an empty list is none, and a token that is left
over stands where none can. -/
def parse (tokens : List Token) : Outcome Formula :=
  match tokens with
  | [] => { result := .error .emptyExpression, rest := [], mentions := [] }
  | first :: others =>
    (d.expression (first :: others)).andThen fun formula rest =>
      match rest with
      | [] => { result := .ok formula, rest := [], mentions := [] }
      | token :: rest =>
        { result := .error (.unexpectedToken token.text token.position)
          rest
          mentions := [] }

end Formulary.Dialect
