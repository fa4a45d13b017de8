/-!
# Reasons why a text is no formula

Each cause carries what its message names.  Offsets count bytes of the text in
UTF-8.

* `CompileError.kind` sorts the causes into six families;
* `CompileError.message` is the wording.
-/

namespace Formulary

/-- Why a text or a list of tokens is no formula. -/
inductive CompileError where
  /-- There are no tokens. -/
  | emptyExpression
  /-- The character has no place in formulas. -/
  | invalidCharacter (character : Char) (position : Nat)
  /-- The tokens end where a formula goes on. -/
  | unexpectedEndOfInput
  /-- The token cannot stand where it does. -/
  | unexpectedToken (token : String) (position : Nat)
  /-- A closing parenthesis without an opening one, or at the end of the text
  an opening one without a closing one. -/
  | unmatchedParentheses (position : Nat)
  /-- The called name is not in the function table. -/
  | unknownFunction (name : String) (position : Nat)
  /-- The grammar knows the operator and the operator table does not. -/
  | unknownOperator (symbol : String) (position : Nat)
  /-- The call has another number of arguments than the function takes. -/
  | argumentCountMismatch (name : String) (expected found : Nat)
  /-- An argument of the call is empty. -/
  | missingArgument (name : String) (position : Nat)
  /-- The literal is no number under the convention. -/
  | numericFormat (literal : String) (position : Nat)
deriving DecidableEq

namespace CompileError

/-- The families of causes. -/
inductive Kind where
  | invalidEquation
  | unmatchedParentheses
  | invalidFunction
  | invalidOperator
  | argumentCount
  | numericFormat
deriving DecidableEq

/-- The family of a cause. -/
def kind : CompileError → Kind
  | emptyExpression | invalidCharacter .. | unexpectedEndOfInput
  | unexpectedToken .. => .invalidEquation
  | unmatchedParentheses .. => .unmatchedParentheses
  | unknownFunction .. => .invalidFunction
  | unknownOperator .. => .invalidOperator
  | argumentCountMismatch .. | missingArgument .. => .argumentCount
  | numericFormat .. => .numericFormat

/-- The text shown for the error. -/
def message : CompileError → String
  | emptyExpression => "Invalid equation: the expression is empty."
  | invalidCharacter c p =>
    s!"Invalid equation: unexpected character '{c}' at offset {p}."
  | unexpectedEndOfInput => "Invalid equation: unexpected end of input."
  | unexpectedToken t p =>
    s!"Invalid equation: unexpected token '{t}' at offset {p}."
  | unmatchedParentheses p => s!"Unmatched parentheses at offset {p}."
  | unknownFunction n p => s!"Function '{n}' not found (offset {p})."
  | unknownOperator s p => s!"Invalid operator '{s}' at offset {p}."
  | argumentCountMismatch n e f =>
    s!"Function '{n}' expects {e} argument(s) but {f} were supplied."
  | missingArgument n p =>
    s!"Function '{n}' is missing an argument at offset {p}."
  | numericFormat l p => s!"Invalid number format '{l}' at offset {p}."

end CompileError

end Formulary
