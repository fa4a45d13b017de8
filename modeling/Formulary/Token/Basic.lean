import Formulary.Convention

/-!
# Tokens

A token is a stretch of text with the category of its characters and the byte
offset where it starts.  The grammar asks of a token whether it is a delimiter
with a certain text, or whether it is a number or a name.

* `Convention.classify` gives the category of a single character;
* `Token.isDelimiter` is the grammar's question;
* `Token.spells` and `Token.sameText` compare texts and nothing else.
-/

namespace Formulary

/-- What a character, or a stretch of characters, can be part of. -/
inductive Category where
  | number
  | letter
  | delimiter
  | whitespace
  | undefined
deriving DecidableEq

/-- Characters that stand for themselves in a formula. -/
def delimiters : List Char := "+-*/^%()<>=&|!,;".toList

/-- Operators written with two delimiters. -/
def compoundOperators : List String := ["&&", "||", "<=", ">=", "!=", "<>", "=="]

/-- The characters that separate tokens and are part of none: space, tabulator,
carriage return and line feed. -/
def isBlank (c : Char) : Bool :=
  c == ' ' || c == '\t' || c == '\r' || c == '\n'

/-- The characters that a name starts with. -/
def startsName (c : Char) : Bool :=
  c.isAlpha || c == '_'

/-- The characters that a name goes on with. -/
def continuesName (c : Char) : Bool :=
  startsName c || c.isDigit

/-- The category of a character.  Separators count as numbers before all else,
also one that is a delimiter without the convention. -/
def Convention.classify (convention : Convention) (c : Char) : Category :=
  if isBlank c then .whitespace
  else if c.isDigit || convention.isSeparator c then .number
  else if startsName c then .letter
  else if delimiters.contains c then .delimiter
  else .undefined

/-- A stretch of text. -/
structure Token where
  text : String
  category : Category
  /-- The byte offset in the text where the token starts. -/
  position : Nat
deriving DecidableEq

namespace Token

/-- Whether the token is the delimiter with the given text. -/
def isDelimiter (token : Token) (symbol : String) : Bool :=
  token.category == .delimiter && token.text == symbol

/-- Whether the token has the given text. -/
def spells (token : Token) (text : String) : Bool :=
  token.text == text

/-- Whether two tokens have one text; where they stand and what they are does
not matter. -/
def sameText (a b : Token) : Bool :=
  a.spells b.text

end Token

end Formulary
