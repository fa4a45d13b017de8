import Formulary.CompileError
import Formulary.Token.Piece

/-!
# From text to tokens

The pieces of a text become tokens under a convention, which decides what joins
a number.  A number starts with digits or the decimal separator and goes on
over digits, decimal separators and group separators, where a group separator
only counts if a digit or another separator touches it on the right.  Names and
single delimiters are tokens as they are.  At last, neighbouring delimiters
that spell a compound operator become one token.

Parentheses are counted on the way, so that a text with an unbalanced one has
no tokens, and neither has a text with a character that fits nowhere.  The
leftmost such fault is the one reported.

* `Convention.assemble` makes tokens of pieces;
* `Token.joinCompounds` makes compound operators;
* `Convention.tokenize` is the whole way.
-/

namespace Formulary

/-- The number of bytes that the characters take in UTF-8. -/
def byteLength : List Char → Nat
  | [] => 0
  | c :: rest => c.utf8Size + byteLength rest

namespace Convention

/-- Whether a group separator before these pieces is part of a number. -/
def groupGoesOn (convention : Convention) : List Piece → Bool
  | .digits _ :: _ => true
  | .symbol c :: _ => convention.isSeparator c
  | _ => false

/-- How a number goes on in the pieces that follow its start: its further
characters, and the pieces after it. -/
def continueNumber (convention : Convention) :
    List Piece → List Char × List Piece
  | .digits run :: rest =>
    let (more, after) := convention.continueNumber rest
    (run ++ more, after)
  | .symbol c :: rest =>
    if c = convention.decimal ∨
        (c = convention.group ∧ convention.groupGoesOn rest) then
      let (more, after) := convention.continueNumber rest
      (c :: more, after)
    else ([], .symbol c :: rest)
  | pieces => ([], pieces)

/-- A number ends no later than its pieces do. -/
theorem length_continueNumber_le (convention : Convention)
    (pieces : List Piece) :
    (convention.continueNumber pieces).2.length ≤ pieces.length := by
  fun_induction convention.continueNumber pieces <;> simp_all <;> omega

/-- How many parentheses are open after a character, or nothing where it
closes one too many. -/
def openAfter? (depth : Nat) (c : Char) : Option Nat :=
  if c = '(' then some (depth + 1)
  else if c = ')' then if depth = 0 then none else some (depth - 1)
  else some depth

/-- The tokens of the pieces, of which the first starts at the given position
with so many parentheses open.  A separator that is in no number is a delimiter
like any other. -/
def assemble (convention : Convention) (position depth : Nat) :
    List Piece → Except CompileError (List Token)
  | [] =>
    if depth = 0 then .ok [] else .error (.unmatchedParentheses position)
  | .blanks run :: rest =>
    convention.assemble (position + byteLength run) depth rest
  | .name run :: rest =>
    (convention.assemble (position + byteLength run) depth rest).map
      (⟨String.ofList run, .letter, position⟩ :: ·)
  | .digits run :: rest =>
    let tail := convention.continueNumber rest
    let literal := run ++ tail.1
    (convention.assemble (position + byteLength literal) depth tail.2).map
      (⟨String.ofList literal, .number, position⟩ :: ·)
  | .symbol c :: rest =>
    if c = convention.decimal then
      let tail := convention.continueNumber rest
      let literal := c :: tail.1
      (convention.assemble (position + byteLength literal) depth tail.2).map
        (⟨String.ofList literal, .number, position⟩ :: ·)
    else
      match convention.classify c with
      | .delimiter | .number =>
        match openAfter? depth c with
        | none => .error (.unmatchedParentheses position)
        | some depth =>
          (convention.assemble (position + c.utf8Size) depth rest).map
            (⟨String.singleton c, .delimiter, position⟩ :: ·)
      | _ => .error (.invalidCharacter c position)
termination_by pieces => pieces.length
decreasing_by
  all_goals
    simp only [List.length_cons]
    first
      | exact Nat.lt_succ_self _
      | exact Nat.lt_succ_of_le (length_continueNumber_le _ _)

end Convention

namespace Token

/-- Whether two tokens touch and spell a compound operator together. -/
def joins (a b : Token) : Bool :=
  a.category == .delimiter && b.category == .delimiter &&
    a.position + a.text.utf8ByteSize == b.position &&
    compoundOperators.contains (a.text ++ b.text)

/-- Makes one token of two that join, from left to right. -/
def joinCompounds : List Token → List Token
  | a :: b :: rest =>
    if a.joins b then
      ⟨a.text ++ b.text, .delimiter, a.position⟩ :: joinCompounds rest
    else a :: joinCompounds (b :: rest)
  | tokens => tokens

end Token

/-- The tokens of a text, or its leftmost fault. -/
def Convention.tokenize (convention : Convention) (text : String) :
    Except CompileError (List Token) :=
  (convention.assemble 0 0 (Piece.ofChars text.toList)).map Token.joinCompounds

end Formulary
