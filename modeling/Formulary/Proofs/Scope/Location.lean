import Formulary.Proofs.Grammar.Exhaustion
import Formulary.Proofs.Token.Coverage

/-!
# Where errors point

An error with a byte offset points into the text at what it names.  A fault that
the text has before it has tokens is a character of it, or a parenthesis that is
missing at its end.  Every other error is about a token: the one that stands
where it cannot, the name of a function that is not known, the literal that is no
number, or the separator or parenthesis that stands where an argument should.
These are tokens of the text, so their positions are where their texts stand.

A rule that reads a call was told the name before it, which is no longer among
its own tokens; the name comes from an application on the way, and
`Dialect.Applies.letter` follows it back.  For the other errors the token is at
the front of what the application was given.

* `CompileError.Names` says which token an error is about;
* `Convention.Locates` says that an error points at what it names;
* `Dialect.exists_names_of_raises` finds the token of an error;
* `Scope.compile_locates` is the statement for texts.
-/

namespace Formulary

/-- The byte offset of an error. -/
def CompileError.position? : CompileError → Option Nat
  | invalidCharacter _ position | unexpectedToken _ position
  | unmatchedParentheses position | unknownFunction _ position
  | unknownOperator _ position | missingArgument _ position
  | numericFormat _ position => some position
  | emptyExpression | unexpectedEndOfInput | argumentCountMismatch .. => none

/-- The error is about the token, and gives its position. -/
inductive CompileError.Names : CompileError → Token → Prop where
  | misplaced {token : Token} :
      Names (.unexpectedToken token.text token.position) token
  | unregistered {name : Token} (letters : name.category = .letter) :
      Names (.unknownFunction name.text name.position) name
  | malformed {token : Token} (digits : token.category = .number) :
      Names (.numericFormat token.text token.position) token
  /-- The token stands where an argument of the function should begin. -/
  | missing {name : String} {token : Token}
      (ends : token.isDelimiter argumentSeparator ∨ token.isDelimiter ")") :
      Names (.missingArgument name token.position) token

/-- If the error has an offset, the text has there what the error names. -/
inductive Convention.Locates (convention : Convention) (text : String) :
    CompileError → Prop where
  | nowhere {error : CompileError} (unplaced : error.position? = none) :
      Locates convention text error
  | character {c : Char} {position : Nat}
      (stands : StandsAt text.toList [c] position) :
      Locates convention text (.invalidCharacter c position)
  | closing {position : Nat} (stands : StandsAt text.toList [')'] position) :
      Locates convention text (.unmatchedParentheses position)
  /-- The parenthesis is missing at the end. -/
  | opening : Locates convention text (.unmatchedParentheses text.utf8ByteSize)
  | token {tokens : List Token} {token : Token} {error : CompileError}
      (accepted : convention.tokenize text = .ok tokens)
      (mem : token ∈ tokens) (names : error.Names token)
      (stands : StandsAt text.toList token.text.toList token.position) :
      Locates convention text error

/-- The name of the call that a rule reads. -/
def Rule.name? : Rule → Option Token
  | .named name | .arguments name | .argumentList name | .separated name _ =>
    some name
  | .whole | .phrase _ | .further _ _ | .closing _ => none

namespace Dialect

variable {d : Dialect} {a b : Application} {tokens : List Token}
  {error : CompileError}

/-- A rule is told a name that stands before its tokens, or that the rule before
it was told. -/
theorem Applies.letter (h : d.Applies a b) {name : Token}
    (hname : b.rule.name? = some name) :
    a.rule.name? = some name ∨ name ∈ a.tokens ∧ name.category = .letter := by
  cases h with
  | named letters =>
    obtain rfl := Option.some.inj hname
    exact Or.inr ⟨List.mem_cons_self, letters⟩
  | arguments | argumentList | separated | next => exact Or.inl hname
  | whole | operand | further | rightOperand | again | unsigned | sign | group
  | closing | argument => cases hname

/-- Every name that a rule is told on the way is one of the tokens. -/
theorem letter_of_reaches
    (hbalanced : tokens.countP (·.isDelimiter "(") =
      tokens.countP (·.isDelimiter ")"))
    (h : Relation.ReflTransGen d.Applies ⟨.whole, tokens⟩ a) {name : Token}
    (hname : a.rule.name? = some name) :
    name ∈ tokens ∧ name.category = .letter := by
  induction h with
  | refl => cases hname
  | tail hreaches happlies ih =>
    rcases happlies.letter hname with hbefore | ⟨hmem, hletter⟩
    · exact ih hbefore
    · have hguarded := Application.Guarded.of_reaches hbalanced hreaches
      exact ⟨hguarded.suffix.subset hmem, hletter⟩

/-- An error with an offset that is raised on the way is about one of the
tokens. -/
theorem exists_names_of_raises
    (hbalanced : tokens.countP (·.isDelimiter "(") =
      tokens.countP (·.isDelimiter ")"))
    (ha : Relation.ReflTransGen d.Applies ⟨.whole, tokens⟩ a)
    (h : d.Raises a error) (hplaced : error.position? ≠ none) :
    ∃ token ∈ tokens, error.Names token := by
  have hguarded := Application.Guarded.of_reaches hbalanced ha
  have hmem : ∀ token ∈ a.tokens, token ∈ tokens := fun _ htoken =>
    hguarded.suffix.subset htoken
  cases h with
  | empty | nothing | unclosed | miscounted | unended => exact absurd rfl hplaced
  | leftOver nonempty read =>
    have hsuffix := (passes_of_read read).suffix
    exact ⟨_, hmem _ (hsuffix.subset List.mem_cons_self), .misplaced⟩
  | literal digits malformed =>
    exact ⟨_, hmem _ List.mem_cons_self, .malformed digits⟩
  | noAtom | notClosed | notEnded =>
    exact ⟨_, hmem _ List.mem_cons_self, .misplaced⟩
  | unknown opens unregistered =>
    obtain ⟨hname, hletter⟩ := letter_of_reaches hbalanced ha rfl
    exact ⟨_, hname, .unregistered hletter⟩
  | noArgument =>
    exact absurd .argument hguarded.not_runsOut
  | emptyArgument ends =>
    refine ⟨_, hmem _ List.mem_cons_self, .missing ?_⟩
    simpa using ends

end Dialect

/-- The leftmost fault of a text is where it is reported. -/
theorem Convention.LeftmostFault.locates {convention : Convention}
    {text : String} {error : CompileError}
    (h : convention.LeftmostFault text.toList error) :
    convention.Locates text error := by
  cases h with
  | @character front c rest split before undefined =>
    exact .character ⟨front, rest, split, rfl⟩
  | @closing front rest split before exceeds =>
    exact .closing ⟨front, rest, split, rfl⟩
  | opening before stays =>
    rw [byteLength_toList]
    exact .opening

/-- **Errors point at what they name.**  If a text does not compile and the error
has a byte offset, then a character of the text begins there, and the text goes on
with what the error names; at the end of the text a parenthesis may be missing.
An error about a token gives the position of a token that the text has. -/
theorem Scope.compile_locates (s : Scope) (d : Dialect) {text : String}
    {error : CompileError} (failed : (s.compile d text).1 = .error error) :
    d.convention.Locates text error := by
  rw [compile] at failed
  cases htokens : d.convention.tokenize text with
  | error fault =>
    rw [htokens] at failed
    obtain rfl := Except.error.inj failed
    exact (Convention.tokenize_eq_error_iff.mp htokens).locates
  | ok tokens =>
    rw [htokens] at failed
    obtain ⟨a, ha, hraises⟩ := (s.compileTokens_eq_error_iff d tokens error).mp failed
    by_cases hplaced : error.position? = none
    · exact .nowhere hplaced
    · obtain ⟨token, hmem, hnames⟩ := Dialect.exists_names_of_raises
        (Convention.countP_tokenize htokens) ha hraises hplaced
      obtain ⟨bytes, hstands, hposition⟩ :=
        (Convention.Layout.of_tokenize htokens).stands hmem
      rw [Nat.zero_add] at hposition
      exact .token htokens hmem hnames (hposition ▸ hstands)

/-- A missing argument after a number with a separator of two bytes. -/
theorem Scope.compile_locates_missing :
    (empty.compile ⟨{ decimal := '·', group := ',' }, .standard⟩
        "max(1·5;)").1 = .error (.missingArgument "max" 9) ∧
      Convention.Locates { decimal := '·', group := ',' } "max(1·5;)"
        (.missingArgument "max" 9) := by
  have hfailed : (empty.compile ⟨{ decimal := '·', group := ',' }, .standard⟩
      "max(1·5;)").1 = .error (.missingArgument "max" 9) := by
    with_unfolding_all rfl
  have hlocates := compile_locates _ _ hfailed
  exact ⟨hfailed, hlocates⟩

end Formulary
