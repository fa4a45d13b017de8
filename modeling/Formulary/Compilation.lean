import Formulary.Grammar.Parse
import Formulary.Scope
import Formulary.Token.Lexer

/-!
# Compilation

Compiling a text makes its tokens, reads them as a formula, declares the
variables that the reading passed, and binds the formula to their cells.  The
declarations stay where the reading failed; a text without tokens declares
nothing.

* `Scope.adopt` takes over what a rule of the grammar made of its tokens;
* `Scope.compileTokens` and `Scope.compile` go from tokens and from text.
-/

namespace Formulary.Scope

/-- Declares the variables that an outcome mentions and binds its formula. -/
def adopt (s : Scope) (o : Outcome Formula) :
    Except CompileError BoundTree × Scope :=
  let declared := s.declareAll o.mentions
  (o.result.map declared.bind, declared)

/-- Compiles a token list. -/
def compileTokens (s : Scope) (d : Dialect) (tokens : List Token) :
    Except CompileError BoundTree × Scope :=
  s.adopt (d.parse tokens)

/-- Compiles a text. -/
def compile (s : Scope) (d : Dialect) (text : String) :
    Except CompileError BoundTree × Scope :=
  match d.convention.tokenize text with
  | .ok tokens => s.compileTokens d tokens
  | .error error => (.error error, s)

end Formulary.Scope
