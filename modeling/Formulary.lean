import Formulary.Text.WhiteSpace
import Formulary.Convention
import Formulary.Binary64.Magnitude
import Formulary.Binary64.Decimal
import Formulary.Binary64.Arithmetic
import Formulary.Numeral
import Formulary.CompileError
import Formulary.Token.Basic
import Formulary.Token.Piece
import Formulary.Token.Lexer
import Formulary.Dictionary
import Formulary.Operator
import Formulary.Callable
import Formulary.FunctionTable
import Formulary.Tree
import Formulary.Memory
import Formulary.Scope
import Formulary.Grammar.Level
import Formulary.Grammar.Reading
import Formulary.Grammar.Rules
import Formulary.Grammar.Parse
import Formulary.Compilation
import Formulary.Calculator
import Formulary.Log
import Formulary.Session
import Formulary.StoreFamily
import Formulary.Binary64.Notation
import Formulary.CommandLine.Binding
import Formulary.CommandLine.Arguments
import Formulary.CommandLine.Report
import Formulary.Main
import Formulary.Proofs.Token.Character
import Formulary.Proofs.Token.Scan
import Formulary.Proofs.Token.Fault
import Formulary.Proofs.Token.Assembly
import Formulary.Proofs.Token.Tokenization
import Formulary.Proofs.Grammar.Derivation
import Formulary.Proofs.Grammar.Outcome
import Formulary.Proofs.Grammar.Soundness
import Formulary.Proofs.Grammar.Completeness
import Formulary.Proofs.Grammar.Exactness
import Formulary.Proofs.Grammar.Splitting
import Formulary.Proofs.Scope
import Formulary.Proofs.Tree.Subtree
import Formulary.Proofs.Tree.Evaluation
import Formulary.Proofs.Tree.Value
import Formulary.Proofs.Grammar.Node
import Formulary.Proofs.Calculator.Reference
import Formulary.Proofs.Calculator.Refinement
import Formulary.Proofs.Calculator.Change
import Formulary.Proofs.Session.History
import Formulary.Proofs.Session.Coherence
import Formulary.Proofs.Session.Evaluation
import Formulary.Proofs.Grammar.Occurrence
import Formulary.Proofs.Grammar.Progress
import Formulary.Proofs.Token.Lexeme
import Formulary.Proofs.Grammar.Tracking
import Formulary.Proofs.Scope.Declaration
import Formulary.Proofs.Binary64.Shortest
import Formulary.Proofs.Numeral
import Formulary.Proofs.Token.Spelling
import Formulary.Proofs.Display.Tokens
import Formulary.Proofs.Display.Grammar
import Formulary.Proofs.Display.Misreading
import Formulary.Proofs.Display.RoundTrip
import Formulary.Proofs.Display.Readability
import Formulary.Proofs.Grammar.Application
import Formulary.Proofs.Grammar.Exhaustion
import Formulary.Proofs.Grammar.Operation
import Formulary.Proofs.Scope.Location
import Formulary.Proofs.Tree.Relinking
import Formulary.Proofs.Grammar.Relinking
import Formulary.Proofs.Scope.Independence
import Formulary.Proofs.Grammar.Likeness
import Formulary.Proofs.Token.Layout
import Formulary.Proofs.Token.Coverage
import Formulary.Proofs.Token.Revision
import Formulary.Proofs.Scope.Spacing
import Formulary.Proofs.Tree.Substitution
import Formulary.Proofs.Grammar.Substitution
import Formulary.Proofs.Scope.Substitution
import Formulary.Proofs.Token.Translation
import Formulary.Proofs.Scope.Translation
import Formulary.Proofs.Numeral.Literal
import Formulary.Proofs.Scope.Literal
import Formulary.Proofs.Grammar.Continuation
import Formulary.Proofs.Scope.Call
import Formulary.Proofs.StoreFamily.Lineage
import Formulary.Proofs.StoreFamily.Sharing
import Formulary.Proofs.Grammar.Termination
import Formulary.Proofs.Grammar.Stopping
import Formulary.Proofs.Scope.Locality
import Formulary.Proofs.CommandLine.Assignment
import Formulary.Proofs.CommandLine.Run
