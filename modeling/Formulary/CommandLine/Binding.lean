import Formulary.Binary64.Notation
import Formulary.Text.WhiteSpace

/-!
# Bindings on the command line

A binding assigns a number to a variable: a name, an equals sign, a value.  The
first equals sign is the one that counts, and white space around the name and
the value does not.
-/

namespace Formulary.CommandLine

/-- A variable with its value. -/
structure Binding where
  name : String
  value : Float

/-- Why a text is no binding. -/
inductive BindingError where
  /-- There is no equals sign in the text. -/
  | unassigned (text : String)
  /-- What follows the equals sign is no number. -/
  | invalidValue (name : String) (cause : Binary64.NotationError)
deriving DecidableEq

/-- The text shown for the error. -/
def BindingError.message : BindingError → String
  | unassigned text => s!"expected NAME=VALUE, got '{text}'"
  | invalidValue name cause => s!"invalid value for '{name}': {cause.message}"

/-- Reads a binding. -/
def Binding.ofText (text : String) : Except BindingError Binding :=
  let name := String.ofList (text.toList.takeWhile (· ≠ '='))
  match text.toList.dropWhile (· ≠ '=') with
  | [] => .error (.unassigned text)
  | _ :: value =>
    match Binary64.ofText (Text.trim (String.ofList value)) with
    | .ok number => .ok { name := Text.trim name, value := number }
    | .error cause => .error (.invalidValue name cause)

end Formulary.CommandLine
