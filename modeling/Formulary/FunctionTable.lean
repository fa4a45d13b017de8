import Formulary.Callable
import Formulary.Dictionary

/-!
# Function tables

A function table says what the names that formulas call stand for.  A name has
one function, the last one registered.
-/

namespace Formulary

/-- Functions under their names. -/
abbrev FunctionTable := Dictionary Callable

namespace FunctionTable

/-- The table of the built-in functions. -/
def standard : FunctionTable :=
  .ofList Callable.builtins

/-- Registers a function under a name, and gives back the function that had the
name before. -/
def register (table : FunctionTable) (name : String) (function : Callable) :
    Option Callable × FunctionTable :=
  (table.find? name, table.insert name function)

end FunctionTable

end Formulary
