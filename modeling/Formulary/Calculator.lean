import Formulary.Compilation

/-!
# Calculators

A calculator holds an expression, what its meaning depends on, its variables,
and the tree of the expression once it has been compiled.  A new expression
drops the tree.  A change of a variable shows in the next value, since the tree
reads the variable's cell; a change of a function shows only in the next
compilation, since the tree holds the functions it was compiled with.

The cells of the variables lie in a memory outside, which several calculators
can share.  Every operation that may change cells takes the memory and gives it
back.

* `Calculator.compile` builds the tree anew, and on failure there is none;
* `Calculator.calculate` builds the tree only where there is none;
* `evaluate` is the value of a text on its own.
-/

namespace Formulary

/-- An expression with everything that its value depends on. -/
structure Calculator where
  expression : String := ""
  convention : Convention := .invariant
  functions : FunctionTable := .standard
  store : Store := .empty
  tree : Option BoundTree := none

/-- Why there is no value. -/
inductive CalculationError where
  /-- The expression does not compile. -/
  | uncompiled (cause : CompileError)
  /-- A call in the tree has the wrong number of arguments. -/
  | wrongCall
deriving DecidableEq

/-- The text shown for the error. -/
def CalculationError.message : CalculationError → String
  | uncompiled cause => cause.message
  | wrongCall => "A function was called with the wrong number of arguments."

namespace Calculator

/-- What the meaning of the expression depends on. -/
def dialect (c : Calculator) : Dialect where
  convention := c.convention
  functions := c.functions

/-- The variables with their cells in the memory. -/
def scope (c : Calculator) (m : Memory) : Scope where
  store := c.store
  memory := m

/-- Whether the expression has been compiled. -/
def isCompiled (c : Calculator) : Bool :=
  c.tree.isSome

/-- Takes another expression. -/
def setExpression (c : Calculator) (text : String) : Calculator :=
  { c with expression := text, tree := none }

/-- Registers a function.  The tree keeps the one it was compiled with. -/
def addFunction (c : Calculator) (name : String) (function : Callable) :
    Calculator :=
  { c with functions := (FunctionTable.register c.functions name function).2 }

/-- Assigns to a variable. -/
def setVariable (c : Calculator) (m : Memory) (name : String) (value : Float) :
    Calculator × Memory :=
  let assigned := (c.scope m).set name value
  ({ c with store := assigned.store }, assigned.memory)

/-- The value of a variable. -/
def get? (c : Calculator) (m : Memory) (name : String) : Option Float :=
  (c.scope m).get? name

/-- Compiles the expression without keeping the tree. -/
def buildTree (c : Calculator) (m : Memory) :
    Except CompileError BoundTree × Calculator × Memory :=
  let (result, scope) := (c.scope m).compile c.dialect c.expression
  (result, { c with store := scope.store }, scope.memory)

/-- Compiles the expression and keeps the tree in place of the one before. -/
def compile (c : Calculator) (m : Memory) :
    Except CompileError Unit × Calculator × Memory :=
  match c.buildTree m with
  | (.ok tree, built, memory) => (.ok (), { built with tree := some tree }, memory)
  | (.error error, built, memory) =>
    (.error error, { built with tree := none }, memory)

/-- The value of a tree, where it has one. -/
def valueOf (m : Memory) (tree : BoundTree) : Except CalculationError Float :=
  match m.eval tree with
  | some value => .ok value
  | none => .error .wrongCall

/-- The value of the expression, which is compiled first where it has not
been. -/
def calculate (c : Calculator) (m : Memory) :
    Except CalculationError Float × Calculator × Memory :=
  match c.tree with
  | some tree => (valueOf m tree, c, m)
  | none =>
    match c.buildTree m with
    | (.ok tree, built, memory) =>
      (valueOf memory tree, { built with tree := some tree }, memory)
    | (.error error, built, memory) => (.error (.uncompiled error), built, memory)

end Calculator

/-- The value of a text under the invariant convention, with the built-in
functions and all variables zero. -/
def evaluate (text : String) : Except CalculationError Float :=
  (Calculator.calculate { expression := text } .empty).1

end Formulary
