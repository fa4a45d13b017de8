import Formulary.Calculator

/-!
# Sessions

A session is several calculators at work on one memory, with a shelf of trees
taken from them.  A kept tree goes on reading the cells of the calculator that
it came from, whatever happens to that calculator's expression and functions.

* `Session.step` carries out one command on one calculator;
* `Session.run` carries out a list of them.
-/

namespace Formulary

/-- Calculators on one memory, and the trees kept under names. -/
structure Session where
  memory : Memory := .empty
  calculators : List Calculator := []
  kept : Dictionary BoundTree := .empty

namespace Session

/-- What a calculator can be told or asked. -/
inductive Command where
  | setExpression (text : String)
  | setVariable (name : String) (value : Float)
  | addFunction (name : String) (function : Callable)
  | compile
  | calculate
  /-- Asks for a variable's value. -/
  | valueOf (name : String)
  | hasFunction (name : String)
  | expression
  | convention
  /-- Asks for the display form of the tree. -/
  | tree
  /-- Puts the tree on the shelf. -/
  | keepTree (slot : String)
  /-- Asks for the value of a tree from the shelf. -/
  | evalKept (slot : String)

/-- What a command is answered with. -/
inductive Answer where
  | done
  | nothing
  | number (value : Float)
  | truth (value : Bool)
  | text (value : String)
  | separators (decimal group : Char)
  | uncompiled (error : CompileError)
  | wrongCall

/-- A value or the lack of one. -/
def Answer.ofOption : Option Float → Answer
  | some value => number value
  | none => nothing

/-- The result of a calculation. -/
def Answer.ofResult : Except CalculationError Float → Answer
  | .ok value => number value
  | .error (.uncompiled error) => uncompiled error
  | .error .wrongCall => wrongCall

/-- The session with another calculator at the index, and another memory. -/
def update (s : Session) (index : Nat) (calculator : Calculator)
    (memory : Memory) : Session :=
  { s with calculators := s.calculators.set index calculator, memory }

/-- Carries out a command on the calculator at the index, which is given. -/
def perform (s : Session) (index : Nat) (c : Calculator) :
    Command → Answer × Session
  | .setExpression text => (.done, s.update index (c.setExpression text) s.memory)
  | .setVariable name value =>
    let (assigned, memory) := c.setVariable s.memory name value
    (.done, s.update index assigned memory)
  | .addFunction name function =>
    (.done, s.update index (c.addFunction name function) s.memory)
  | .compile =>
    let (result, compiled, memory) := c.compile s.memory
    let answer := match result with
      | .ok () => .done
      | .error error => .uncompiled error
    (answer, s.update index compiled memory)
  | .calculate =>
    let (result, calculated, memory) := c.calculate s.memory
    (.ofResult result, s.update index calculated memory)
  | .valueOf name => (.ofOption (c.get? s.memory name), s)
  | .hasFunction name => (.truth (c.functions.contains name), s)
  | .expression => (.text c.expression, s)
  | .convention => (.separators c.convention.decimal c.convention.group, s)
  | .tree =>
    match c.tree with
    | some tree => (.text tree.text, s)
    | none => (.nothing, s)
  | .keepTree slot =>
    match c.tree with
    | some tree => (.done, { s with kept := s.kept.insert slot tree })
    | none => (.nothing, s)
  | .evalKept slot =>
    match s.kept.find? slot with
    | some tree => (.ofResult (Calculator.valueOf s.memory tree), s)
    | none => (.nothing, s)

/-- Carries out a command on one of the calculators. -/
def step (s : Session) (index : Nat) (command : Command) : Answer × Session :=
  match s.calculators[index]? with
  | some c => s.perform index c command
  | none => (.nothing, s)

/-- The session after a list of commands. -/
def run (s : Session) (commands : List (Nat × Command)) : Session :=
  commands.foldl (fun s (index, command) => (s.step index command).2) s

end Session

end Formulary
