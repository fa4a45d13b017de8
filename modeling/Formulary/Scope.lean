import Formulary.Dictionary
import Formulary.Memory
import Formulary.Tree

/-!
# Variables and their cells

A store gives names to cells.  Together with the memory that holds them it is a
scope, in which variables are declared, assigned and read.  A name keeps the
cell that it was first given.

* `Scope.declare` gives a name its cell, a new one with zero in it, and
  `Scope.cellOf` is that cell;
* `Scope.bind` turns the names in a formula into variables of the scope.
-/

namespace Formulary

/-- Cells under the names of variables. -/
abbrev Store := Dictionary Cell

/-- A variable of some store: the name and the cell it stands for. -/
structure Variable where
  name : String
  cell : Cell
deriving DecidableEq

/-- A formula whose variables have cells. -/
abbrev BoundTree := Tree Variable

namespace Memory

/-- The value of a tree whose variables have cells in the memory. -/
def eval (m : Memory) (tree : BoundTree) : Option Float :=
  tree.eval fun v => m.read v.cell

end Memory

/-- The display form of a tree whose variables have cells. -/
def BoundTree.text (tree : BoundTree) : String :=
  Tree.text Variable.name tree

/-- A store and the memory of its cells. -/
structure Scope where
  store : Store
  memory : Memory

namespace Scope

/-- The scope without variables and cells. -/
def empty : Scope where
  store := .empty
  memory := .empty

/-- The cell that a name stands for, or the one it gets when declared. -/
def cellOf (s : Scope) (name : String) : Cell :=
  (s.store.find? name).getD s.memory.fresh

/-- Gives a name a new cell, unless it has one. -/
def declare (s : Scope) (name : String) : Scope :=
  if s.store.contains name then s
  else
    { store := s.store.insert name s.memory.fresh
      memory := s.memory.grow }

/-- Declares names from left to right. -/
def declareAll (s : Scope) (names : List String) : Scope :=
  names.foldl declare s

/-- Assigns to a variable, and declares it where it is new. -/
def set (s : Scope) (name : String) (value : Float) : Scope :=
  let declared := s.declare name
  { declared with memory := declared.memory.write (s.cellOf name) value }

/-- The value of a variable that has been declared. -/
def get? (s : Scope) (name : String) : Option Float :=
  (s.store.find? name).map s.memory.read

/-- The variables with their values, in the order of their names. -/
def assignments (s : Scope) : List (String × Float) :=
  s.store.sorted.map fun (name, cell) => (name, s.memory.read cell)

/-- The formula with the scope's variables in place of their names. -/
def bind (s : Scope) (formula : Formula) : BoundTree :=
  formula.map fun name => { name, cell := s.cellOf name }

end Scope

end Formulary
