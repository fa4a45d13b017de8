/-!
# Cells

A cell holds the current value of a variable.  Everything that knows a cell
reads what was last written to it, so a tree that holds cells follows later
assignments.  Cells are never given back, and a new one is different from all
that were there before.
-/

namespace Formulary

/-- A place for a number. -/
structure Cell where
  address : Nat
deriving DecidableEq

/-- The numbers in all cells. -/
structure Memory where
  values : Array Float

namespace Memory

/-- The memory without cells. -/
def empty : Memory where
  values := #[]

/-- The cell that the memory has next. -/
def fresh (m : Memory) : Cell where
  address := m.values.size

/-- The memory with one cell more, which holds zero. -/
def grow (m : Memory) : Memory where
  values := m.values.push 0.0

/-- The number in a cell. -/
def read (m : Memory) (cell : Cell) : Float :=
  m.values.getD cell.address 0.0

/-- The memory with another number in the cell. -/
def write (m : Memory) (cell : Cell) (value : Float) : Memory where
  values := m.values.setIfInBounds cell.address value

end Memory

end Formulary
