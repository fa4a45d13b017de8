import Formulary.FunctionTable
import Formulary.Tree

/-!
# Functions of other tables

A tree holds the functions that it calls.  With the functions of another table in
their place it calls others under the same names, while its nodes, their order
and its display form stay as they are.

* `Tree.relink` takes the functions from another table;
* `Tree.text_relink` says that the display form does not show this.
-/

namespace Formulary.Tree

variable {α β : Type}

mutual

/-- Calls what the table has under the names that are called. -/
def relink (functions : FunctionTable) : Tree α → Tree α
  | constant value => constant value
  | var leaf => var leaf
  | negate operand => negate (operand.relink functions)
  | binary operator left right =>
    binary operator (left.relink functions) (right.relink functions)
  | call name function arguments =>
    call name ((functions.find? name).getD function)
      (relinkAll functions arguments)

/-- The same in each of several trees. -/
def relinkAll (functions : FunctionTable) : List (Tree α) → List (Tree α)
  | [] => []
  | tree :: rest => tree.relink functions :: relinkAll functions rest

end

/-- As many trees as before. -/
@[simp]
theorem length_relinkAll (functions : FunctionTable) (trees : List (Tree α)) :
    (relinkAll functions trees).length = trees.length := by
  induction trees with
  | nil => rfl
  | cons tree rest ih => rw [relinkAll, List.length_cons, List.length_cons, ih]

mutual

/-- The display form shows names and no functions. -/
theorem text_relink (functions : FunctionTable) (nameOf : α → String)
    (tree : Tree α) : (tree.relink functions).text nameOf = tree.text nameOf := by
  match tree with
  | constant _ => simp only [relink]
  | var _ => simp only [relink]
  | negate operand =>
    simp only [relink, text, text_relink functions nameOf operand]
  | binary _ left right =>
    simp only [relink, text, text_relink functions nameOf left,
      text_relink functions nameOf right]
  | call _ _ arguments =>
    simp only [relink, text, textAll_relinkAll functions nameOf arguments]

theorem textAll_relinkAll (functions : FunctionTable) (nameOf : α → String)
    (trees : List (Tree α)) :
    textAll nameOf (relinkAll functions trees) = textAll nameOf trees := by
  match trees with
  | [] => simp only [relinkAll]
  | tree :: rest =>
    simp only [relinkAll, textAll, text_relink functions nameOf tree,
      textAll_relinkAll functions nameOf rest]

end

end Formulary.Tree
