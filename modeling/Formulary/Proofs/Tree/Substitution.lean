import Formulary.Proofs.Tree

/-!
# Trees in place of variables

Trees may stand in place of the variables of another tree.  The value of the whole
is the value of the outer tree, where each variable has the value of the tree
that stands in its place.

* `Tree.graft` puts a tree in place of every variable, and `Tree.substitute` in
  place of those with a certain name;
* `Tree.eval_graft` and `Tree.eval_substitute` give the values.
-/

namespace Formulary.Tree

variable {α β : Type}

mutual

/-- Puts a tree in place of each variable. -/
def graft (f : α → Tree β) : Tree α → Tree β
  | constant value => constant value
  | var leaf => f leaf
  | negate operand => negate (operand.graft f)
  | binary operator left right => binary operator (left.graft f) (right.graft f)
  | call name function arguments => call name function (graftAll f arguments)

/-- The same in each of several trees. -/
def graftAll (f : α → Tree β) : List (Tree α) → List (Tree β)
  | [] => []
  | tree :: rest => tree.graft f :: graftAll f rest

end

/-- Puts a formula in place of each variable with the name. -/
def substitute (formula : Formula) (name : String) (new : Formula) : Formula :=
  formula.graft fun leaf => if leaf = name then new else var leaf

/-- As many trees as before. -/
@[simp]
theorem length_graftAll (f : α → Tree β) (trees : List (Tree α)) :
    (graftAll f trees).length = trees.length := by
  induction trees with
  | nil => rfl
  | cons tree rest ih => rw [graftAll, List.length_cons, List.length_cons, ih]

mutual

/-- The value of a tree with others in it is its value under theirs. -/
theorem eval_graft {f : α → Tree β} {valueOf : β → Float} {values : α → Float}
    (h : ∀ leaf, (f leaf).eval valueOf = some (values leaf)) (tree : Tree α) :
    (tree.graft f).eval valueOf = tree.eval values := by
  match tree with
  | constant _ => simp only [graft, eval]
  | var leaf => simp only [graft, eval, h leaf]
  | negate operand => simp only [graft, eval, eval_graft h operand]
  | binary _ left right =>
    simp only [graft, eval, eval_graft h left, eval_graft h right]
  | call _ _ arguments => simp only [graft, eval, evalAll_graftAll h arguments]

theorem evalAll_graftAll {f : α → Tree β} {valueOf : β → Float}
    {values : α → Float}
    (h : ∀ leaf, (f leaf).eval valueOf = some (values leaf))
    (trees : List (Tree α)) :
    evalAll valueOf (graftAll f trees) = evalAll values trees := by
  match trees with
  | [] => simp only [graftAll, evalAll]
  | tree :: rest =>
    simp only [graftAll, evalAll, eval_graft h tree, evalAll_graftAll h rest]

end

/-- **Substituting is assigning.**  A formula in place of a variable has the effect
of its value there. -/
theorem eval_substitute {name : String} {new : Formula} {valueOf : String → Float}
    {value : Float} (h : new.eval valueOf = some value) (formula : Formula) :
    (formula.substitute name new).eval valueOf =
      formula.eval fun leaf => if leaf = name then value else valueOf leaf := by
  refine eval_graft (fun leaf => ?_) formula
  by_cases hleaf : leaf = name
  · rw [if_pos hleaf, if_pos hleaf, h]
  · rw [if_neg hleaf, if_neg hleaf, eval]

end Formulary.Tree
