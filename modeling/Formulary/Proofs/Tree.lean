import Formulary.Tree

/-!
# Leaves, values and replacement

The value of a formula depends on its variables alone, and replacing what
stands for them before evaluating is evaluating with other values.

* `Tree.eval_map` moves a replacement into the values, and `Tree.text_map` into
  the names that are displayed;
* `Tree.eval_congr` and `Tree.map_congr` look at the leaves and nothing else;
* `Tree.map_map_cancel` undoes a replacement.
-/

namespace Formulary.Tree

variable {α β : Type}

/-- Replacement in several trees is replacement in each of them. -/
theorem mapAll_eq_map (f : α → β) (trees : List (Tree α)) :
    mapAll f trees = trees.map (map f) := by
  induction trees with
  | nil => rfl
  | cons tree rest ih => rw [mapAll, ih, List.map_cons]

mutual

/-- The value after a replacement is the value under replaced values. -/
theorem eval_map (f : α → β) (valueOf : β → Float) (tree : Tree α) :
    (tree.map f).eval valueOf = tree.eval fun leaf => valueOf (f leaf) := by
  match tree with
  | constant _ => simp only [map, eval]
  | var _ => simp only [map, eval]
  | negate operand => simp only [map, eval, eval_map f valueOf operand]
  | binary _ left right =>
    simp only [map, eval, eval_map f valueOf left, eval_map f valueOf right]
  | call _ _ arguments => simp only [map, eval, evalAll_mapAll f valueOf arguments]

theorem evalAll_mapAll (f : α → β) (valueOf : β → Float)
    (trees : List (Tree α)) :
    evalAll valueOf (mapAll f trees) =
      evalAll (fun leaf => valueOf (f leaf)) trees := by
  match trees with
  | [] => simp only [mapAll, evalAll]
  | tree :: rest =>
    simp only [mapAll, evalAll, eval_map f valueOf tree,
      evalAll_mapAll f valueOf rest]

end

mutual

/-- The value depends on the values of the leaves. -/
theorem eval_congr {valueOf other : α → Float} (tree : Tree α)
    (h : ∀ leaf ∈ tree.leaves, valueOf leaf = other leaf) :
    tree.eval valueOf = tree.eval other := by
  match tree with
  | constant _ => simp only [eval]
  | var leaf => simp only [eval, h leaf (by simp [leaves])]
  | negate operand =>
    simp only [leaves] at h
    simp only [eval, eval_congr operand h]
  | binary _ left right =>
    simp only [leaves, List.mem_append] at h
    simp only [eval, eval_congr left fun leaf hleaf => h leaf (Or.inl hleaf),
      eval_congr right fun leaf hleaf => h leaf (Or.inr hleaf)]
  | call _ _ arguments =>
    simp only [leaves] at h
    simp only [eval, evalAll_congr arguments h]

theorem evalAll_congr {valueOf other : α → Float} (trees : List (Tree α))
    (h : ∀ leaf ∈ leavesAll trees, valueOf leaf = other leaf) :
    evalAll valueOf trees = evalAll other trees := by
  match trees with
  | [] => simp only [evalAll]
  | tree :: rest =>
    simp only [leavesAll, List.mem_append] at h
    simp only [evalAll, eval_congr tree fun leaf hleaf => h leaf (Or.inl hleaf),
      evalAll_congr rest fun leaf hleaf => h leaf (Or.inr hleaf)]

end

mutual

/-- A replacement replaces the leaves. -/
theorem leaves_map (f : α → β) (tree : Tree α) :
    (tree.map f).leaves = tree.leaves.map f := by
  match tree with
  | constant _ => simp only [map, leaves, List.map_nil]
  | var _ => simp only [map, leaves, List.map_cons, List.map_nil]
  | negate operand => simp only [map, leaves, leaves_map f operand]
  | binary _ left right =>
    simp only [map, leaves, List.map_append, leaves_map f left,
      leaves_map f right]
  | call _ _ arguments => simp only [map, leaves, leavesAll_mapAll f arguments]

theorem leavesAll_mapAll (f : α → β) (trees : List (Tree α)) :
    leavesAll (mapAll f trees) = (leavesAll trees).map f := by
  match trees with
  | [] => simp only [mapAll, leavesAll, List.map_nil]
  | tree :: rest =>
    simp only [mapAll, leavesAll, List.map_append, leaves_map f tree,
      leavesAll_mapAll f rest]

end

mutual

/-- Replacements that agree on the leaves make one tree. -/
theorem map_congr {f g : α → β} (tree : Tree α)
    (h : ∀ leaf ∈ tree.leaves, f leaf = g leaf) : tree.map f = tree.map g := by
  match tree with
  | constant _ => simp only [map]
  | var leaf => simp only [map, h leaf (by simp [leaves])]
  | negate operand =>
    simp only [leaves] at h
    simp only [map, map_congr operand h]
  | binary _ left right =>
    simp only [leaves, List.mem_append] at h
    simp only [map, map_congr left fun leaf hleaf => h leaf (Or.inl hleaf),
      map_congr right fun leaf hleaf => h leaf (Or.inr hleaf)]
  | call _ _ arguments =>
    simp only [leaves] at h
    simp only [map, mapAll_congr arguments h]

theorem mapAll_congr {f g : α → β} (trees : List (Tree α))
    (h : ∀ leaf ∈ leavesAll trees, f leaf = g leaf) :
    mapAll f trees = mapAll g trees := by
  match trees with
  | [] => simp only [mapAll]
  | tree :: rest =>
    simp only [leavesAll, List.mem_append] at h
    simp only [mapAll, map_congr tree fun leaf hleaf => h leaf (Or.inl hleaf),
      mapAll_congr rest fun leaf hleaf => h leaf (Or.inr hleaf)]

end

mutual

/-- A replacement that can be undone leaf by leaf can be undone in a tree. -/
theorem map_map_cancel {f : α → β} {g : β → α} (h : ∀ leaf, g (f leaf) = leaf)
    (tree : Tree α) : (tree.map f).map g = tree := by
  match tree with
  | constant _ => simp only [map]
  | var leaf => simp only [map, h leaf]
  | negate operand => simp only [map, map_map_cancel h operand]
  | binary _ left right =>
    simp only [map, map_map_cancel h left, map_map_cancel h right]
  | call _ _ arguments => simp only [map, mapAll_mapAll_cancel h arguments]

theorem mapAll_mapAll_cancel {f : α → β} {g : β → α}
    (h : ∀ leaf, g (f leaf) = leaf) (trees : List (Tree α)) :
    mapAll g (mapAll f trees) = trees := by
  match trees with
  | [] => simp only [mapAll]
  | tree :: rest =>
    simp only [mapAll, map_map_cancel h tree, mapAll_mapAll_cancel h rest]

end

mutual

/-- A replacement displays what it is displayed as. -/
theorem text_map (f : α → β) (nameOf : β → String) (tree : Tree α) :
    (tree.map f).text nameOf = tree.text fun leaf => nameOf (f leaf) := by
  match tree with
  | constant _ => simp only [map, text]
  | var _ => simp only [map, text]
  | negate operand => simp only [map, text, text_map f nameOf operand]
  | binary _ left right =>
    simp only [map, text, text_map f nameOf left, text_map f nameOf right]
  | call _ _ arguments =>
    simp only [map, text, textAll_mapAll f nameOf arguments]

theorem textAll_mapAll (f : α → β) (nameOf : β → String)
    (trees : List (Tree α)) :
    textAll nameOf (mapAll f trees) =
      textAll (fun leaf => nameOf (f leaf)) trees := by
  match trees with
  | [] => simp only [mapAll, textAll]
  | tree :: rest =>
    simp only [mapAll, textAll, text_map f nameOf tree,
      textAll_mapAll f nameOf rest]

end

end Formulary.Tree
