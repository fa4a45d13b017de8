import Formulary.Proofs.Calculator.Refinement

/-!
# What a calculator can become

Whatever a calculator is told or asked, its variables are those that it had and
perhaps some new ones, each new one with a cell that no one had before.  Its
tree goes away, stays, or is the one that its expression is compiled to.  All
that is proved of calculators over time is proved from these two facts.

* `Scope.Change` is what can happen to variables;
* `Calculator.Change` is what can happen to a calculator;
* `Calculator.compile_change` and its like say so of each request.
-/

namespace Formulary

namespace Scope

/-- What can happen to the variables of a calculator at once. -/
inductive Change (s : Scope) : Scope → Prop where
  | declare (names : List String) : Change s (s.declareAll names)
  | assign (name : String) (value : Float) : Change s (s.set name value)

namespace Change

variable {s next : Scope}

/-- Nothing can happen. -/
theorem refl (s : Scope) : s.Change s :=
  .declare []

/-- No variable loses its cell. -/
theorem find?_of_find? (h : s.Change next) {name : String} {cell : Cell}
    (hcell : s.store.find? name = some cell) :
    next.store.find? name = some cell := by
  cases h with
  | declare names => exact find?_declareAll_of_find? hcell
  | assign other value => exact find?_declare_of_find? hcell

/-- A sound scope stays sound. -/
theorem sound (h : s.Change next) (hsound : s.Sound) : next.Sound := by
  cases h with
  | declare names => exact hsound.declareAll names
  | assign name value => exact hsound.set name value

private theorem size_declareAll_le (s : Scope) (names : List String) :
    s.memory.values.size ≤ (s.declareAll names).memory.values.size := by
  induction names generalizing s with
  | nil => exact Nat.le_refl _
  | cons name names ih =>
    exact Nat.le_trans (size_declare_le s name) (ih (s.declare name))

/-- No cell goes away. -/
theorem size_le (h : s.Change next) :
    s.memory.values.size ≤ next.memory.values.size := by
  cases h with
  | declare names => exact size_declareAll_le s names
  | assign name value =>
    show _ ≤ ((s.declare name).memory.write (s.cellOf name) value).values.size
    rw [Memory.size_write]
    exact size_declare_le s name

/-- The cell of a declared name is the one that the name had, or a new one. -/
private theorem fresh_declare {name other : String} {cell : Cell}
    (h : (s.declare name).store.find? other = some cell) :
    s.store.find? other = some cell ∨ s.memory.values.size ≤ cell.address := by
  rw [find?_declare] at h
  split at h
  · next heq =>
    obtain rfl := Option.some.inj h
    cases hknown : s.store.find? name with
    | none =>
      refine Or.inr ?_
      rw [cellOf, hknown, Option.getD_none]
      exact Nat.le_refl _
    | some known =>
      rw [cellOf_of_find? hknown, heq, hknown]
      exact Or.inl rfl
  · exact Or.inl h

private theorem fresh_declareAll {names : List String} {other : String}
    {cell : Cell} (h : (s.declareAll names).store.find? other = some cell) :
    s.store.find? other = some cell ∨ s.memory.values.size ≤ cell.address := by
  induction names generalizing s with
  | nil => exact Or.inl h
  | cons name names ih =>
    rcases ih h with hknown | hnew
    · exact fresh_declare hknown
    · exact Or.inr (Nat.le_trans (size_declare_le s name) hnew)

/-- A cell of the scope was its own before, or no one's. -/
theorem fresh (h : s.Change next) {name : String} {cell : Cell}
    (hcell : next.store.find? name = some cell) :
    s.store.find? name = some cell ∨ s.memory.values.size ≤ cell.address := by
  cases h with
  | declare names => exact fresh_declareAll hcell
  | assign other value => exact fresh_declare hcell

end Change

end Scope

namespace Calculator

variable {c : Calculator} {m : Memory}

/-- The tree stands for what the expression means, and its variables have the
cells of the scope. -/
def CompilesTo (c : Calculator) (s : Scope) (tree : BoundTree) : Prop :=
  ∃ formula, c.dialect.formula? c.expression = .ok formula ∧
    (∀ name ∈ formula.leaves, s.store.contains name) ∧ tree = s.bind formula

/-- What can happen to a calculator on a memory at once.  The proposition says
whether it may be compiled. -/
structure Change (compiling : Prop) (c : Calculator) (m : Memory)
    (next : Calculator) (memory : Memory) : Prop where
  scope : (c.scope m).Change (next.scope memory)
  tree : ∀ tree, next.tree = some tree → c.tree = some tree ∨
    (compiling ∧ c.CompilesTo (next.scope memory) tree)

theorem setExpression_change (c : Calculator) (m : Memory) (text : String) :
    Change False c m (c.setExpression text) m where
  scope := .refl _
  tree _ htree := by cases htree

theorem addFunction_change (c : Calculator) (m : Memory) (name : String)
    (function : Callable) :
    Change False c m (c.addFunction name function) m where
  scope := .refl _
  tree _ htree := Or.inl htree

theorem setVariable_change (c : Calculator) (m : Memory) (name : String)
    (value : Float) :
    Change False c m (c.setVariable m name value).1
      (c.setVariable m name value).2 where
  scope := .assign name value
  tree _ htree := Or.inl htree

/-- A tree that has just been built stands for the expression. -/
private theorem compilesTo_of_formula? {formula : Formula}
    (h : c.dialect.formula? c.expression = .ok formula) :
    c.CompilesTo ((c.scope m).declareAll formula.leaves)
      (((c.scope m).declareAll formula.leaves).bind formula) :=
  ⟨formula, h, fun _ hname => Scope.contains_declareAll hname, rfl⟩

theorem compile_change (c : Calculator) (m : Memory) :
    Change True c m (c.compile m).2.1 (c.compile m).2.2 := by
  cases hformula : c.dialect.formula? c.expression with
  | ok formula =>
    have hcompile := (c.scope m).compile_of_ok hformula
    simp only [compile, buildTree, hcompile]
    refine ⟨.declare formula.leaves, ?_⟩
    intro tree htree
    obtain rfl := Option.some.inj htree
    exact Or.inr ⟨trivial, compilesTo_of_formula? hformula⟩
  | error error =>
    obtain ⟨names, hcompile⟩ := (c.scope m).compile_of_error hformula
    simp only [compile, buildTree, hcompile]
    refine ⟨.declare names, ?_⟩
    intro tree htree
    cases htree

theorem calculate_change (c : Calculator) (m : Memory) :
    Change True c m (c.calculate m).2.1 (c.calculate m).2.2 := by
  cases htree : c.tree with
  | some tree =>
    simp only [calculate, htree]
    exact ⟨.refl _, fun _ hsame => Or.inl hsame⟩
  | none =>
    cases hformula : c.dialect.formula? c.expression with
    | ok formula =>
      have hcompile := (c.scope m).compile_of_ok hformula
      simp only [calculate, htree, buildTree, hcompile]
      refine ⟨.declare formula.leaves, ?_⟩
      intro tree hbuilt
      obtain rfl := Option.some.inj hbuilt
      exact Or.inr ⟨trivial, compilesTo_of_formula? hformula⟩
    | error error =>
      obtain ⟨names, hcompile⟩ := (c.scope m).compile_of_error hformula
      simp only [calculate, htree, buildTree, hcompile]
      refine ⟨.declare names, ?_⟩
      intro tree hnone
      cases hnone

end Calculator

end Formulary
