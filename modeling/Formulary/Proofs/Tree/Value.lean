import Formulary.Proofs.Tree.Evaluation

/-!
# Values of trees

What the value of a tree is can be said without evaluating it: an operation has
the value that its operator gives the values of its operands, and a call the one
that its function gives the values of its arguments, in their order.  A function
gives something only to as many numbers as it takes.  So a tree with a call that
has another number of arguments, wherever it stands, has no value, and every
other tree has one.

Evaluation finds the value where there is one, and otherwise something goes
wrong.  It does not matter that arguments beyond the slots are not evaluated: the
call that has them goes wrong itself.

* `Callable.Gives` and `Tree.HasValue` say what values are;
* `Tree.eval_eq_some_iff` compares them with `Tree.eval`;
* `Tree.HasValue.wellCalled` finds every call of the tree in them;
* `Tree.evaluate_faults_iff` puts both together for evaluation step by step.
-/

namespace Formulary

/-- What a function gives to numbers, in the order in which it takes them. -/
inductive Callable.Gives : Callable → List Float → Float → Prop where
  | unary {f : Float → Float} {x : Float} : Gives (.unary f) [x] (f x)
  | binary {f : Float → Float → Float} {x y : Float} :
      Gives (.binary f) [x, y] (f x y)
  | ternary {f : Float → Float → Float → Float} {x y z : Float} :
      Gives (.ternary f) [x, y, z] (f x y z)
  /-- The first number is a condition, which holds unless it is zero. -/
  | conditional {f : Bool → Float → Float → Float} {condition x y : Float} :
      Gives (.conditional f) [condition, x, y] (f (condition != 0.0) x y)

namespace Callable

variable {f : Callable} {numbers : List Float} {value : Float}

/-- Calls give what they should. -/
theorem call_eq_some_iff : f.call numbers = some value ↔ f.Gives numbers value := by
  constructor
  · intro h
    cases f <;> rcases numbers with _ | ⟨_, _ | ⟨_, _ | ⟨_, _ | _⟩⟩⟩ <;>
      simp only [call, Option.some.injEq, reduceCtorEq] at h
    · exact h ▸ .unary
    · exact h ▸ .binary
    · exact h ▸ .ternary
    · exact h ▸ .conditional
  · intro h
    cases h <;> rfl

/-- A function gives something to as many numbers as it takes. -/
theorem Gives.length (h : f.Gives numbers value) : numbers.length = f.arity := by
  cases h <;> rfl

end Callable

namespace Tree

variable {α : Type} {valueOf : α → Float}

mutual

/-- The tree has the value, given one for each variable. -/
inductive HasValue (valueOf : α → Float) : Tree α → Float → Prop where
  | constant (value : Float) : HasValue valueOf (.constant value) value
  | var (leaf : α) : HasValue valueOf (.var leaf) (valueOf leaf)
  | negate {operand : Tree α} {x : Float} (inner : HasValue valueOf operand x) :
      HasValue valueOf (.negate operand) (-x)
  | binary {operator : Operator} {left right : Tree α} {x y : Float}
      (first : HasValue valueOf left x) (second : HasValue valueOf right y) :
      HasValue valueOf (.binary operator left right) (operator.apply x y)
  | call {name : String} {function : Callable} {arguments : List (Tree α)}
      {numbers : List Float} {value : Float}
      (inner : HaveValues valueOf arguments numbers)
      (gives : function.Gives numbers value) :
      HasValue valueOf (.call name function arguments) value

/-- The trees have the values, each its own. -/
inductive HaveValues (valueOf : α → Float) : List (Tree α) → List Float → Prop where
  | nil : HaveValues valueOf [] []
  | cons {tree : Tree α} {trees : List (Tree α)} {x : Float} {xs : List Float}
      (first : HasValue valueOf tree x) (others : HaveValues valueOf trees xs) :
      HaveValues valueOf (tree :: trees) (x :: xs)

end

mutual

/-- What evaluation finds is the value. -/
theorem hasValue_of_eval {tree : Tree α} {x : Float}
    (h : tree.eval valueOf = some x) : HasValue valueOf tree x := by
  match tree with
  | constant value =>
    rw [eval, Option.some.injEq] at h
    exact h ▸ .constant value
  | var leaf =>
    rw [eval, Option.some.injEq] at h
    exact h ▸ .var leaf
  | negate operand =>
    rw [eval, Option.map_eq_some_iff] at h
    obtain ⟨y, hy, rfl⟩ := h
    exact .negate (hasValue_of_eval hy)
  | binary operator left right =>
    simp only [eval, Option.bind_eq_some_iff, Option.map_eq_some_iff] at h
    obtain ⟨y, hy, z, hz, rfl⟩ := h
    exact .binary (hasValue_of_eval hy) (hasValue_of_eval hz)
  | call name function arguments =>
    rw [eval, Option.bind_eq_some_iff] at h
    obtain ⟨numbers, hnumbers, hcall⟩ := h
    exact .call (haveValues_of_evalAll hnumbers) (Callable.call_eq_some_iff.mp hcall)

theorem haveValues_of_evalAll {trees : List (Tree α)} {xs : List Float}
    (h : evalAll valueOf trees = some xs) : HaveValues valueOf trees xs := by
  match trees with
  | [] =>
    rw [evalAll, Option.some.injEq] at h
    exact h ▸ .nil
  | tree :: rest =>
    simp only [evalAll, Option.bind_eq_some_iff, Option.map_eq_some_iff] at h
    obtain ⟨y, hy, ys, hys, rfl⟩ := h
    exact .cons (hasValue_of_eval hy) (haveValues_of_evalAll hys)

end

mutual

/-- Evaluation finds the value. -/
theorem HasValue.eval_eq {tree : Tree α} {x : Float}
    (h : HasValue valueOf tree x) : tree.eval valueOf = some x := by
  match h with
  | .constant value => rw [eval]
  | .var leaf => rw [eval]
  | .negate inner => rw [eval, inner.eval_eq, Option.map_some]
  | .binary first second =>
    rw [eval, first.eval_eq, second.eval_eq, Option.bind_some, Option.map_some]
  | .call inner gives =>
    rw [eval, inner.evalAll_eq, Option.bind_some]
    exact Callable.call_eq_some_iff.mpr gives

theorem HaveValues.evalAll_eq {trees : List (Tree α)} {xs : List Float}
    (h : HaveValues valueOf trees xs) : evalAll valueOf trees = some xs := by
  match h with
  | .nil => rw [evalAll]
  | .cons first others =>
    rw [evalAll, first.eval_eq, others.evalAll_eq, Option.bind_some,
      Option.map_some]

end

/-- **Evaluation finds exactly the values.** -/
theorem eval_eq_some_iff {tree : Tree α} {x : Float} :
    tree.eval valueOf = some x ↔ HasValue valueOf tree x :=
  ⟨hasValue_of_eval, HasValue.eval_eq⟩

/-- There are as many values as trees. -/
theorem HaveValues.length {trees : List (Tree α)} {xs : List Float}
    (h : HaveValues valueOf trees xs) : xs.length = trees.length :=
  length_evalAll h.evalAll_eq

mutual

/-- **A tree with a value is well-called**, however deep a call stands in it. -/
theorem HasValue.wellCalled {tree : Tree α} {x : Float}
    (h : HasValue valueOf tree x) : tree.WellCalled := by
  match h with
  | .constant value => simp only [WellCalled]
  | .var leaf => simp only [WellCalled]
  | .negate inner =>
    rw [WellCalled]
    exact inner.wellCalled
  | .binary first second =>
    rw [WellCalled]
    exact ⟨first.wellCalled, second.wellCalled⟩
  | .call inner gives =>
    rw [WellCalled]
    exact ⟨inner.length.symm.trans gives.length, inner.allWellCalled⟩

theorem HaveValues.allWellCalled {trees : List (Tree α)} {xs : List Float}
    (h : HaveValues valueOf trees xs) : AllWellCalled trees := by
  match h with
  | .nil => simp only [AllWellCalled]
  | .cons first others =>
    rw [AllWellCalled]
    exact ⟨first.wellCalled, others.allWellCalled⟩

end

/-- Evaluation step by step ends with the value. -/
theorem evaluate_eq_ok_iff {tree : Tree α} {x : Float} :
    tree.evaluate valueOf = .ok x ↔ HasValue valueOf tree x := by
  rw [← eval_eq_some_iff, ← toOption_evaluate]
  cases tree.evaluate valueOf <;> simp [Except.toOption]

/-- Something goes wrong exactly where a tree is not well-called. -/
theorem exists_evaluate_eq_error_iff {tree : Tree α} :
    (∃ fault, tree.evaluate valueOf = .error fault) ↔ ¬tree.WellCalled := by
  constructor
  · rintro ⟨fault, hfault⟩ hwell
    obtain ⟨x, hx, -⟩ := evaluate_of_wellCalled hwell valueOf
    rw [hfault] at hx
    cases hx
  · intro hwell
    cases hvalue : tree.evaluate valueOf with
    | error fault => exact ⟨fault, rfl⟩
    | ok x => exact absurd (evaluate_eq_ok_iff.mp hvalue).wellCalled hwell

/-- **When evaluation goes wrong.**  Something goes wrong in the evaluation of a
tree exactly if one of its calls, wherever it stands, has another number of
arguments than its function takes.  Otherwise evaluation ends with the value of
the tree, which is the only one that it has.  `Tree.eval` tells the same. -/
theorem evaluate_faults_iff (valueOf : α → Float) (tree : Tree α) :
    ((∃ fault, tree.evaluate valueOf = .error fault) ↔
      ∃ name function arguments, .call name function arguments ∈ tree.subtrees ∧
        arguments.length ≠ function.arity) ∧
    ((∀ name function arguments, .call name function arguments ∈ tree.subtrees →
        arguments.length = function.arity) →
      ∃ x, tree.evaluate valueOf = .ok x ∧
        ∀ y, HasValue valueOf tree y ↔ y = x) ∧
    (tree.evaluate valueOf).toOption = tree.eval valueOf := by
  refine ⟨?_, ?_, toOption_evaluate valueOf tree⟩
  · rw [exists_evaluate_eq_error_iff, wellCalled_iff]
    simp [CallsFit]
  · intro hcalls
    obtain ⟨x, hx, -⟩ :=
      evaluate_of_wellCalled (tree.wellCalled_iff.mpr hcalls) valueOf
    refine ⟨x, hx, fun y => ?_⟩
    rw [← evaluate_eq_ok_iff, hx, Except.ok.injEq]
    exact eq_comm

/-- Also the branch that is not chosen counts. -/
example :
    (call "if" (.conditional Callable.choose) [constant 1.0, constant 2.0,
        call "max" (.binary Binary64.maximum) [constant 3.0]] :
      Formula).evaluate (fun _ => 0.0) = .error .wrongShape := by
  rfl

end Tree

end Formulary
