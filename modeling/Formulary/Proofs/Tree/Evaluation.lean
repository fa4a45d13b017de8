import Formulary.Proofs.Tree.Subtree

/-!
# Evaluation step by step

A tree is evaluated with three slots for the arguments of each call.  The values
of the arguments go into the slots one after the other, arguments for which no
slot is left are not evaluated, and the function is applied to as many slots as
there are arguments.  Two things can go wrong in a call: there are more
arguments than slots, and the function does not take so many numbers.

`Tree.eval` says only whether there is a value.  It says so truly, and in a
well-called tree nothing goes wrong.

* `Tree.evaluate` is the evaluation, and `EvaluationFault` what can go wrong;
* `Tree.toOption_evaluate` compares it with `Tree.eval`;
* `Tree.evaluate_of_wellCalled` is for well-called trees.
-/

namespace Formulary

/-- What can go wrong in a call. -/
inductive EvaluationFault where
  /-- The call has more arguments than there are slots. -/
  | beyondSlots
  /-- The function does not take so many numbers. -/
  | wrongShape
deriving DecidableEq

namespace Callable

/-- How many slots there are for the arguments of a call. -/
def slotCount : Nat := 3

/-- Every function takes at least one number, and not more than there are
slots. -/
theorem arity_mem (f : Callable) : f.arity ∈ [1, 2, slotCount] := by
  cases f <;> simp [arity, slotCount]

/-- The function applied to the first slots, as many as there are arguments. -/
def applySlots (f : Callable) (slots : List Float) (count : Nat) :
    Except EvaluationFault Float :=
  if count ≤ slots.length then
    match f.call (slots.take count) with
    | some value => .ok value
    | none => .error .wrongShape
  else .error .beyondSlots

/-- There is no value on a list of another length. -/
theorem call_eq_none {f : Callable} {numbers : List Float}
    (h : numbers.length ≠ f.arity) : f.call numbers = none := by
  rw [← Option.not_isSome_iff_eq_none, call_isSome]
  simpa using h

/-- There is a value on a list of the right length. -/
theorem exists_call {f : Callable} {numbers : List Float}
    (h : numbers.length = f.arity) : ∃ value, f.call numbers = some value := by
  rw [← Option.isSome_iff_exists, call_isSome]
  simpa using h

end Callable

namespace Tree

variable {α : Type} {valueOf : α → Float}

mutual

/-- The value of a tree, or what goes wrong first. -/
def evaluate (valueOf : α → Float) : Tree α → Except EvaluationFault Float
  | constant value => .ok value
  | var leaf => .ok (valueOf leaf)
  | negate operand => (operand.evaluate valueOf).map fun x => -x
  | binary operator left right =>
    match left.evaluate valueOf, right.evaluate valueOf with
    | .ok x, .ok y => .ok (operator.apply x y)
    | .error fault, _ => .error fault
    | .ok _, .error fault => .error fault
  | call _ function arguments =>
    match fill valueOf (List.replicate Callable.slotCount 0.0) arguments with
    | .ok slots => function.applySlots slots arguments.length
    | .error fault => .error fault

/-- The slots after the values of the trees have been put into them. -/
def fill (valueOf : α → Float) (slots : List Float) :
    List (Tree α) → Except EvaluationFault (List Float)
  | [] => .ok slots
  | tree :: rest =>
    match slots with
    | [] => .ok []
    | _ :: others =>
      match tree.evaluate valueOf with
      | .ok x => (fill valueOf others rest).map fun values => x :: values
      | .error fault => .error fault

end

/-- No slot comes or goes. -/
theorem length_fill {slots filled : List Float} {trees : List (Tree α)}
    (h : fill valueOf slots trees = .ok filled) :
    filled.length = slots.length := by
  induction trees generalizing slots filled with
  | nil =>
    simp only [fill, Except.ok.injEq] at h
    rw [h]
  | cons tree rest ih =>
    cases slots with
    | nil =>
      simp only [fill, Except.ok.injEq] at h
      rw [← h]
    | cons slot others =>
      simp only [fill] at h
      cases hvalue : tree.evaluate valueOf with
      | error fault => simp [hvalue] at h
      | ok x =>
        cases hothers : fill valueOf others rest with
        | error fault => simp [hvalue, hothers, Except.map] at h
        | ok values =>
          simp only [hvalue, hothers, Except.map, Except.ok.injEq] at h
          rw [← h, List.length_cons, List.length_cons, ih hothers]

/-- Where there are values for all trees, there are as many as trees. -/
theorem length_evalAll {trees : List (Tree α)} {values : List Float}
    (h : evalAll valueOf trees = some values) :
    values.length = trees.length := by
  induction trees generalizing values with
  | nil =>
    simp only [evalAll, Option.some.injEq] at h
    simp [← h]
  | cons tree rest ih =>
    simp only [evalAll, Option.bind_eq_some_iff, Option.map_eq_some_iff] at h
    obtain ⟨x, -, others, hothers, rfl⟩ := h
    rw [List.length_cons, List.length_cons, ih hothers]

/-- A call with more arguments than slots has no value. -/
private theorem bind_call_eq_none {function : Callable}
    {arguments : List (Tree α)}
    (h : Callable.slotCount < arguments.length) :
    (evalAll valueOf arguments).bind function.call = none := by
  cases hvalues : evalAll valueOf arguments with
  | none => rfl
  | some values =>
    have hlength := length_evalAll hvalues
    have harity := function.arity_mem
    simp only [Callable.slotCount, List.mem_cons, List.not_mem_nil, or_false]
      at h harity
    exact Callable.call_eq_none (by omega)

mutual

/-- **Evaluation.**  There is a value exactly where nothing goes wrong. -/
theorem toOption_evaluate (valueOf : α → Float) (tree : Tree α) :
    (tree.evaluate valueOf).toOption = tree.eval valueOf := by
  match tree with
  | constant _ => simp only [evaluate, eval, Except.toOption]
  | var _ => simp only [evaluate, eval, Except.toOption]
  | negate operand =>
    rw [evaluate, eval, ← toOption_evaluate valueOf operand]
    cases operand.evaluate valueOf <;> rfl
  | binary _ left right =>
    rw [evaluate, eval, ← toOption_evaluate valueOf left,
      ← toOption_evaluate valueOf right]
    cases left.evaluate valueOf <;> cases right.evaluate valueOf <;> rfl
  | call _ function arguments =>
    rw [evaluate, eval]
    by_cases hroom : arguments.length ≤ Callable.slotCount
    · have hfill := toOption_fill valueOf arguments
        (List.replicate Callable.slotCount 0.0) (by simpa using hroom)
      cases hslots : fill valueOf (List.replicate Callable.slotCount 0.0)
        arguments with
      | error fault =>
        rw [hslots] at hfill
        rw [← hfill]
        rfl
      | ok slots =>
        have hlength := length_fill hslots
        rw [List.length_replicate] at hlength
        rw [hslots] at hfill
        rw [← hfill]
        simp only [Callable.applySlots, hlength, if_pos hroom, Except.toOption,
          Option.map_some, Option.bind_some]
        cases function.call (slots.take arguments.length) <;> rfl
    · rw [bind_call_eq_none (Nat.lt_of_not_le hroom)]
      cases hslots : fill valueOf (List.replicate Callable.slotCount 0.0)
        arguments with
      | error fault => rfl
      | ok slots =>
        have hlength := length_fill hslots
        rw [List.length_replicate] at hlength
        simp only [Callable.applySlots, hlength, if_neg hroom, Except.toOption]

/-- Where there are slots for all trees, the first slots have their values. -/
theorem toOption_fill (valueOf : α → Float) (trees : List (Tree α))
    (slots : List Float) (h : trees.length ≤ slots.length) :
    (fill valueOf slots trees).toOption.map (List.take trees.length) =
      evalAll valueOf trees := by
  match trees, slots with
  | [], _ => simp only [fill, evalAll, Except.toOption, Option.map_some,
      List.length_nil, List.take_zero]
  | tree :: rest, [] => simp at h
  | tree :: rest, _ :: others =>
    have hrest := toOption_fill valueOf rest others (by simpa using h)
    rw [evalAll, ← hrest, ← toOption_evaluate valueOf tree, fill]
    cases tree.evaluate valueOf with
    | error fault => rfl
    | ok x => cases fill valueOf others rest <;> rfl

end

mutual

/-- A well-called tree has a value. -/
theorem exists_eval_of_wellCalled (valueOf : α → Float) (tree : Tree α)
    (h : tree.WellCalled) : ∃ x, tree.eval valueOf = some x := by
  match tree with
  | constant value => exact ⟨value, by rw [eval]⟩
  | var leaf => exact ⟨valueOf leaf, by rw [eval]⟩
  | negate operand =>
    rw [WellCalled] at h
    obtain ⟨x, hx⟩ := exists_eval_of_wellCalled valueOf operand h
    exact ⟨-x, by rw [eval, hx]; rfl⟩
  | binary operator left right =>
    rw [WellCalled] at h
    obtain ⟨x, hx⟩ := exists_eval_of_wellCalled valueOf left h.1
    obtain ⟨y, hy⟩ := exists_eval_of_wellCalled valueOf right h.2
    exact ⟨operator.apply x y, by rw [eval, hx, hy]; rfl⟩
  | call _ function arguments =>
    rw [WellCalled] at h
    obtain ⟨values, hvalues⟩ :=
      exists_evalAll_of_allWellCalled valueOf arguments h.2
    obtain ⟨x, hx⟩ :=
      Callable.exists_call ((length_evalAll hvalues).trans h.1)
    exact ⟨x, by rw [eval, hvalues]; exact hx⟩

theorem exists_evalAll_of_allWellCalled (valueOf : α → Float)
    (trees : List (Tree α)) (h : AllWellCalled trees) :
    ∃ values, evalAll valueOf trees = some values := by
  match trees with
  | [] => exact ⟨[], by rw [evalAll]⟩
  | tree :: rest =>
    rw [AllWellCalled] at h
    obtain ⟨x, hx⟩ := exists_eval_of_wellCalled valueOf tree h.1
    obtain ⟨values, hvalues⟩ := exists_evalAll_of_allWellCalled valueOf rest h.2
    exact ⟨x :: values, by rw [evalAll, hx, hvalues]; rfl⟩

end

/-- **Nothing goes wrong in a well-called tree.** -/
theorem evaluate_of_wellCalled {tree : Tree α} (h : tree.WellCalled)
    (valueOf : α → Float) :
    ∃ x, tree.evaluate valueOf = .ok x ∧ tree.eval valueOf = some x := by
  obtain ⟨x, hx⟩ := exists_eval_of_wellCalled valueOf tree h
  have hsame := toOption_evaluate valueOf tree
  rw [hx] at hsame
  cases hvalue : tree.evaluate valueOf with
  | error fault => simp [hvalue, Except.toOption] at hsame
  | ok y =>
    rw [hvalue] at hsame
    exact ⟨x, congrArg Except.ok (Option.some.inj hsame), hx⟩

end Tree

end Formulary
