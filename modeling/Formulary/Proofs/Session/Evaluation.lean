import Formulary.Proofs.Grammar.Node
import Formulary.Proofs.Session.Coherence
import Formulary.Proofs.Tree.Evaluation

/-!
# Evaluation in a session

The grammar makes a call only where there are as many arguments as the function
takes, and puts that very function into the call.  So nothing goes wrong when a
tree is evaluated, also long after its functions have been replaced by others.

* `Scope.wellCalled_of_compileTokens` is for trees fresh from the grammar;
* `Session.wellCalled_of_offered` is for trees taken from calculators;
* `Session.evaluation_faultless` puts them together for whole sessions.
-/

namespace Formulary

/-- What a text writes is well-called. -/
theorem Dialect.wellCalled_of_formula? {d : Dialect} {text : String}
    {formula : Formula} (h : d.formula? text = .ok formula) :
    formula.WellCalled := by
  obtain ⟨tokens, -, hderives⟩ := formula?_eq_ok_iff.mp h
  exact hderives.wellCalled

/-- What tokens are compiled to is well-called. -/
theorem Scope.wellCalled_of_compileTokens {s after : Scope} {d : Dialect}
    {tokens : List Token} {tree : BoundTree}
    (h : s.compileTokens d tokens = (.ok tree, after)) : tree.WellCalled := by
  obtain ⟨formula, hparse, -, rfl⟩ := parse_of_compileTokens h
  rw [bind, Tree.wellCalled_map]
  exact (Dialect.parse_derives hparse).1.wellCalled

namespace Calculator

variable {c : Calculator} {m : Memory}

/-- A well-called tree has a value. -/
theorem valueOf_ne_wrongCall {tree : BoundTree} (h : tree.WellCalled) :
    valueOf m tree ≠ .error .wrongCall := by
  obtain ⟨x, -, hx⟩ := Tree.evaluate_of_wellCalled h fun v => m.read v.cell
  rw [valueOf, show m.eval tree = some x from hx]
  simp

/-- A calculator with a well-called tree, or with none, calculates without going
wrong in a call. -/
theorem calculate_ne_wrongCall
    (h : ∀ tree, c.tree = some tree → tree.WellCalled) :
    (c.calculate m).1 ≠ .error .wrongCall := by
  cases htree : c.tree with
  | some tree =>
    simp only [calculate, htree]
    exact valueOf_ne_wrongCall (h tree htree)
  | none =>
    cases hformula : c.dialect.formula? c.expression with
    | ok formula =>
      have hcompile := (c.scope m).compile_of_ok hformula
      simp only [calculate, htree, buildTree, hcompile]
      refine valueOf_ne_wrongCall ?_
      rw [Scope.bind, Tree.wellCalled_map]
      exact Dialect.wellCalled_of_formula? hformula
    | error error =>
      obtain ⟨names, hcompile⟩ := (c.scope m).compile_of_error hformula
      simp [calculate, htree, buildTree, hcompile]

end Calculator

namespace Session

/-- Only a call that goes wrong is answered so. -/
private theorem ofResult_ne_wrongCall {result : Except CalculationError Float}
    (h : result ≠ .error .wrongCall) : Answer.ofResult result ≠ .wrongCall := by
  match result with
  | .ok value => simp [Answer.ofResult]
  | .error (.uncompiled error) => simp [Answer.ofResult]
  | .error .wrongCall => exact absurd rfl h

variable {configs : List Configuration} {m : Memory}
  {commands : List (Nat × Command)} {index : Nat}

/-- A tree that could ever be taken from a calculator is well-called. -/
theorem wellCalled_of_offered {tree : BoundTree}
    (h : (ofConfigurations configs m).Offered commands index tree) :
    tree.WellCalled := by
  obtain ⟨before, command, after, c, -, -, -, hformula⟩ := compiled_of_offered h
  rw [← Tree.wellCalled_map Variable.name]
  exact Dialect.wellCalled_of_formula? hformula

/-- **Evaluation does not go wrong.**  Every call in a tree fresh from the
grammar, however deep, has as many arguments as its function takes, which are
one, two or three.  Whatever calculators there are, whatever the memory, and
after whatever commands, a tree that could ever be taken from a calculator is
evaluated without more arguments than slots and without a function that takes
another number of them, and no calculation and no tree from the shelf is
answered with a call that went wrong. -/
theorem evaluation_faultless :
    (∀ (s after : Scope) (d : Dialect) (tokens : List Token) (tree : BoundTree),
      s.compileTokens d tokens = (.ok tree, after) →
      ∀ name function arguments,
        .call name function arguments ∈ tree.subtrees →
        arguments.length = function.arity ∧
          function.arity ∈ [1, 2, Callable.slotCount]) ∧
    ∀ (configs : List Configuration) (m : Memory)
      (commands : List (Nat × Command)),
      let start := ofConfigurations configs m
      let s := start.run commands
      (∀ index (tree : BoundTree), start.Offered commands index tree →
        ∀ valueOf, ∃ x, tree.evaluate valueOf = .ok x ∧
          tree.eval valueOf = some x) ∧
      (∀ index, (s.step index .calculate).1 ≠ .wrongCall) ∧
      ∀ index slot, (s.step index (.evalKept slot)).1 ≠ .wrongCall := by
  refine ⟨?_, ?_⟩
  · intro s after d tokens tree hcompile name function arguments hcall
    have hwell := Scope.wellCalled_of_compileTokens hcompile
    rw [Tree.wellCalled_iff] at hwell
    exact ⟨hwell name function arguments hcall, function.arity_mem⟩
  · intro configs m commands start s
    refine ⟨?_, ?_, ?_⟩
    · intro index tree hoffered valueOf
      exact Tree.evaluate_of_wellCalled (wellCalled_of_offered hoffered) valueOf
    · intro index
      rw [step]
      cases hc : s.calculators[index]? with
      | none => simp
      | some c =>
        refine ofResult_ne_wrongCall (Calculator.calculate_ne_wrongCall ?_)
        intro tree htree
        rw [← tree?_of_getElem? hc] at htree
        exact wellCalled_of_offered (offered_of_tree? htree)
    · intro index slot
      rw [step]
      cases hc : s.calculators[index]? with
      | none => simp
      | some c =>
        simp only [perform]
        cases hkept : s.kept.find? slot with
        | none => simp
        | some tree =>
          obtain ⟨other, hoffered⟩ := offered_of_kept hkept
          exact ofResult_ne_wrongCall
            (Calculator.valueOf_ne_wrongCall (wellCalled_of_offered hoffered))

end Session

end Formulary
