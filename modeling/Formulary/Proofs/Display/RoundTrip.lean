import Formulary.Proofs.Display.Misreading
import Formulary.Proofs.Grammar.Exactness
import Formulary.Proofs.Scope

/-!
# Compiling a display form

A tree that was compiled from a text is displayed as a text that compiles to the
tree again, whatever the conventions, as long as the decimal separator of the
second one is the point that display forms are written with.  Exactly the trees
with a misread node are lost.  Variables keep their cells, since the first
compilation has declared all of them.

* `Scope.compile_text` is the round trip.
-/

namespace Formulary

namespace Scope

variable {s after : Scope} {text : String} {tree : BoundTree}

/-- **Round trip.**  The display form of a compiled tree, compiled with the same
functions and with the variables that are then declared, gives the tree back
exactly if no negation is under a negation and no constant is infinite. -/
theorem compile_text {functions : FunctionTable} {convention display : Convention}
    (h : s.compile ⟨convention, functions⟩ text = (.ok tree, after))
    (hdecimal : display.decimal = '.') :
    (after.compile ⟨display, functions⟩ tree.text).1 = .ok tree ↔
      (∀ operand, .negate (.negate operand) ∉ tree.subtrees) ∧
        ∀ negative,
          .constant (Binary64.ofParts negative .infinity) ∉ tree.subtrees := by
  obtain ⟨written, formula, hwritten, hformula, rfl, rfl⟩ :=
    exists_derives_of_compile h
  have hlegible : ∀ node ∈ formula.subtrees, Legible functions node :=
    hformula.legible hwritten
  obtain ⟨tokens, htokens, hdisplays⟩ :=
    Convention.exists_displays hdecimal hlegible
  have hreads := hdisplays.derives_iff (d := ⟨display, functions⟩) hdecimal hlegible
  rw [← Tree.forall_not_misread_iff, bind, Tree.forall_not_misread_map, ← hreads,
    ← bind, text_bind]
  constructor
  · intro hcompile
    obtain ⟨again, other, hagain, hother, -, htree⟩ :=
      exists_derives_of_compile (Prod.ext hcompile rfl)
    obtain rfl : tokens = again := Except.ok.inj (htokens.symm.trans hagain)
    have hnames := congrArg (Tree.map Variable.name) htree
    rw [names_bind, names_bind] at hnames
    exact hnames ▸ hother
  · intro hderives
    rw [compile_of_derives _ htokens hderives]
    refine congrArg Except.ok (bind_congr ?_ find?_declareAll_of_find?)
    exact fun name hname => contains_declareAll hname

/-- A comma before the fraction is displayed as a point, and read again. -/
theorem compile_text_comma :
    ∃ tree after,
      empty.compile ⟨.commaDecimal, .standard⟩ "max(1,5; -x)" = (.ok tree, after) ∧
        Convention.invariant.decimal = '.' ∧ tree.text = "max(1.5; -x)" ∧
        (after.compile ⟨.invariant, .standard⟩ tree.text).1 = .ok tree := by
  have hnumber : Derives ⟨.commaDecimal, .standard⟩ .atom [⟨"1,5", .number, 4⟩]
      (.constant (Numeral.value ⟨['1'], ['5']⟩)) :=
    .number rfl (by with_unfolding_all rfl)
  have hsigned : Derives ⟨.commaDecimal, .standard⟩ .signed
      [⟨"-", .delimiter, 9⟩, ⟨"x", .letter, 10⟩] (.negate (.var "x")) :=
    .minus rfl (.name rfl)
  have harguments := DerivesArguments.more (hnumber.looser (by decide))
    (show Token.isDelimiter ⟨";", .delimiter, 7⟩ argumentSeparator from rfl)
    (.one (hsigned.looser (by decide)))
  have hcall : Derives ⟨.commaDecimal, .standard⟩ .atom
      [⟨"max", .letter, 0⟩, ⟨"(", .delimiter, 3⟩, ⟨"1,5", .number, 4⟩,
        ⟨";", .delimiter, 7⟩, ⟨"-", .delimiter, 9⟩, ⟨"x", .letter, 10⟩,
        ⟨")", .delimiter, 11⟩]
      (.call "max" (.binary Binary64.maximum)
        [.constant (Numeral.value ⟨['1'], ['5']⟩), .negate (.var "x")]) :=
    Derives.call rfl rfl rfl harguments rfl rfl
  have hcompile : empty.compile ⟨.commaDecimal, .standard⟩ "max(1,5; -x)" = _ :=
    compile_of_derives _ (by with_unfolding_all rfl) (hcall.looser (by decide))
  refine ⟨_, _, hcompile, rfl, ?_, (compile_text hcompile rfl).mpr ⟨?_, ?_⟩⟩
  · decide +kernel
  · intro operand
    simp [bind, Tree.map, Tree.mapAll, Tree.subtrees, Tree.subtreesAll]
  · intro negative hmem
    have hvalue : Binary64.ofParts negative .infinity =
        Numeral.value ⟨['1'], ['5']⟩ := by
      simpa [bind, Tree.map, Tree.mapAll, Tree.subtrees, Tree.subtreesAll]
        using hmem
    have htext := congrArg Binary64.text hvalue
    cases negative <;> exact absurd htext (by decide +kernel)

end Scope

end Formulary
