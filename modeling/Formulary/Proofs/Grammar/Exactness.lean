import Formulary.Compilation
import Formulary.Proofs.Grammar.Completeness
import Formulary.Proofs.Grammar.Soundness

/-!
# The parser and the grammar

Soundness and completeness together: a token list is compiled to a tree exactly
where it derives a formula, the tree is that formula with the cells of its
variables, and no token list derives two formulas.

* `Dialect.parse_eq_ok_iff` is the agreement on formulas;
* `Scope.exists_derives_of_compile` and `Scope.compile_of_derives` connect whole
  compilations and derivations;
* `Scope.compileTokens_eq_ok_iff` is the one on trees.
-/

namespace Formulary

/-- A token list is read as a formula exactly where it derives the formula. -/
theorem Dialect.parse_eq_ok_iff (d : Dialect) (tokens : List Token)
    (formula : Formula) :
    d.parse tokens = ⟨.ok formula, [], formula.leaves⟩ ↔
      Derives d (.chain .relational) tokens formula := by
  constructor
  · intro h
    exact (parse_derives h).1
  · intro h
    exact h.parse_eq

/-- **Unambiguity.**  A token list derives at most one formula. -/
theorem Derives.unique {d : Dialect} {tokens : List Token}
    {formula other : Formula}
    (h : Derives d (.chain .relational) tokens formula)
    (hother : Derives d (.chain .relational) tokens other) : formula = other := by
  have hsame := h.parse_eq.symm.trans hother.parse_eq
  simp only [Outcome.mk.injEq, Except.ok.injEq] at hsame
  exact hsame.1

/-- What compiles has been read as a formula, and its variables have been
declared. -/
theorem Scope.parse_of_compileTokens {s after : Scope} {d : Dialect}
    {tokens : List Token} {tree : BoundTree}
    (h : s.compileTokens d tokens = (.ok tree, after)) :
    ∃ formula, d.parse tokens = ⟨.ok formula, [], formula.leaves⟩ ∧
      after = s.declareAll formula.leaves ∧ tree = after.bind formula := by
  rw [compileTokens] at h
  cases hparse : d.parse tokens with
  | mk result rest mentions =>
    rw [hparse, adopt, Prod.mk.injEq] at h
    obtain ⟨hresult, rfl⟩ := h
    cases result with
    | error error => simp [Except.map] at hresult
    | ok formula =>
      obtain ⟨-, rfl, rfl⟩ := Dialect.parse_derives hparse
      simp only [Except.map, Except.ok.injEq] at hresult
      exact ⟨formula, rfl, rfl, hresult.symm⟩

/-- A compiled text has tokens that derive the formula of the tree. -/
theorem Scope.exists_derives_of_compile {s after : Scope} {d : Dialect}
    {text : String} {tree : BoundTree}
    (h : s.compile d text = (.ok tree, after)) :
    ∃ tokens formula, d.convention.tokenize text = .ok tokens ∧
      Derives d (.chain .relational) tokens formula ∧
      after = s.declareAll formula.leaves ∧ tree = after.bind formula := by
  rw [compile] at h
  cases htokens : d.convention.tokenize text with
  | error error =>
    rw [htokens] at h
    cases h
  | ok tokens =>
    rw [htokens] at h
    obtain ⟨formula, hparse, hafter, htree⟩ := parse_of_compileTokens h
    have hderives := (d.parse_eq_ok_iff tokens formula).mp hparse
    exact ⟨tokens, formula, rfl, hderives, hafter, htree⟩

/-- Tokens that derive a formula compile to its tree. -/
theorem Scope.compileTokens_of_derives (s : Scope) {d : Dialect}
    {tokens : List Token} {formula : Formula}
    (h : Derives d (.chain .relational) tokens formula) :
    s.compileTokens d tokens =
      (.ok ((s.declareAll formula.leaves).bind formula),
        s.declareAll formula.leaves) := by
  rw [compileTokens, h.parse_eq]
  rfl

/-- A text whose tokens derive a formula compiles to the formula's tree. -/
theorem Scope.compile_of_derives (s : Scope) {d : Dialect} {text : String}
    {tokens : List Token} {formula : Formula}
    (htokens : d.convention.tokenize text = .ok tokens)
    (h : Derives d (.chain .relational) tokens formula) :
    s.compile d text = (.ok ((s.declareAll formula.leaves).bind formula),
      s.declareAll formula.leaves) := by
  rw [compile, htokens]
  exact s.compileTokens_of_derives h

/-- **The parser accepts exactly the grammar.**  Whatever the scope and the
dialect, a token list compiles to a tree exactly where it derives a formula and
the tree is that formula, each variable with the cell that its name has once all
of them are declared.  There is at most one such formula. -/
theorem Scope.compileTokens_eq_ok_iff (s : Scope) (d : Dialect)
    (tokens : List Token) :
    (∀ tree after, s.compileTokens d tokens = (.ok tree, after) ↔
      ∃ formula, Derives d (.chain .relational) tokens formula ∧
        after = s.declareAll formula.leaves ∧ tree = after.bind formula) ∧
    ∀ formula other, Derives d (.chain .relational) tokens formula →
      Derives d (.chain .relational) tokens other → formula = other := by
  refine ⟨fun tree after => ⟨?_, ?_⟩, fun _ _ h hother => h.unique hother⟩
  · intro h
    obtain ⟨formula, hparse, hafter, htree⟩ := parse_of_compileTokens h
    exact ⟨formula, (d.parse_eq_ok_iff tokens formula).mp hparse, hafter, htree⟩
  · intro h
    obtain ⟨formula, hderives, rfl, rfl⟩ := h
    rw [compileTokens, hderives.parse_eq]
    rfl

end Formulary
