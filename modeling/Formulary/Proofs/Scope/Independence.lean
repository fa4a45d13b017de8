import Formulary.Compilation
import Formulary.Proofs.Grammar.Relinking
import Formulary.Proofs.Scope

/-!
# What a compilation depends on

A compilation depends on its text, on the convention, and on how many arguments
the functions take that the text calls.  It does not depend on which variables
were known before, on their values or their cells, or on any other function.  It
declares the same names in every scope, so a failed compilation leaves nothing
behind that another attempt would notice.

* `SameResult` is what two results have in common;
* `Scope.compile_again` says that another attempt makes no difference;
* `Scope.compile_independent` is the statement for two scopes and two tables.
-/

namespace Formulary

/-- Both results are the same error, or trees with the same display form and the
same nodes, where the second one calls the functions of the table. -/
inductive SameResult (functions : FunctionTable) :
    Except CompileError BoundTree → Except CompileError BoundTree → Prop where
  | failed {error : CompileError} : SameResult functions (.error error) (.error error)
  | compiled {tree tree' : BoundTree} (displayed : tree'.text = tree.text)
      (linked : tree'.map Variable.name =
        (tree.map Variable.name).relink functions) :
      SameResult functions (.ok tree) (.ok tree')

namespace Scope

/-- Outcomes that differ in functions alone are taken over alike by any two
scopes. -/
private theorem adopt_relink (s s' : Scope) (functions : FunctionTable)
    (o : Outcome Formula) :
    SameResult functions (s.adopt o).1
      (s'.adopt (o.map (Tree.relink functions))).1 := by
  obtain ⟨result, rest, mentions⟩ := o
  cases result with
  | error error => exact .failed
  | ok formula =>
    have hdisplayed : ((s'.declareAll mentions).bind
        (formula.relink functions)).text =
          ((s.declareAll mentions).bind formula).text := by
      rw [text_bind, text_bind, Tree.text_relink]
    have hlinked : ((s'.declareAll mentions).bind
        (formula.relink functions)).map Variable.name =
          (((s.declareAll mentions).bind formula).map Variable.name).relink
            functions := by
      rw [names_bind, names_bind]
    exact .compiled hdisplayed hlinked

/-- Names that are known are not declared again. -/
private theorem declareAll_of_contains {s : Scope} {names : List String}
    (h : ∀ name ∈ names, s.store.contains name) : s.declareAll names = s := by
  induction names with
  | nil => rfl
  | cons name names ih =>
    obtain ⟨cell, hcell⟩ := contains_iff.mp (h name List.mem_cons_self)
    show (s.declare name).declareAll names = s
    rw [declare_of_find? hcell]
    exact ih fun other hother => h other (List.mem_cons_of_mem _ hother)

/-- To take over an outcome twice is to do it once. -/
private theorem adopt_adopt (s : Scope) (o : Outcome Formula) :
    (s.adopt o).2.adopt o = s.adopt o := by
  have hagain : (s.declareAll o.mentions).declareAll o.mentions =
      s.declareAll o.mentions :=
    declareAll_of_contains fun _ => contains_declareAll
  rw [adopt, adopt, hagain]

/-- **Another attempt** in the scope that the first one left has the same result
and changes nothing. -/
theorem compile_again (s : Scope) (d : Dialect) (text : String) :
    (s.compile d text).2.compile d text = s.compile d text := by
  cases htokens : d.convention.tokenize text with
  | ok tokens =>
    simp only [compile, htokens]
    exact adopt_adopt s (d.parse tokens)
  | error error => simp only [compile, htokens]

/-- **Compilations depend on nothing else.**  Where two tables agree on the
functions that a text calls, the text has the same result with both in any two
scopes, and it declares the same names; and in each scope another attempt has the
same result again. -/
theorem compile_independent {convention : Convention}
    {functions other : FunctionTable} {text : String}
    (agree : ∀ tokens, convention.tokenize text = .ok tokens →
      functions.AgreesOn other tokens) :
    (∃ names, ∀ s s' : Scope,
      SameResult other (s.compile ⟨convention, functions⟩ text).1
          (s'.compile ⟨convention, other⟩ text).1 ∧
        (s.compile ⟨convention, functions⟩ text).2 = s.declareAll names ∧
        (s'.compile ⟨convention, other⟩ text).2 = s'.declareAll names) ∧
      ∀ s : Scope,
        (s.compile ⟨convention, functions⟩ text).2.compile
            ⟨convention, functions⟩ text =
          s.compile ⟨convention, functions⟩ text := by
  refine ⟨?_, fun s => compile_again s _ text⟩
  cases htokens : convention.tokenize text with
  | error error =>
    refine ⟨[], fun s s' => ?_⟩
    simp only [compile, htokens]
    exact ⟨.failed, rfl, rfl⟩
  | ok tokens =>
    have hparse := Dialect.parse_relink (d := ⟨convention, functions⟩)
      (e := ⟨convention, other⟩) rfl (agree tokens htokens)
    refine ⟨(Dialect.parse ⟨convention, functions⟩ tokens).mentions,
      fun s s' => ?_⟩
    simp only [compile, htokens, compileTokens, hparse]
    exact ⟨adopt_relink s s' other _, rfl, rfl⟩

/-- Another function for the sine and one more that is not called, in a scope
where the variable has a value. -/
theorem compile_independent_sine :
    (∀ tokens, Convention.invariant.tokenize "sin(x)" = .ok tokens →
        FunctionTable.standard.AgreesOn
          ((FunctionTable.standard.insert "sin" (.unary Float.cos)).insert
            "sec" (.binary Float.pow)) tokens) ∧
      SameResult
        ((FunctionTable.standard.insert "sin" (.unary Float.cos)).insert
          "sec" (.binary Float.pow))
        (empty.compile ⟨.invariant, .standard⟩ "sin(x)").1
        ((empty.set "x" 2.0).compile ⟨.invariant,
          (FunctionTable.standard.insert "sin" (.unary Float.cos)).insert
            "sec" (.binary Float.pow)⟩ "sin(x)").1 := by
  have htokens : Convention.invariant.tokenize "sin(x)" =
      .ok [⟨"sin", .letter, 0⟩, ⟨"(", .delimiter, 3⟩, ⟨"x", .letter, 4⟩,
        ⟨")", .delimiter, 5⟩] := by
    with_unfolding_all rfl
  have hagree : ∀ tokens, Convention.invariant.tokenize "sin(x)" = .ok tokens →
      FunctionTable.standard.AgreesOn
        ((FunctionTable.standard.insert "sin" (.unary Float.cos)).insert
          "sec" (.binary Float.pow)) tokens := by
    intro tokens h name opening hpair hname hopens
    obtain rfl := Except.ok.inj (htokens.symm.trans h)
    have hmem : name ∈ _ := hpair.subset List.mem_cons_self
    have hsec : name.text ≠ "sec" := by
      rintro heq
      simp only [List.mem_cons, List.not_mem_nil, or_false] at hmem
      rcases hmem with rfl | rfl | rfl | rfl <;> exact absurd heq (by decide)
    rw [Dictionary.find?_insert, if_neg hsec, Dictionary.find?_insert]
    split
    · next hsin =>
      rw [hsin]
      with_unfolding_all rfl
    · rfl
  obtain ⟨⟨names, hsame⟩, -⟩ := compile_independent hagree
  exact ⟨hagree, (hsame empty (empty.set "x" 2.0)).1⟩

end Scope

end Formulary
