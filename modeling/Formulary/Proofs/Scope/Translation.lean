import Formulary.Compilation
import Formulary.Proofs.Scope
import Formulary.Proofs.Token.Translation

/-!
# Conventions do not count

A text that is translated from one convention to another is compiled in the same
way: to the same formula, or rejected for the same cause.  In either case the same
variables are known afterwards, with the same values.

* `Scope.adopt_alike` compares what two scopes take over;
* `Scope.compile_translate` is the statement.
-/

namespace Formulary

/-- The text with the separators of the target for those of the source. -/
def Convention.translateText (source target : Convention) (text : String) :
    String :=
  String.ofList (source.translateAll target text.toList)

/-- Both results are the same formula, up to cells, or errors of the same
cause. -/
def SameAnswer (left right : Except CompileError BoundTree) : Prop :=
  (∃ tree tree', left = .ok tree ∧ right = .ok tree' ∧
    tree.map Variable.name = tree'.map Variable.name) ∨
  ∃ e e', left = .error e ∧ right = .error e' ∧ e.cause = e'.cause

namespace Scope

variable {s s' : Scope}

/-- The same declarations make the same variables known. -/
private theorem get?_declareAll_congr
    (hsame : ∀ name, s.get? name = s'.get? name) (names : List String)
    (name : String) :
    (s.declareAll names).get? name = (s'.declareAll names).get? name := by
  rw [get?_declareAll, get?_declareAll, value, value, hsame]

/-- Outcomes that are alike are taken over alike. -/
theorem adopt_alike {d e : Dialect} {o p : Outcome Formula}
    (hsame : ∀ name, s.get? name = s'.get? name)
    (halike : Outcome.Alike d e o p) :
    SameAnswer (s.adopt o).1 (s'.adopt p).1 ∧
      ∀ name, (s.adopt o).2.get? name = (s'.adopt p).2.get? name := by
  have hcases := halike.cases
  obtain ⟨result, rest, mentions⟩ := o
  obtain ⟨result', rest', mentions'⟩ := p
  obtain ⟨-, -, rfl⟩ := halike
  refine ⟨?_, get?_declareAll_congr hsame mentions⟩
  rcases hcases with ⟨formula, rfl, rfl⟩ | ⟨error, error', rfl, rfl, hcause⟩
  · exact Or.inl ⟨_, _, rfl, rfl, by rw [names_bind, names_bind]⟩
  · exact Or.inr ⟨error, error', rfl, rfl, hcause⟩

/-- **Conventions do not count.**  If a text has no character that only the second
convention knows as a separator, it compiles under the first convention as its
translation does under the second: both to the same formula, or neither, and then
for the same cause.  If the same variables were known before, with the same
values, the same are known afterwards. -/
theorem compile_translate {source target : Convention} {text : String}
    (fits : ∀ c ∈ text.toList, target.isSeparator c → source.isSeparator c)
    (functions : FunctionTable)
    (known : ∀ name, s.get? name = s'.get? name) :
    SameAnswer (s.compile ⟨source, functions⟩ text).1
        (s'.compile ⟨target, functions⟩ (source.translateText target text)).1 ∧
      ∀ name, (s.compile ⟨source, functions⟩ text).2.get? name =
        (s'.compile ⟨target, functions⟩
          (source.translateText target text)).2.get? name := by
  rcases Convention.tokenize_translate fits functions with
    ⟨tokens, tokens', htokens, htokens', halike⟩ |
    ⟨e, e', herror, herror', hcause⟩
  · rw [compile, compile, htokens, Convention.translateText, htokens']
    exact adopt_alike known (Dialect.parse_alike rfl halike)
  · rw [compile, compile, herror, Convention.translateText, herror']
    exact ⟨Or.inr ⟨e, e', rfl, rfl, hcause⟩, known⟩

/-- Points and commas change places. -/
theorem compile_translate_comma :
    (∀ c ∈ "max(1,234.5; x)".toList, Convention.commaDecimal.isSeparator c →
        Convention.invariant.isSeparator c) ∧
      Convention.invariant.translateText .commaDecimal "max(1,234.5; x)" =
        "max(1.234,5; x)" ∧
      SameAnswer (empty.compile ⟨.invariant, .standard⟩ "max(1,234.5; x)").1
        (empty.compile ⟨.commaDecimal, .standard⟩ "max(1.234,5; x)").1 := by
  have hfits : ∀ c ∈ "max(1,234.5; x)".toList,
      Convention.commaDecimal.isSeparator c →
        Convention.invariant.isSeparator c := by
    have hall : ∀ c ∈ "max(1,234.5; x)".toList,
        (!Convention.commaDecimal.isSeparator c ||
          Convention.invariant.isSeparator c) = true :=
      List.all_eq_true.mp (by decide)
    intro c hc hseparator
    simpa [hseparator] using hall c hc
  have htext : Convention.invariant.translateText .commaDecimal
      "max(1,234.5; x)" = "max(1.234,5; x)" := by
    decide
  refine ⟨hfits, htext, ?_⟩
  rw [← htext]
  exact (compile_translate hfits .standard fun _ => rfl).1

end Scope

end Formulary
