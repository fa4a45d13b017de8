import Formulary.Grammar.Parse

/-!
# Inversion of outcomes

A rule of the grammar is a chain of steps, each of which goes on where the one
before succeeded.  A successful outcome therefore falls apart into successful
steps, and every step has left fewer tokens than it was given.

* `Outcome.andThen_eq_ok` takes a successful sequence apart;
* `Dialect.operand_shorter` and its like bound the tokens that a rule leaves.
-/

namespace Formulary

namespace Outcome

variable {α β : Type}

@[simp]
theorem mentioning_mk (names : List String) (result : Except CompileError α)
    (rest : List Token) (mentions : List String) :
    (⟨result, rest, mentions⟩ : Outcome α).mentioning names =
      ⟨result, rest, names ++ mentions⟩ := rfl

@[simp]
theorem mentioning_mentioning (first second : List String) (o : Outcome α) :
    (o.mentioning second).mentioning first = o.mentioning (first ++ second) := by
  simp [mentioning]

@[simp]
theorem ok_andThen (value : α) (rest : List Token) (mentions : List String)
    (next : α → List Token → Outcome β) :
    (⟨.ok value, rest, mentions⟩ : Outcome α).andThen next =
      (next value rest).mentioning mentions := rfl

@[simp]
theorem error_andThen (error : CompileError) (rest : List Token)
    (mentions : List String) (next : α → List Token → Outcome β) :
    (⟨.error error, rest, mentions⟩ : Outcome α).andThen next =
      ⟨.error error, rest, mentions⟩ := rfl

@[simp]
theorem map_ok (f : α → β) (value : α) (rest : List Token)
    (mentions : List String) :
    (⟨.ok value, rest, mentions⟩ : Outcome α).map f =
      ⟨.ok (f value), rest, mentions⟩ := rfl

/-- A sequence succeeds where its first step does and the second one after it,
and it mentions what the two mention. -/
theorem andThen_eq_ok {o : Outcome α} {next : α → List Token → Outcome β}
    {value : β} {rest : List Token} {mentions : List String}
    (h : o.andThen next = ⟨.ok value, rest, mentions⟩) :
    ∃ first between early late,
      o = ⟨.ok first, between, early⟩ ∧
      next first between = ⟨.ok value, rest, late⟩ ∧
      mentions = early ++ late := by
  obtain ⟨result, between, early⟩ := o
  cases result with
  | error error => simp at h
  | ok first =>
    rw [ok_andThen] at h
    cases hnext : next first between with
    | mk result' rest' late =>
      rw [hnext, mentioning_mk] at h
      obtain ⟨rfl, rfl, rfl⟩ := Outcome.mk.inj h
      exact ⟨first, between, early, late, rfl, hnext, rfl⟩

/-- Another value under the same outcome comes from a value of that outcome. -/
theorem map_eq_ok {o : Outcome α} {f : α → β} {value : β} {rest : List Token}
    {mentions : List String} (h : o.map f = ⟨.ok value, rest, mentions⟩) :
    ∃ inner, o = ⟨.ok inner, rest, mentions⟩ ∧ value = f inner := by
  obtain ⟨result, rest', mentions'⟩ := o
  cases result with
  | error error => simp [map, Except.map] at h
  | ok inner =>
    rw [map_ok] at h
    obtain ⟨hvalue, rfl, rfl⟩ := Outcome.mk.inj h
    exact ⟨inner, rfl, (Except.ok.inj hvalue).symm⟩

end Outcome

/-- A reading that succeeds leaves fewer tokens than its bound. -/
theorem Reading.shorter_of_outcome {α : Type} {n : Nat} {r : Reading α n}
    {value : α} {rest : List Token} {mentions : List String}
    (h : r.outcome = ⟨.ok value, rest, mentions⟩) : rest.length < n := by
  cases r with
  | done value' rest' mentions' shorter =>
    rw [outcome_done] at h
    obtain ⟨-, rfl, -⟩ := Outcome.mk.inj h
    exact shorter
  | failed error rest' mentions' => simp at h

namespace Dialect

variable {d : Dialect} {level : Level} {tokens rest : List Token}
  {formula : Formula} {mentions : List String}

/-- An operand consumes something. -/
theorem operand_shorter
    (h : d.operand level tokens = ⟨.ok formula, rest, mentions⟩) :
    rest.length < tokens.length :=
  Reading.shorter_of_outcome h

/-- A right operand consumes something. -/
theorem rightOperand_shorter
    (h : d.rightOperand level tokens = ⟨.ok formula, rest, mentions⟩) :
    rest.length < tokens.length :=
  Reading.shorter_of_outcome h

end Dialect

end Formulary
