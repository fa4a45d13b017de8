import Formulary.CompileError
import Formulary.Token.Basic

/-!
# Readings of token lists

A rule of the grammar reads a stretch at the front of a token list.  Whether it
succeeds or fails, it leaves the tokens that it did not consume, and it has
mentioned the names of the variables that it passed, in their order.  The two
types say this twice: a `Reading` carries a proof that success has consumed
something, which the recursion of the rules rests on, and an `Outcome` is the
same without the proof.

* `Reading.andThen` goes on where a reading succeeded;
* `outcome_andThen` and its like carry a reading over to its outcome.
-/

namespace Formulary

/-- What a rule makes of a token list. -/
structure Outcome (α : Type) where
  result : Except CompileError α
  /-- The tokens not consumed. -/
  rest : List Token
  /-- The names of variables passed on the way. -/
  mentions : List String

/-- What a rule makes of a token list, where success leaves fewer tokens than
the bound. -/
inductive Reading (α : Type) (bound : Nat) : Type where
  | done (value : α) (rest : List Token) (mentions : List String)
    (shorter : rest.length < bound)
  | failed (error : CompileError) (rest : List Token) (mentions : List String)

namespace Outcome

variable {α β : Type}

/-- The outcome with names mentioned before it. -/
def mentioning (names : List String) (o : Outcome α) : Outcome α :=
  { o with mentions := names ++ o.mentions }

/-- Goes on with the value and the tokens that are left. -/
def andThen (o : Outcome α) (next : α → List Token → Outcome β) : Outcome β :=
  match o.result with
  | .ok value => (next value o.rest).mentioning o.mentions
  | .error error => { result := .error error, rest := o.rest, mentions := o.mentions }

/-- The outcome with another value. -/
def map (f : α → β) (o : Outcome α) : Outcome β :=
  { o with result := o.result.map f }

end Outcome

namespace Reading

variable {α β : Type} {m n : Nat}

/-- The outcome of a reading. -/
def outcome : Reading α n → Outcome α
  | done value rest mentions _ => { result := .ok value, rest, mentions }
  | failed error rest mentions => { result := .error error, rest, mentions }

/-- A reading that keeps a bound keeps a larger one. -/
def weaken (h : m ≤ n) : Reading α m → Reading α n
  | done value rest mentions shorter =>
    done value rest mentions (Nat.lt_of_lt_of_le shorter h)
  | failed error rest mentions => failed error rest mentions

/-- The reading with names mentioned before it. -/
def mentioning (names : List String) : Reading α n → Reading α n
  | done value rest mentions shorter =>
    done value rest (names ++ mentions) shorter
  | failed error rest mentions => failed error rest (names ++ mentions)

/-- Goes on with the value and the tokens that are left, which are fewer than
the bound. -/
def andThen (r : Reading α n)
    (next : α → (rest : List Token) → rest.length < n →
      Reading β (rest.length + 1)) : Reading β n :=
  match r with
  | done value rest mentions shorter =>
    ((next value rest shorter).weaken shorter).mentioning mentions
  | failed error rest mentions => failed error rest mentions

/-- The reading with another value. -/
def map (f : α → β) : Reading α n → Reading β n
  | done value rest mentions shorter => done (f value) rest mentions shorter
  | failed error rest mentions => failed error rest mentions

@[simp]
theorem outcome_done (value : α) (rest : List Token) (mentions : List String)
    (shorter : rest.length < n) :
    (done value rest mentions shorter).outcome =
      { result := .ok value, rest, mentions } := rfl

@[simp]
theorem outcome_failed (error : CompileError) (rest : List Token)
    (mentions : List String) :
    (failed error rest mentions : Reading α n).outcome =
      { result := .error error, rest, mentions } := rfl

@[simp]
theorem outcome_weaken (h : m ≤ n) (r : Reading α m) :
    (r.weaken h).outcome = r.outcome := by
  cases r <;> rfl

@[simp]
theorem outcome_mentioning (names : List String) (r : Reading α n) :
    (r.mentioning names).outcome = r.outcome.mentioning names := by
  cases r <;> rfl

@[simp]
theorem outcome_map (f : α → β) (r : Reading α n) :
    (r.map f).outcome = r.outcome.map f := by
  cases r <;> rfl

/-- Going on with a reading is going on with its outcome, if the continuation
does not look at the proof. -/
theorem outcome_andThen (r : Reading α n)
    (next : α → (rest : List Token) → rest.length < n →
      Reading β (rest.length + 1))
    (onOutcome : α → List Token → Outcome β)
    (h : ∀ value rest shorter,
      (next value rest shorter).outcome = onOutcome value rest) :
    (r.andThen next).outcome = r.outcome.andThen onOutcome := by
  cases r with
  | done value rest mentions shorter =>
    simp only [andThen, outcome_mentioning, outcome_weaken, h]
    rfl
  | failed => rfl

end Reading

end Formulary
