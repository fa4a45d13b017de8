import Formulary.Compilation
import Formulary.Proofs.Grammar.Stopping

/-!
# Reading a part of a token list

A chain that is read in front of other tokens is read in the same way without
them.  In the other direction, a chain that takes all tokens of a list is read in
the same way in front of others, provided that these do not make it longer.  The
proviso is no more than what is needed: where a chain stops, it holds.

Both directions go through the grammar.  What has been read is derived from the
tokens that are consumed, and a derivation knows nothing of what comes after.

* `Dialect.read_append_eq_ok_iff` is the statement for every phrase;
* `Scope.adopt_chain_append` says it of trees and variables.
-/

namespace Formulary

/-- **Locality.**  A phrase is read in front of other tokens exactly where it is
read alone and the others follow it. -/
theorem Dialect.read_append_eq_ok_iff {d : Dialect} {phrase : Phrase}
    {front rest : List Token} {formula : Formula} {mentions : List String} :
    d.read phrase (front ++ rest) = ⟨.ok formula, rest, mentions⟩ ↔
      d.read phrase front = ⟨.ok formula, [], mentions⟩ ∧
        Follows phrase front rest := by
  constructor
  · intro h
    obtain ⟨consumed, hconsumed, hderives, rfl⟩ := d.read_derives phrase _ h
    obtain rfl : front = consumed := List.append_cancel_right hconsumed
    obtain ⟨before, hbefore, hfollows⟩ := d.read_follows phrase _ h
    obtain rfl : front = before := List.append_cancel_right hbefore
    have halone := hderives.read_eq (.nil phrase front)
    rw [List.append_nil] at halone
    exact ⟨halone, hfollows⟩
  · rintro ⟨h, hfollows⟩
    obtain ⟨consumed, hconsumed, hderives, rfl⟩ := d.read_derives phrase _ h
    obtain rfl : front = consumed := by simpa using hconsumed
    exact hderives.read_eq hfollows

/-- Tokens that begin with no operator of the level or a tighter one, and with no
parenthesis after a name, follow a chain of the level. -/
theorem follows_chain_iff {level : Level} {front rest : List Token} :
    Follows (.chain level) front rest ↔
      ∀ token ∈ rest.head?,
        (∀ other : Level, other.rank ≤ level.rank → other.takes token = false) ∧
        (token.isDelimiter "(" →
          ∀ last ∈ front.getLast?, last.category ≠ .letter) := by
  constructor
  · intro h token htoken
    exact ⟨fun other hrank => h.ends_chain token htoken other (Nat.lt_succ_of_le hrank),
      h.ends_name token htoken⟩
  · intro h
    exact ⟨fun token htoken other hrank =>
      (h token htoken).1 other (Nat.le_of_lt_succ hrank),
      fun token htoken => (h token htoken).2⟩

namespace Scope

/-- What is taken over from a rule that succeeds. -/
theorem adopt_eq_ok_iff {s after : Scope} {o : Outcome Formula}
    {tree : BoundTree} :
    s.adopt o = (.ok tree, after) ↔
      ∃ formula, o.result = .ok formula ∧ after = s.declareAll o.mentions ∧
        tree = after.bind formula := by
  obtain ⟨result, rest, mentions⟩ := o
  rw [adopt, Prod.mk.injEq]
  cases result with
  | error error => simp [Except.map]
  | ok formula =>
    simp only [Except.map, Except.ok.injEq, exists_eq_left']
    constructor
    · rintro ⟨rfl, rfl⟩
      exact ⟨rfl, rfl⟩
    · rintro ⟨rfl, rfl⟩
      exact ⟨rfl, rfl⟩

/-- A rule that leaves the tokens yields the tree and the scope exactly where it
reads the formula of the tree and mentions what the scope declares. -/
private theorem adopt_leaving_iff {s after : Scope} {o : Outcome Formula}
    {tree : BoundTree} {rest : List Token} :
    s.adopt o = (.ok tree, after) ∧ o.rest = rest ↔
      ∃ formula mentions, o = ⟨.ok formula, rest, mentions⟩ ∧
        after = s.declareAll mentions ∧ tree = after.bind formula := by
  rw [adopt_eq_ok_iff]
  obtain ⟨result, rest', mentions⟩ := o
  constructor
  · rintro ⟨⟨formula, rfl, hafter, htree⟩, rfl⟩
    exact ⟨formula, mentions, rfl, hafter, htree⟩
  · rintro ⟨formula, names, hsame, hafter, htree⟩
    obtain ⟨rfl, rfl, rfl⟩ := Outcome.mk.inj hsame
    exact ⟨⟨formula, rfl, hafter, htree⟩, rfl⟩

/-- **Reading is local.**  Whatever the scope, a chain of a level in front of
other tokens yields a tree and leaves exactly those others, if and only if it
yields the same tree with the same variables when it stands alone, leaves nothing
then, and the other tokens do not make it longer: there are none, or the first of
them is no operator of the level or of a tighter one, and no opening parenthesis
after a name. -/
theorem adopt_chain_append (s after : Scope) (d : Dialect) (level : Level)
    (front rest : List Token) (tree : BoundTree) :
    (s.adopt (d.chain level (front ++ rest)) = (.ok tree, after) ∧
        (d.chain level (front ++ rest)).rest = rest) ↔
      (s.adopt (d.chain level front) = (.ok tree, after) ∧
        (d.chain level front).rest = []) ∧
      ∀ token ∈ rest.head?,
        (∀ other : Level, other.rank ≤ level.rank →
          ¬(token.category = .delimiter ∧ token.text ∈ other.symbols)) ∧
        (token.isDelimiter "(" →
          ∀ last ∈ front.getLast?, last.category ≠ .letter) := by
  have hlocal : ∀ formula mentions,
      d.read (.chain level) (front ++ rest) = ⟨.ok formula, rest, mentions⟩ ↔
        d.read (.chain level) front = ⟨.ok formula, [], mentions⟩ ∧
          Follows (.chain level) front rest := fun _ _ =>
    Dialect.read_append_eq_ok_iff
  simp only [← Level.takes_iff, Bool.not_eq_true, ← follows_chain_iff]
  rw [adopt_leaving_iff, adopt_leaving_iff]
  constructor
  · rintro ⟨formula, mentions, hread, hafter, htree⟩
    obtain ⟨halone, hfollows⟩ := (hlocal formula mentions).mp hread
    exact ⟨⟨formula, mentions, halone, hafter, htree⟩, hfollows⟩
  · rintro ⟨⟨formula, mentions, halone, hafter, htree⟩, hfollows⟩
    exact ⟨formula, mentions, (hlocal formula mentions).mpr ⟨halone, hfollows⟩,
      hafter, htree⟩

end Scope

end Formulary
