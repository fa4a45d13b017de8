import Formulary.Proofs.Display.Tokens

/-!
# Display forms and the grammar

The tokens of a display form are a phrase of the grammar with the displayed
formula as its meaning, except for two kinds of nodes.  A negation under a
negation puts a sign before a sign, which no phrase has, and an infinite
constant is displayed as a name.

Display forms are atoms, or signed atoms where they begin with a sign.  A tight
phrase is a phrase of every looser kind, so the parts of a display form are
phrases of whatever kind the grammar asks for.

* `Tree.Misread` are the two kinds of nodes;
* `Derives.operation` puts signed atoms together;
* `Displays.derives` reads a display form without misread nodes.
-/

namespace Formulary

/-- A node that its display form does not mean: a negation under a negation, or
an infinite constant. -/
inductive Tree.Misread {α : Type} : Tree α → Prop where
  | twice (operand : Tree α) : Misread (.negate (.negate operand))
  | infinite (negative : Bool) :
      Misread (.constant (Binary64.ofParts negative .infinity))

namespace Tree

variable {α β : Type}

/-- What stands for the variables has no influence on how a node is read. -/
theorem misread_map (f : α → β) (tree : Tree α) :
    (tree.map f).Misread ↔ tree.Misread := by
  constructor
  · intro h
    cases tree with
    | constant value =>
      rw [map] at h
      cases h with
      | infinite negative => exact .infinite negative
    | negate operand =>
      cases operand with
      | negate operand => exact .twice operand
      | _ =>
        rw [map, map] at h
        cases h
    | _ =>
      rw [map] at h
      cases h
  · intro h
    cases h with
    | twice operand =>
      rw [map, map]
      exact .twice (operand.map f)
    | infinite negative =>
      rw [map]
      exact .infinite negative

theorem forall_not_misread_map (f : α → β) (tree : Tree α) :
    (∀ node ∈ (tree.map f).subtrees, ¬node.Misread) ↔
      ∀ node ∈ tree.subtrees, ¬node.Misread := by
  simp only [subtrees_map, List.forall_mem_map, misread_map]

/-- The two kinds of misread nodes, one by one. -/
theorem forall_not_misread_iff (nodes : List (Tree α)) :
    (∀ node ∈ nodes, ¬node.Misread) ↔
      (∀ operand, .negate (.negate operand) ∉ nodes) ∧
        ∀ negative, .constant (Binary64.ofParts negative .infinity) ∉ nodes := by
  constructor
  · intro h
    exact ⟨fun operand hmem => h _ hmem (.twice operand),
      fun negative hmem => h _ hmem (.infinite negative)⟩
  · rintro ⟨htwice, hinfinite⟩ node hmem hmisread
    cases hmisread with
    | twice operand => exact htwice operand hmem
    | infinite negative => exact hinfinite negative hmem

end Tree

/-- The kind of phrase that a display form is. -/
def Tree.displayPhrase {α : Type} : Tree α → Phrase
  | .negate _ => .signed
  | .constant _ | .var _ | .binary _ _ _ | .call _ _ _ => .atom

theorem Tree.rank_displayPhrase_le {α : Type} (tree : Tree α) :
    tree.displayPhrase.rank ≤ Phrase.signed.rank := by
  cases tree with
  | negate => exact Nat.le_refl _
  | _ => exact Nat.zero_le _

/-- Under a negation that is read, there is an atom. -/
theorem Tree.displayPhrase_of_not_misread {α : Type} {operand : Tree α}
    (h : ¬(negate operand).Misread) : operand.displayPhrase = .atom := by
  cases operand with
  | negate operand => exact absurd (.twice operand) h
  | _ => rfl

section Phrases

variable {d : Dialect} {phrase : Phrase} {tokens : List Token} {formula : Formula}

/-- Display forms are signed atoms. -/
theorem Derives.signed (h : Derives d formula.displayPhrase tokens formula) :
    Derives d .signed tokens formula :=
  h.looser formula.rank_displayPhrase_le

/-- An operator between signed atoms makes a phrase. -/
theorem Derives.operation {level : Level} {before after : List Token}
    {token : Token} {operator : Operator} {left right : Formula}
    (hleft : Derives d .signed before left) (h : level.Denotes token operator)
    (hright : Derives d .signed after right) :
    Derives d (.chain .relational) (before ++ token :: after)
      (.binary operator left right) := by
  have hsigned : Phrase.signed.rank ≤ (Phrase.operandOf level).rank := by
    cases level <;> decide
  by_cases hlevel : level = .relational
  · subst hlevel
    exact .toRight (hleft.looser hsigned) h (hright.looser (by decide))
  · have hchain : Phrase.signed.rank ≤ (Phrase.chain level).rank :=
      Nat.le_add_left 1 _
    have hloose : (Phrase.chain level).rank ≤ (Phrase.chain .relational).rank :=
      Nat.succ_le_succ level.rank_le
    have hop := Derives.toLeft hlevel (hleft.looser hchain) h
      (hright.looser hsigned)
    exact hop.looser hloose

mutual

/-- **A display form means the displayed formula**, if no node of the formula is
misread. -/
theorem Displays.derives (hdecimal : d.convention.decimal = '.')
    {tokens : List Token} {formula : Formula} (h : Displays tokens formula)
    (hlegible : ∀ node ∈ formula.subtrees, Legible d.functions node)
    (hread : ∀ node ∈ formula.subtrees, ¬node.Misread) :
    Derives d formula.displayPhrase tokens formula := by
  match h with
  | .constant finite numeric text =>
    refine .number numeric ?_
    rw [text]
    exact Convention.readNumber?_text hdecimal finite
  | .infinity _ =>
    rw [Tree.subtrees, List.forall_mem_singleton] at hread
    exact absurd (.infinite false) hread
  | .var letters => exact .name letters
  | .negate negative inner =>
    rw [Tree.subtrees, List.forall_mem_cons] at hlegible hread
    have hinner := inner.derives hdecimal hlegible.2 hread.2
    rw [Tree.displayPhrase_of_not_misread hread.1] at hinner
    exact .minus negative hinner
  | .binary _ opens first symbol second closes =>
    rw [Tree.subtrees, List.forall_mem_cons, List.forall_mem_append]
      at hlegible hread
    have hleft := first.derives hdecimal hlegible.2.1 hread.2.1
    have hright := second.derives hdecimal hlegible.2.2 hread.2.2
    cases hlegible.1 with
    | binary listed registered =>
      have hop := hleft.signed.operation ⟨symbol, listed, registered⟩
        hright.signed
      exact .group opens hop closes
  | .call letters opens inner closes =>
    rw [Tree.subtrees, List.forall_mem_cons] at hlegible hread
    have harguments := inner.derives hdecimal hlegible.2 hread.2
    cases hlegible.1 with
    | call _ registered arity =>
      exact .call letters opens registered harguments arity closes

/-- The same for arguments. -/
theorem DisplaysArguments.derives (hdecimal : d.convention.decimal = '.')
    {tokens : List Token} {arguments : List Formula}
    (h : DisplaysArguments tokens arguments)
    (hlegible : ∀ node ∈ Tree.subtreesAll arguments, Legible d.functions node)
    (hread : ∀ node ∈ Tree.subtreesAll arguments, ¬node.Misread) :
    DerivesArguments d tokens arguments := by
  match h with
  | .one inner =>
    rw [Tree.subtreesAll, List.forall_mem_append] at hlegible hread
    have hinner := inner.derives hdecimal hlegible.1 hread.1
    exact .one (hinner.signed.looser (by decide))
  | .more inner separates rest =>
    rw [Tree.subtreesAll, List.forall_mem_append] at hlegible hread
    have hinner := inner.derives hdecimal hlegible.1 hread.1
    have hrest := rest.derives hdecimal hlegible.2 hread.2
    exact .more (hinner.signed.looser (by decide)) separates hrest

end

end Phrases

end Formulary
