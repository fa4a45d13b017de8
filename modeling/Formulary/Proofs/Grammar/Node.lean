import Formulary.Proofs.Grammar.Soundness
import Formulary.Proofs.Tree.Subtree

/-!
# The nodes of a derived formula

Each node of a formula comes from tokens that it was derived from: a constant
from a literal, a variable and the name of a call from a name, an operator from
an operator of some level.  A call has the function that the dialect has under
its name, and as many arguments as that function takes, however deep in the
formula it stands.

* `Dialect.Yields` says what tokens make which nodes;
* `Derives.yields` says so of every node of a derived formula;
* `Derives.wellCalled` is what this means for calls.
-/

namespace Formulary

/-- The node can come from tokens among the given ones. -/
inductive Dialect.Yields (d : Dialect) (tokens : List Token) : Formula → Prop where
  | constant {literal : String} {value : Float}
      (reads : d.convention.readNumber? literal = some value) :
      Yields d tokens (.constant value)
  | var {token : Token} (among : token ∈ tokens)
      (letters : token.category = .letter) : Yields d tokens (.var token.text)
  | negate {operand : Formula} : Yields d tokens (.negate operand)
  | binary {level : Level} {token : Token} {operator : Operator}
      {left right : Formula} (among : token ∈ tokens)
      (denotes : level.Denotes token operator) :
      Yields d tokens (.binary operator left right)
  | call {token : Token} {function : Callable} {arguments : List Formula}
      (among : token ∈ tokens) (letters : token.category = .letter)
      (registered : d.functions.find? token.text = some function)
      (arity : arguments.length = function.arity) :
      Yields d tokens (.call token.text function arguments)

/-- What comes from some tokens comes from more of them. -/
theorem Dialect.Yields.mono {d : Dialect} {tokens others : List Token}
    {node : Formula} (h : d.Yields tokens node) (hsub : tokens ⊆ others) :
    d.Yields others node := by
  cases h with
  | constant reads => exact .constant reads
  | var among letters => exact .var (hsub among) letters
  | negate => exact .negate
  | binary among denotes => exact .binary (hsub among) denotes
  | call among letters registered arity =>
    exact .call (hsub among) letters registered arity

/-- Nodes that come from two stretches of tokens come from both together. -/
private theorem yields_append {d : Dialect} {before after : List Token}
    {token : Token} {left right : List Formula}
    (hleft : ∀ node ∈ left, d.Yields before node)
    (hright : ∀ node ∈ right, d.Yields after node) :
    ∀ node ∈ left ++ right, d.Yields (before ++ token :: after) node := by
  intro node hnode
  rcases List.mem_append.mp hnode with hmem | hmem
  · exact (hleft node hmem).mono (List.subset_append_left _ _)
  · refine (hright node hmem).mono ?_
    exact List.subset_append_of_subset_right _ (List.subset_cons_self _ _)

mutual

/-- **Every node of a derived formula comes from its tokens.** -/
theorem Derives.yields {d : Dialect} {phrase : Phrase} {tokens : List Token}
    {formula : Formula} (h : Derives d phrase tokens formula) :
    ∀ node ∈ formula.subtrees, d.Yields tokens node := by
  match h with
  | .operand inner => exact inner.yields
  | .toRight first denotes others =>
    rw [Tree.subtrees]
    refine List.forall_mem_cons.mpr ⟨.binary (by simp) denotes, ?_⟩
    exact yields_append first.yields others.yields
  | .toLeft _ others denotes last =>
    rw [Tree.subtrees]
    refine List.forall_mem_cons.mpr ⟨.binary (by simp) denotes, ?_⟩
    exact yields_append others.yields last.yields
  | .unsigned inner => exact inner.yields
  | .plus _ inner =>
    intro node hnode
    exact (inner.yields node hnode).mono (List.subset_cons_self _ _)
  | .minus _ inner =>
    rw [Tree.subtrees]
    refine List.forall_mem_cons.mpr ⟨.negate, ?_⟩
    intro node hnode
    exact (inner.yields node hnode).mono (List.subset_cons_self _ _)
  | .group _ inner _ =>
    intro node hnode
    refine (inner.yields node hnode).mono ?_
    exact List.subset_cons_of_subset _ (List.subset_append_left _ _)
  | .number _ reads =>
    rw [Tree.subtrees]
    exact List.forall_mem_singleton.mpr (.constant reads)
  | .name letters =>
    rw [Tree.subtrees]
    exact List.forall_mem_singleton.mpr (.var (by simp) letters)
  | .call letters _ registered inner arity _ =>
    rw [Tree.subtrees]
    refine List.forall_mem_cons.mpr ⟨.call (by simp) letters registered arity, ?_⟩
    intro node hnode
    refine (inner.yields node hnode).mono ?_
    refine List.subset_cons_of_subset _ (List.subset_cons_of_subset _ ?_)
    exact List.subset_append_left _ _

/-- The same for arguments. -/
theorem DerivesArguments.yields {d : Dialect} {tokens : List Token}
    {arguments : List Formula} (h : DerivesArguments d tokens arguments) :
    ∀ node ∈ Tree.subtreesAll arguments, d.Yields tokens node := by
  match h with
  | .one inner =>
    rw [Tree.subtreesAll, Tree.subtreesAll, List.append_nil]
    exact inner.yields
  | .more inner _ rest =>
    rw [Tree.subtreesAll]
    exact yields_append inner.yields rest.yields

end

/-- **Calls fit.**  Every call in a derived formula has as many arguments as its
function takes. -/
theorem Derives.wellCalled {d : Dialect} {phrase : Phrase} {tokens : List Token}
    {formula : Formula} (h : Derives d phrase tokens formula) :
    formula.WellCalled := by
  rw [Tree.wellCalled_iff]
  intro name function arguments hmem
  cases h.yields _ hmem with
  | call _ _ _ arity => exact arity

end Formulary
