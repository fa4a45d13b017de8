import Formulary.Proofs.Grammar.Exactness

/-!
# Chains of operands

Signed atoms with operators between them are a formula, whatever the operators
are.  Its structure can be told from the operators alone, without a word about
levels that read one another: the chain falls apart at one operator, which is the
root, and so do the two parts.  The operator is the leftmost comparison or logical
operator; where there is none, the rightmost `+` or `-`; then the rightmost `*` or
`/`; then the rightmost `%`; and then the rightmost `^`.

What ties this to the grammar is that each of the five choices is a level, and
that no operator of a looser level is left when it is made.  The part that has
lost the chosen level is then an operand of the level, and the other part is a
chain of it.

* `Split.first?` and `Split.last?` take a list apart at an element;
* `Chain.split?` is the choice, and `Chain.tree` the formula that it makes;
* `Chain.derives` says that the grammar gives the same formula;
* `Scope.compileTokens_chain` says it of the parser.
-/

namespace Formulary

/-- An element of the list between what stands before and after it. -/
structure Split {α : Type} (xs : List α) where
  before : List α
  pivot : α
  after : List α
  joined : xs = before ++ pivot :: after

namespace Split

variable {α : Type} {p : α → Bool} {x : α} {xs : List α}

/-- The same element in a list with one more in front. -/
def push (x : α) (split : Split xs) : Split (x :: xs) where
  before := x :: split.before
  pivot := split.pivot
  after := split.after
  joined := congrArg (x :: ·) split.joined

/-- The first element with the property. -/
def first? (p : α → Bool) : (xs : List α) → Option (Split xs)
  | [] => none
  | x :: rest =>
    if p x then some ⟨[], x, rest, rfl⟩ else (first? p rest).map (push x)

/-- The last element with the property. -/
def last? (p : α → Bool) : (xs : List α) → Option (Split xs)
  | [] => none
  | x :: rest =>
    match last? p rest with
    | some split => some (split.push x)
    | none => if p x then some ⟨[], x, rest, rfl⟩ else none

/-- There is no first element if none has the property. -/
theorem first?_eq_none_iff : first? p xs = none ↔ ∀ x ∈ xs, p x = false := by
  induction xs with
  | nil => simp [first?]
  | cons x rest ih => cases h : p x <;> simp [first?, h, ih]

/-- There is no last element if none has the property. -/
theorem last?_eq_none_iff : last? p xs = none ↔ ∀ x ∈ xs, p x = false := by
  induction xs with
  | nil => simp [last?]
  | cons x rest ih =>
    cases hrest : last? p rest with
    | none => cases h : p x <;> simp_all [last?]
    | some split =>
      have hsome : ¬∀ x ∈ rest, p x = false := by
        rw [← ih, hrest]
        simp
      simp only [last?, hrest, reduceCtorEq, List.mem_cons, forall_eq_or_imp,
        false_iff, not_and]
      exact fun _ => hsome

/-- The first element has the property, and none before it has. -/
theorem first?_eq_some {split : Split xs} (h : first? p xs = some split) :
    p split.pivot ∧ ∀ x ∈ split.before, p x = false := by
  induction xs with
  | nil => cases h
  | cons x rest ih =>
    rw [first?] at h
    split at h
    · next hx =>
      obtain rfl := Option.some.inj h
      exact ⟨hx, nofun⟩
    · next hx =>
      obtain ⟨inner, hinner, rfl⟩ := Option.map_eq_some_iff.mp h
      obtain ⟨hpivot, hbefore⟩ := ih hinner
      refine ⟨hpivot, ?_⟩
      intro y hy
      rcases List.mem_cons.mp hy with rfl | hy
      · exact Bool.eq_false_iff.mpr hx
      · exact hbefore y hy

/-- The last element has the property, and none after it has. -/
theorem last?_eq_some {split : Split xs} (h : last? p xs = some split) :
    p split.pivot ∧ ∀ x ∈ split.after, p x = false := by
  induction xs with
  | nil => cases h
  | cons x rest ih =>
    rw [last?] at h
    split at h
    · next inner hinner =>
      obtain rfl := Option.some.inj h
      exact ih hinner
    · next hnone =>
      split at h
      · next hx =>
        obtain rfl := Option.some.inj h
        exact ⟨hx, last?_eq_none_iff.mp hnone⟩
      · cases h

/-- Fewer elements stand before the one at which a list is split. -/
theorem length_before_lt (split : Split xs) : split.before.length < xs.length := by
  have hlength := congrArg List.length split.joined
  simp only [List.length_append, List.length_cons] at hlength
  omega

/-- Fewer elements stand after the one at which a list is split. -/
theorem length_after_lt (split : Split xs) : split.after.length < xs.length := by
  have hlength := congrArg List.length split.joined
  simp only [List.length_append, List.length_cons] at hlength
  omega

/-- The element at which a list is split is in it. -/
theorem pivot_mem (split : Split xs) : split.pivot ∈ xs := by
  obtain ⟨before, pivot, after, rfl⟩ := split
  simp

/-- What stands before it is in the list. -/
theorem before_subset (split : Split xs) : split.before ⊆ xs := by
  intro x hx
  rw [split.joined]
  exact List.mem_append_left _ hx

/-- What stands after it is in the list. -/
theorem after_subset (split : Split xs) : split.after ⊆ xs := by
  intro x hx
  rw [split.joined]
  exact List.mem_append_right _ (List.mem_cons_of_mem _ hx)

end Split

/-- Tokens that are read as a signed atom up to their end. -/
structure Operand (d : Dialect) where
  tokens : List Token
  formula : Formula
  reads : ∃ mentions, d.signed tokens = ⟨.ok formula, [], mentions⟩

/-- An operator with the operand to its right. -/
structure Link (d : Dialect) where
  token : Token
  operator : Operator
  operand : Operand d
  spells : token.isDelimiter operator.symbol
  registered : operator ∈ Operator.table

/-- Operands with operators between them. -/
structure Chain (d : Dialect) where
  first : Operand d
  links : List (Link d)

variable {d : Dialect}

/-- Whether the operator is one of these. -/
def Link.isOneOf (symbols : List String) (link : Link d) : Bool :=
  symbols.contains link.operator.symbol

namespace Chain

/-- The operands and operators, one after the other. -/
def tokens (c : Chain d) : List Token :=
  c.first.tokens ++ c.links.flatMap fun link => link.token :: link.operand.tokens

/-- The operator at which the chain falls apart. -/
def split? (c : Chain d) : Option (Split c.links) :=
  Split.first? (Link.isOneOf ["&&", "||", "==", "<", ">", "<=", ">=", "!=", "<>"])
      c.links <|>
    Split.last? (Link.isOneOf ["+", "-"]) c.links <|>
    Split.last? (Link.isOneOf ["*", "/"]) c.links <|>
    Split.last? (Link.isOneOf ["%"]) c.links <|>
    Split.last? (Link.isOneOf ["^"]) c.links

/-- The formula with the operator at the root at which the chain falls apart, and
with the formulas of the two parts as its operands. -/
def tree (c : Chain d) : Formula :=
  match c.split? with
  | none => c.first.formula
  | some split =>
    .binary split.pivot.operator
      (tree ⟨c.first, split.before⟩)
      (tree ⟨split.pivot.operand, split.after⟩)
termination_by c.links.length
decreasing_by
  · exact split.length_before_lt
  · exact split.length_after_lt

/-- A chain that does not fall apart is its only operand. -/
theorem tree_of_none {c : Chain d} (h : c.split? = none) :
    c.tree = c.first.formula := by
  rw [tree, h]

/-- A chain that falls apart is an operation. -/
theorem tree_of_some {c : Chain d} {split : Split c.links}
    (h : c.split? = some split) :
    c.tree = .binary split.pivot.operator (tree ⟨c.first, split.before⟩)
      (tree ⟨split.pivot.operand, split.after⟩) := by
  rw [tree, h]

/-- The tokens of the parts are those of the chain. -/
theorem tokens_split (c : Chain d) (split : Split c.links) :
    c.tokens = tokens ⟨c.first, split.before⟩ ++
      split.pivot.token :: tokens ⟨split.pivot.operand, split.after⟩ := by
  simp [tokens, split.joined]

end Chain

namespace Link

variable {level : Level} {links : List (Link d)}

/-- The token denotes the operator at its level. -/
theorem denotes {link : Link d} (h : link.isOneOf level.symbols) :
    level.Denotes link.token link.operator where
  delimiter := link.spells
  listed := List.contains_iff_mem.mp h
  registered := link.registered

/-- Every operator has a level. -/
theorem exists_level (link : Link d) :
    ∃ level : Level, link.isOneOf level.symbols := by
  obtain ⟨level, hlevel⟩ :=
    Level.exists_of_mem_symbols (List.mem_map_of_mem link.registered)
  exact ⟨level, List.contains_iff_mem.mpr hlevel⟩

/-- An operator has one level. -/
theorem eq_of_isOneOf {link : Link d} {other : Level}
    (h : link.isOneOf level.symbols) (hother : link.isOneOf other.symbols) :
    level = other :=
  Level.eq_of_takes (Level.denotes_iff.mp (denotes h)).1
    (Level.denotes_iff.mp (denotes hother)).1

/-- All operators are of levels of less than the rank. -/
def Below (rank : Nat) (links : List (Link d)) : Prop :=
  ∀ link ∈ links, ∀ level : Level, link.isOneOf level.symbols → level.rank < rank

namespace Below

variable {rank : Nat} {others : List (Link d)}

/-- No level has a greater rank than the relational one. -/
theorem relational (links : List (Link d)) :
    Below (Level.relational.rank + 1) links :=
  fun _ _ level _ => Nat.lt_succ_of_le level.rank_le

theorem subset (h : Below rank links) (hsubset : others ⊆ links) :
    Below rank others :=
  fun link hlink => h link (hsubset hlink)

/-- Without the operators of a level those of tighter levels are left. -/
theorem of_forall_not (h : Below (level.rank + 1) links)
    (hnot : ∀ link ∈ links, link.isOneOf level.symbols = false) :
    Below level.rank links := by
  intro link hlink other hother
  refine Nat.lt_of_le_of_ne (Nat.le_of_lt_succ (h link hlink other hother)) ?_
  intro hrank
  obtain rfl : other = level :=
    Phrase.chain.inj (Phrase.eq_of_rank_eq (congrArg (· + 1) hrank))
  rw [hnot link hlink] at hother
  cases hother

/-- No operator is tighter than all levels. -/
theorem eq_nil (h : Below Level.power.rank links) : links = [] := by
  rw [List.eq_nil_iff_forall_not_mem]
  intro link hlink
  obtain ⟨level, hlevel⟩ := link.exists_level
  have hlt := h link hlink level hlevel
  cases level <;> simp at hlt

end Below

end Link

namespace Chain

/-- The chain falls apart at an operator of the level: no looser one is left, and
one of the parts has no other of the level. -/
structure SplitsAt (c : Chain d) (level : Level) (split : Split c.links) :
    Prop where
  listed : split.pivot.isOneOf level.symbols
  below : Link.Below (level.rank + 1) c.links
  tighter : level = .relational ∧ Link.Below level.rank split.before ∨
    level ≠ .relational ∧ Link.Below level.rank split.after

variable {c : Chain d} {level : Level} {split : Split c.links}

/-- The choices, one level after the other. -/
private theorem split?_eq (c : Chain d) :
    c.split? =
      (Split.first? (Link.isOneOf Level.relational.symbols) c.links <|>
        Split.last? (Link.isOneOf Level.additive.symbols) c.links <|>
        Split.last? (Link.isOneOf Level.multiplicative.symbols) c.links <|>
        Split.last? (Link.isOneOf Level.modulo.symbols) c.links <|>
        Split.last? (Link.isOneOf Level.power.symbols) c.links) :=
  rfl

/-- The choice is an operator of the level at which the chain falls apart, or no
operator of the level is left. -/
private def Settles (c : Chain d) (level : Level)
    (choice : Option (Split c.links)) : Prop :=
  (∃ split, choice = some split ∧ c.SplitsAt level split) ∨
    choice = none ∧ Link.Below level.rank c.links

/-- The first relational operator settles the relational level. -/
private theorem settles_first? (c : Chain d) :
    c.Settles .relational
      (Split.first? (Link.isOneOf Level.relational.symbols) c.links) := by
  have hbelow := Link.Below.relational c.links
  cases h : Split.first? (Link.isOneOf Level.relational.symbols) c.links with
  | none =>
    exact .inr ⟨rfl, hbelow.of_forall_not (Split.first?_eq_none_iff.mp h)⟩
  | some split =>
    obtain ⟨hlisted, hbefore⟩ := Split.first?_eq_some h
    have htighter : Link.Below Level.relational.rank split.before :=
      (hbelow.subset split.before_subset).of_forall_not hbefore
    exact .inl ⟨split, rfl, hlisted, hbelow, .inl ⟨rfl, htighter⟩⟩

/-- The last operator of any other level settles it, once no looser one is
left. -/
private theorem settles_last? (hlevel : level ≠ .relational)
    (hbelow : Link.Below (level.rank + 1) c.links) :
    c.Settles level (Split.last? (Link.isOneOf level.symbols) c.links) := by
  cases h : Split.last? (Link.isOneOf level.symbols) c.links with
  | none =>
    exact .inr ⟨rfl, hbelow.of_forall_not (Split.last?_eq_none_iff.mp h)⟩
  | some split =>
    obtain ⟨hlisted, hafter⟩ := Split.last?_eq_some h
    have htighter : Link.Below level.rank split.after :=
      (hbelow.subset split.after_subset).of_forall_not hafter
    exact .inl ⟨split, rfl, hlisted, hbelow, .inr ⟨hlevel, htighter⟩⟩

/-- The choice decides where the chain falls apart, or that it does not. -/
private def Decides (c : Chain d) (choice : Option (Split c.links)) : Prop :=
  (∃ split level, choice = some split ∧ c.SplitsAt level split) ∨
    choice = none ∧ c.links = []

/-- What a level does not decide is left to those that are tighter. -/
private theorem decides_orElse {choice others : Option (Split c.links)}
    (h : c.Settles level choice)
    (hothers : Link.Below level.rank c.links → c.Decides others) :
    c.Decides (choice <|> others) := by
  rcases h with ⟨split, rfl, hat⟩ | ⟨rfl, hbelow⟩
  · exact .inl ⟨split, level, rfl, hat⟩
  · exact hothers hbelow

/-- A chain falls apart at its loosest level, unless it has no operators. -/
theorem split?_spec (c : Chain d) :
    (∃ split level, c.split? = some split ∧ c.SplitsAt level split) ∨
      c.split? = none ∧ c.links = [] := by
  show c.Decides c.split?
  rw [split?_eq]
  refine decides_orElse c.settles_first? fun hadditive => ?_
  refine decides_orElse (settles_last? (by decide) hadditive)
    fun hmultiplicative => ?_
  refine decides_orElse (settles_last? (by decide) hmultiplicative)
    fun hmodulo => ?_
  refine decides_orElse (settles_last? (by decide) hmodulo) fun hpower => ?_
  have hlast : c.Settles .power _ := settles_last? (by decide) hpower
  rcases hlast with ⟨split, hsplit, hat⟩ | ⟨hnone, htightest⟩
  · exact .inl ⟨split, _, hsplit, hat⟩
  · exact .inr ⟨hnone, htightest.eq_nil⟩

end Chain

namespace Operand

/-- An operand is a signed atom. -/
theorem derives (a : Operand d) : Derives d .signed a.tokens a.formula := by
  obtain ⟨mentions, hreads⟩ := a.reads
  obtain ⟨front, hfront, hderives, -⟩ := d.read_derives .signed a.tokens hreads
  rw [List.append_nil] at hfront
  exact hfront ▸ hderives

/-- Every signed atom is an operand. -/
def ofDerives {tokens : List Token} {formula : Formula}
    (h : Derives d .signed tokens formula) : Operand d where
  tokens := tokens
  formula := formula
  reads := ⟨formula.leaves, by
    simpa only [Dialect.read, List.append_nil] using h.read_eq (.nil _ _)⟩

/-- A minus in front of an operand belongs to the operand. -/
theorem exists_negate (a : Operand d) {minus : Token} {rest : List Token}
    (htokens : a.tokens = minus :: rest) (hminus : minus.isDelimiter "-") :
    ∃ inner mentions, d.atom rest = ⟨.ok inner, [], mentions⟩ ∧
      a.formula = .negate inner := by
  obtain ⟨mentions, hreads⟩ := a.reads
  rw [htokens, Dialect.signed_cons, if_pos hminus] at hreads
  obtain ⟨inner, hinner, hformula⟩ := Outcome.map_eq_ok hreads
  exact ⟨inner, mentions, hinner, hformula⟩

end Operand

namespace Chain

variable {level : Level}

/-- **The grammar splits chains.**  A chain derives its formula as a phrase of
every kind that is looser than all its operators. -/
theorem derives (c : Chain d) {phrase : Phrase}
    (hphrase : Phrase.signed.rank ≤ phrase.rank)
    (hbelow : Link.Below phrase.rank c.links) :
    Derives d phrase c.tokens c.tree := by
  induction hn : c.links.length using Nat.strongRecOn generalizing c phrase with
  | ind n ih =>
    rcases c.split?_spec with ⟨split, level, hsplit, hat⟩ | ⟨hnone, hnil⟩
    · have hleft := hn ▸ split.length_before_lt
      have hright := hn ▸ split.length_after_lt
      have hdenotes := Link.denotes hat.listed
      have hsigned : Phrase.signed.rank ≤ (Phrase.operandOf level).rank := by
        cases level <;> decide
      have hloose : Phrase.signed.rank ≤ (Phrase.chain level).rank :=
        Nat.le_add_left 1 _
      have hchain : Derives d (.chain level) c.tokens c.tree := by
        rw [tree_of_some hsplit, tokens_split c split]
        rcases hat.tighter with ⟨rfl, hbefore⟩ | ⟨hlevel, hafter⟩
        · have hfirst := ih _ hleft ⟨c.first, split.before⟩ hsigned hbefore rfl
          have hothers := ih _ hright ⟨split.pivot.operand, split.after⟩ hloose
            (hat.below.subset split.after_subset) rfl
          exact .toRight hfirst hdenotes hothers
        · have hothers := ih _ hleft ⟨c.first, split.before⟩ hloose
            (hat.below.subset split.before_subset) rfl
          have hlast := ih _ hright ⟨split.pivot.operand, split.after⟩ hsigned
            (by rwa [Phrase.rank_operandOf]) rfl
          exact .toLeft hlevel hothers hdenotes hlast
      have hrank : level.rank < phrase.rank :=
        hbelow split.pivot split.pivot_mem level hat.listed
      exact hchain.looser hrank
    · have htokens : c.tokens = c.first.tokens := by simp [tokens, hnil]
      rw [tree_of_none hnone, htokens]
      exact c.first.derives.looser hphrase

/-- The formula in which every operator takes all that is before it. -/
def groupLeft (first : Formula) (links : List (Link d)) : Formula :=
  links.foldl (fun left link => .binary link.operator left link.operand.formula)
    first

/-- The formula in which every operator takes all that is after it. -/
def groupRight (first : Formula) : List (Link d) → Formula
  | [] => first
  | link :: rest =>
    .binary link.operator first (groupRight link.operand.formula rest)

/-- Operators of the level are not below it. -/
private theorem eq_nil_of_below {links : List (Link d)}
    (hlinks : ∀ link ∈ links, link.isOneOf level.symbols)
    (hbelow : Link.Below level.rank links) : links = [] := by
  rw [List.eq_nil_iff_forall_not_mem]
  intro link hlink
  exact Nat.lt_irrefl _ (hbelow link hlink level (hlinks link hlink))

/-- A chain of one operand is the operand. -/
private theorem tree_single (a : Operand d) : tree ⟨a, []⟩ = a.formula :=
  tree_of_none rfl

/-- A chain of a level other than the relational one groups to the left, as the
operator at its root is the last one. -/
theorem tree_eq_groupLeft (c : Chain d) (hlevel : level ≠ .relational)
    (hlinks : ∀ link ∈ c.links, link.isOneOf level.symbols) :
    c.tree = groupLeft c.first.formula c.links := by
  induction hn : c.links.length using Nat.strongRecOn generalizing c with
  | ind n ih =>
    rcases c.split?_spec with ⟨split, other, hsplit, hat⟩ | ⟨hnone, hnil⟩
    · obtain rfl : level = other :=
        Link.eq_of_isOneOf (hlinks _ split.pivot_mem) hat.listed
      obtain ⟨heq, -⟩ | ⟨-, hafter⟩ := hat.tighter
      · exact absurd heq hlevel
      have hnil : split.after = [] :=
        eq_nil_of_below (fun _ h => hlinks _ (split.after_subset h)) hafter
      have hbefore : tree ⟨c.first, split.before⟩ =
          groupLeft c.first.formula split.before :=
        ih _ (hn ▸ split.length_before_lt) ⟨c.first, split.before⟩
          (fun _ h => hlinks _ (split.before_subset h)) rfl
      have hgroup := congrArg (groupLeft c.first.formula) split.joined
      rw [hnil, groupLeft, groupLeft, List.foldl_append, List.foldl_cons,
        List.foldl_nil] at hgroup
      rw [tree_of_some hsplit, hnil, tree_single, hbefore]
      exact hgroup.symm
    · rw [tree_of_none hnone, hnil]
      rfl

/-- A relational chain groups to the right. -/
theorem tree_eq_groupRight (c : Chain d)
    (hlinks : ∀ link ∈ c.links, link.isOneOf Level.relational.symbols) :
    c.tree = groupRight c.first.formula c.links := by
  induction hn : c.links.length using Nat.strongRecOn generalizing c with
  | ind n ih =>
    rcases c.split?_spec with ⟨split, other, hsplit, hat⟩ | ⟨hnone, hnil⟩
    · obtain rfl : Level.relational = other :=
        Link.eq_of_isOneOf (hlinks _ split.pivot_mem) hat.listed
      obtain ⟨-, hbefore⟩ | ⟨hne, -⟩ := hat.tighter
      · have hnil : split.before = [] :=
          eq_nil_of_below (fun _ h => hlinks _ (split.before_subset h)) hbefore
        have hafter : tree ⟨split.pivot.operand, split.after⟩ =
            groupRight split.pivot.operand.formula split.after :=
          ih _ (hn ▸ split.length_after_lt) ⟨split.pivot.operand, split.after⟩
            (fun _ h => hlinks _ (split.after_subset h)) rfl
        have hgroup := congrArg (groupRight c.first.formula) split.joined
        rw [hnil, List.nil_append, groupRight] at hgroup
        rw [tree_of_some hsplit, hnil, tree_single, hafter]
        exact hgroup.symm
      · exact absurd rfl hne
    · rw [tree_of_none hnone, hnil]
      rfl

end Chain

/-- **Precedence.**  Operands with operators between them, however many and
whichever they are, compile to the tree that the choice of operators makes, with
the cells of its variables.  So comparisons and logical operators group to the
right, those of any other level to the left, and a minus in front of an operand
stays with the operand, also before a power. -/
theorem Scope.compileTokens_chain (s : Scope) (c : Chain d) :
    s.compileTokens d c.tokens =
        (.ok ((s.declareAll c.tree.leaves).bind c.tree),
          s.declareAll c.tree.leaves) ∧
      ((∀ link ∈ c.links, link.isOneOf Level.relational.symbols) →
        c.tree = Chain.groupRight c.first.formula c.links) ∧
      (∀ level : Level, level ≠ .relational →
        (∀ link ∈ c.links, link.isOneOf level.symbols) →
        c.tree = Chain.groupLeft c.first.formula c.links) ∧
      ∀ (a : Operand d) (minus : Token) (rest : List Token),
        a.tokens = minus :: rest → minus.isDelimiter "-" →
        ∃ inner mentions, d.atom rest = ⟨.ok inner, [], mentions⟩ ∧
          a.formula = .negate inner := by
  have hwhole : Derives d (.chain .relational) c.tokens c.tree :=
    c.derives (by decide) (Link.Below.relational c.links)
  refine ⟨?_, c.tree_eq_groupRight, fun _ => c.tree_eq_groupLeft,
    fun a _ _ => a.exists_negate⟩
  rw [compileTokens, hwhole.parse_eq]
  rfl

/-- Two of the minus signs are operators, and the one before a name is a sign, which
stays under the power. -/
theorem Scope.compileTokens_chain_signed :
    let minus : Operator := ⟨"-", fun x y => x - y⟩
    let power : Operator := ⟨"^", Float.pow⟩
    let declared := empty.declareAll ["x", "y", "z", "w"]
    empty.compileTokens ⟨.invariant, .standard⟩
        [⟨"x", .letter, 0⟩, ⟨"-", .delimiter, 1⟩, ⟨"-", .delimiter, 2⟩,
          ⟨"y", .letter, 3⟩, ⟨"^", .delimiter, 4⟩, ⟨"z", .letter, 5⟩,
          ⟨"-", .delimiter, 6⟩, ⟨"w", .letter, 7⟩] =
      (.ok (declared.bind (.binary minus
        (.binary minus (.var "x") (.binary power (.negate (.var "y")) (.var "z")))
        (.var "w"))), declared) := by
  intro minus power declared
  let d : Dialect := ⟨.invariant, .standard⟩
  have hname (text : String) (position : Nat) :
      Derives d .signed [⟨text, .letter, position⟩] (.var text) :=
    .unsigned (.name rfl)
  have hnegated : Derives d .signed [⟨"-", .delimiter, 2⟩, ⟨"y", .letter, 3⟩]
      (.negate (.var "y")) :=
    .minus (by decide) (.name rfl)
  have hminus : minus ∈ Operator.table :=
    show Operator.table[1] ∈ Operator.table from List.getElem_mem _
  have hpower : power ∈ Operator.table :=
    show Operator.table[5] ∈ Operator.table from List.getElem_mem _
  let c : Chain d :=
    { first := .ofDerives (hname "x" 0)
      links :=
        [⟨⟨"-", .delimiter, 1⟩, minus, .ofDerives hnegated, by decide, hminus⟩,
          ⟨⟨"^", .delimiter, 4⟩, power, .ofDerives (hname "z" 5), by decide, hpower⟩,
          ⟨⟨"-", .delimiter, 6⟩, minus, .ofDerives (hname "w" 7), by decide,
            hminus⟩] }
  have htree : c.tree = .binary minus
      (.binary minus (.var "x") (.binary power (.negate (.var "y")) (.var "z")))
      (.var "w") := by
    with_unfolding_all rfl
  have hcompile := (empty.compileTokens_chain c).1
  rw [htree] at hcompile
  exact hcompile

end Formulary
