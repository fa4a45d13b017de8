import Formulary.Proofs.Grammar.Exactness
import Formulary.Proofs.Grammar.Exhaustion
import Formulary.Proofs.Scope
import Mathlib.Data.List.Forall2

/-!
# Calls and their arguments

The tokens of a call are a name, an opening parenthesis and slots for arguments,
each up to the token that ends it: a separator, and for the last slot the closing
parenthesis.  A slot may be empty, and any other slot here is a list of tokens
that compiles by itself.

Which of three errors a call is rejected with depends on the table and on the
slots alone.  A name that is not in the table is reported first.  An empty slot
among others is reported next, for it is met before the arguments are counted.
The number of arguments comes last.  A single slot that is empty is no missing
argument: it is a call without arguments.

What a slot means by itself it means as an argument too, since no phrase goes on
over a separator or a closing parenthesis.  So both the arguments of an accepted
call and the way to the first empty slot are followed slot by slot.

* `Slot.Listed` are the slots of a call;
* `Slot.Listed.derives` makes arguments of slots, and `Slot.Listed.reaches` goes
  on to one of them;
* `Scope.CompilesEach` compiles one token list after the other;
* `Scope.compileTokens_call` is the statement for calls.
-/

namespace Formulary

open Relation (ReflTransGen)

variable {d : Dialect}

/-- The place of an argument: its tokens, of which there may be none, and the
token that ends it. -/
structure Slot where
  tokens : List Token
  ending : Token

namespace Slot

/-- The tokens of the slots, each with the token that ends it. -/
def all (slots : List Slot) : List Token :=
  slots.flatMap fun slot => slot.tokens ++ [slot.ending]

/-- A separator ends every slot but the last, and a closing parenthesis ends
that one. -/
inductive Listed : List Slot → Prop where
  | last {slot : Slot} (closes : slot.ending.isDelimiter ")") : Listed [slot]
  | more {slot : Slot} {slots : List Slot}
      (separates : slot.ending.isDelimiter argumentSeparator)
      (others : Listed slots) : Listed (slot :: slots)

/-- The tokens of the slot are a formula. -/
def Means (d : Dialect) (slot : Slot) (formula : Formula) : Prop :=
  Derives d (.chain .relational) slot.tokens formula

/-- Slots that are formulas have formulas. -/
theorem exists_forall₂ {slots : List Slot}
    (h : ∀ slot ∈ slots, ∃ formula, slot.Means d formula) :
    ∃ formulas, List.Forall₂ (Means d) slots formulas := by
  induction slots with
  | nil => exact ⟨[], .nil⟩
  | cons slot slots ih =>
    obtain ⟨⟨formula, hfirst⟩, hothers⟩ := List.forall_mem_cons.mp h
    obtain ⟨formulas, hformulas⟩ := ih hothers
    exact ⟨formula :: formulas, .cons hfirst hformulas⟩

theorem all_cons (slot : Slot) (slots : List Slot) :
    all (slot :: slots) = slot.tokens ++ slot.ending :: all slots := by
  simp [all]

namespace Listed

variable {slot : Slot} {slots : List Slot}

/-- Before further slots stands a separator. -/
theorem tail (h : Listed (slot :: slots)) (hmore : slots ≠ []) :
    slot.ending.isDelimiter argumentSeparator ∧ Listed slots := by
  cases h with
  | last => exact absurd rfl hmore
  | more separates others => exact ⟨separates, others⟩

/-- After the last slot stands a closing parenthesis. -/
theorem closes (h : Listed [slot]) : slot.ending.isDelimiter ")" := by
  cases h with
  | last closes => exact closes
  | more _ others => cases others

/-- Every slot ends where an argument does. -/
theorem ends (h : Listed (slot :: slots)) :
    slot.ending.isDelimiter argumentSeparator || slot.ending.isDelimiter ")" := by
  rw [Bool.or_eq_true]
  cases h with
  | last closes => exact Or.inr closes
  | more separates _ => exact Or.inl separates

/-- **Arguments of slots.**  Slots that are formulas are a list of arguments before
a closing parenthesis. -/
theorem derives (h : Listed slots) {formulas : List Formula}
    (hmeans : List.Forall₂ (Means d) slots formulas) :
    ∃ tokens closing, all slots = tokens ++ [closing] ∧
      closing.isDelimiter ")" ∧ DerivesArguments d tokens formulas := by
  induction h generalizing formulas with
  | @last slot closes =>
    obtain ⟨formula, _, hfirst, hnone, rfl⟩ := List.forall₂_cons_left_iff.mp hmeans
    obtain rfl := List.forall₂_nil_left_iff.mp hnone
    exact ⟨slot.tokens, slot.ending, by simp [all], closes, .one hfirst⟩
  | @more slot slots separates _ ih =>
    obtain ⟨formula, others, hfirst, hothers, rfl⟩ :=
      List.forall₂_cons_left_iff.mp hmeans
    obtain ⟨tokens, closing, hall, hcloses, hderives⟩ := ih hothers
    refine ⟨slot.tokens ++ slot.ending :: tokens, closing, ?_, hcloses,
      .more hfirst separates hderives⟩
    rw [all_cons, hall, List.append_assoc, List.cons_append]

/-- **From slot to slot.**  After slots that are formulas the rule for arguments is
applied to the slots that are left. -/
theorem reaches {before : List Slot} (name : Token)
    (h : Listed (before ++ slot :: slots))
    (hbefore : ∀ earlier ∈ before, ∃ formula, earlier.Means d formula) :
    ReflTransGen d.Applies ⟨.argumentList name, all (before ++ slot :: slots)⟩
      ⟨.argumentList name, all (slot :: slots)⟩ := by
  induction before with
  | nil => exact .refl
  | cons first before ih =>
    obtain ⟨⟨formula, hfirst⟩, hmore⟩ := List.forall_mem_cons.mp hbefore
    obtain ⟨separates, others⟩ := tail h (by simp)
    obtain ⟨token, rest, htokens, hbegins⟩ := hfirst.begins
    have hread : d.read (.chain .relational)
        (first.tokens ++ first.ending :: all (before ++ slot :: slots)) =
          ⟨.ok formula, first.ending :: all (before ++ slot :: slots),
            formula.leaves⟩ :=
      Derives.read_eq hfirst (.of_isDelimiter separates (by simp))
    rw [List.cons_append, all_cons]
    rw [htokens] at hread ⊢
    exact .head (.separated (by simp [hbegins.not_isDelimiter]) hread)
      (.head (.next separates) (ih others hmore))

/-- The last of the slots are slots of their own. -/
theorem of_append {before : List Slot} (h : Listed (before ++ slots))
    (hsome : slots ≠ []) : Listed slots := by
  induction before with
  | nil => exact h
  | cons first before ih => exact ih (tail h (by simp [hsome])).2

/-- Several slots do not begin with a closing parenthesis, whether the first one
is a formula or empty. -/
theorem nextIs_closing {before : List Slot} (h : Listed (before ++ slot :: slots))
    (hbefore : ∀ earlier ∈ before, ∃ formula, earlier.Means d formula)
    (hempty : slot.tokens = []) (hmore : before ++ slots ≠ []) :
    nextIs ")" (all (before ++ slot :: slots)) = false := by
  cases before with
  | nil =>
    obtain ⟨separates, -⟩ := tail h hmore
    rw [List.nil_append, all_cons, hempty]
    exact Token.isDelimiter_of_ne separates (by decide)
  | cons first before =>
    obtain ⟨formula, hfirst⟩ := hbefore first List.mem_cons_self
    obtain ⟨token, rest, htokens, hbegins⟩ := hfirst.begins
    rw [List.cons_append, all_cons, htokens]
    exact hbegins.not_isDelimiter (by simp)

end Listed

end Slot

namespace Dialect

variable {name opening : Token}

/-- A phrase that begins with a name applies the rule for names. -/
private theorem reaches_named (letters : name.category = .letter)
    (phrase : Phrase) (tokens : List Token) :
    ReflTransGen d.Applies ⟨.phrase phrase, name :: tokens⟩
      ⟨.named name, tokens⟩ := by
  have hnamed : d.Applies ⟨.phrase .atom, name :: tokens⟩ ⟨.named name, tokens⟩ :=
    .named letters
  match phrase with
  | .atom => exact .single hnamed
  | .signed =>
    have hbare : ∀ token ∈ (name :: tokens).head?, token.isSign = false := by
      simp [Token.isSign, Token.isDelimiter, letters]
    exact .head (.unsigned hbare) (.single hnamed)
  | .chain level =>
    exact .head .operand (reaches_named letters (.operandOf level) tokens)
termination_by phrase.rank
decreasing_by exact Phrase.rank_operandOf_lt level

/-- A token list that begins with a name applies the rule for names. -/
private theorem whole_reaches_named (letters : name.category = .letter)
    (tokens : List Token) :
    ReflTransGen d.Applies ⟨.whole, name :: tokens⟩ ⟨.named name, tokens⟩ :=
  .head (.whole (List.cons_ne_nil _ _)) (reaches_named letters _ tokens)

/-- Derived arguments are read up to their closing parenthesis. -/
theorem arguments_of_derives {closing : Token} {tokens : List Token}
    {formulas : List Formula} (h : DerivesArguments d tokens formulas)
    (closes : closing.isDelimiter ")") (rest : List Token) :
    d.arguments name (tokens ++ closing :: rest) =
      ⟨.ok formulas, rest, Tree.leavesAll formulas⟩ := by
  have hlist : d.argumentList name (tokens ++ closing :: rest) =
      ⟨.ok formulas, rest, Tree.leavesAll formulas⟩ := h.argumentList_eq closes
  obtain ⟨token, others, rfl, hbegins⟩ := h.begins
  rw [List.cons_append] at hlist ⊢
  rw [arguments_cons, hbegins.not_isDelimiter (by simp), hlist]
  rfl

end Dialect

namespace Scope

/-- Compiling the token lists one after the other, each with the variables that
are known after the ones before, gives the trees. -/
inductive CompilesEach (d : Dialect) :
    Scope → List (List Token) → List BoundTree → Scope → Prop where
  | nil {s : Scope} : CompilesEach d s [] [] s
  | cons {s between after : Scope} {tokens : List Token} {tree : BoundTree}
      {rest : List (List Token)} {trees : List BoundTree}
      (first : s.compileTokens d tokens = (.ok tree, between))
      (others : CompilesEach d between rest trees after) :
      CompilesEach d s (tokens :: rest) (tree :: trees) after

/-- Declarations in two steps. -/
theorem declareAll_append (s : Scope) (names more : List String) :
    s.declareAll (names ++ more) = (s.declareAll names).declareAll more :=
  List.foldl_append

/-- The arguments of a bound call are bound formulas. -/
theorem bind_call (s : Scope) (name : String) (function : Callable)
    (formulas : List Formula) :
    s.bind (.call name function formulas) =
      .call name function (formulas.map s.bind) := by
  rw [bind, Tree.map, Tree.mapAll_eq_map]
  rfl

/-- Slots that are formulas compile to these formulas, bound in the scope after
the last of them. -/
private theorem compilesEach_of_means {slots : List Slot} {formulas : List Formula}
    (h : List.Forall₂ (Slot.Means d) slots formulas) (s : Scope) :
    CompilesEach d s (slots.map Slot.tokens)
      (formulas.map (s.declareAll (Tree.leavesAll formulas)).bind)
      (s.declareAll (Tree.leavesAll formulas)) := by
  induction h generalizing s with
  | nil => exact .nil
  | @cons slot formula slots formulas hmeans _ ih =>
    have hkept : (s.declareAll (Tree.leavesAll (formula :: formulas))).bind formula =
        (s.declareAll formula.leaves).bind formula := by
      rw [Tree.leavesAll, declareAll_append]
      exact bind_congr (fun _ => contains_declareAll) find?_declareAll_of_find?
    have hothers := ih (s.declareAll formula.leaves)
    rw [← declareAll_append] at hothers
    rw [List.map_cons, List.map_cons, hkept]
    exact .cons (s.compileTokens_of_derives hmeans) hothers

/-- A slot that compiles is a formula. -/
private theorem exists_means {s : Scope} {slot : Slot} {tree : BoundTree}
    (h : (s.compileTokens d slot.tokens).1 = .ok tree) :
    ∃ formula, slot.Means d formula := by
  have hpair : s.compileTokens d slot.tokens =
      (.ok tree, (s.compileTokens d slot.tokens).2) := Prod.ext h rfl
  obtain ⟨formula, hparse, -, -⟩ := parse_of_compileTokens hpair
  exact ⟨formula, (d.parse_eq_ok_iff _ _).mp hparse⟩

section Call

variable {name opening : Token} {slots : List Slot} {function : Callable}
  (s : Scope) (letters : name.category = .letter)
  (opens : opening.isDelimiter "(")

include letters opens

/-- A name that is not in the table is reported whatever the slots are. -/
private theorem call_unknown (unregistered : d.functions.find? name.text = none)
    (tokens : List Token) :
    (s.compileTokens d (name :: opening :: tokens)).1 =
      .error (.unknownFunction name.text name.position) :=
  (s.compileTokens_eq_error_iff d _ _).mpr
    ⟨_, Dialect.whole_reaches_named letters _, .unknown opens unregistered⟩

variable (registered : d.functions.find? name.text = some function)

include registered

/-- As many slots as the function takes are its arguments. -/
private theorem call_filled (listed : Slot.Listed slots) {formulas : List Formula}
    (hmeans : List.Forall₂ (Slot.Means d) slots formulas)
    (harity : slots.length = function.arity) :
    ∃ trees after, CompilesEach d s (slots.map Slot.tokens) trees after ∧
      s.compileTokens d (name :: opening :: Slot.all slots) =
        (.ok (.call name.text function trees), after) := by
  obtain ⟨tokens, closing, hall, closes, harguments⟩ := listed.derives hmeans
  have hcall : Derives d .atom (name :: opening :: (tokens ++ [closing]))
      (.call name.text function formulas) :=
    .call letters opens registered harguments (hmeans.length_eq ▸ harity) closes
  have hcompiles := s.compileTokens_of_derives (hcall.looser (Nat.zero_le _))
  refine ⟨_, _, compilesEach_of_means hmeans s, ?_⟩
  rw [hall, hcompiles, Tree.leaves, bind_call]

/-- Any other number of slots is reported. -/
private theorem call_miscounted (listed : Slot.Listed slots)
    {formulas : List Formula} (hmeans : List.Forall₂ (Slot.Means d) slots formulas)
    (hdiffers : slots.length ≠ function.arity) :
    (s.compileTokens d (name :: opening :: Slot.all slots)).1 =
      .error (.argumentCountMismatch name.text function.arity slots.length) := by
  obtain ⟨tokens, closing, hall, closes, harguments⟩ := listed.derives hmeans
  have hread : d.arguments name (Slot.all slots) =
      ⟨.ok formulas, [], Tree.leavesAll formulas⟩ :=
    hall ▸ Dialect.arguments_of_derives harguments closes []
  rw [hmeans.length_eq] at hdiffers ⊢
  exact (s.compileTokens_eq_error_iff d _ _).mpr
    ⟨_, Dialect.whole_reaches_named letters _,
      .miscounted opens registered hread hdiffers⟩

/-- A single slot that is empty is a call without arguments. -/
private theorem call_without_arguments {closing : Token}
    (closes : closing.isDelimiter ")") :
    (s.compileTokens d [name, opening, closing]).1 =
      .error (.argumentCountMismatch name.text function.arity 0) := by
  have hread : d.arguments name [closing] = ⟨.ok [], [], []⟩ := by
    rw [Dialect.arguments_cons, if_pos closes]
  have hdiffers : ([] : List Formula).length ≠ function.arity := by
    cases function <;> simp [Callable.arity]
  exact (s.compileTokens_eq_error_iff d _ _).mpr
    ⟨_, Dialect.whole_reaches_named letters _,
      .miscounted opens registered hread hdiffers⟩

/-- The first empty slot among several is reported where it ends. -/
private theorem call_missing {before after : List Slot} {slot : Slot}
    (listed : Slot.Listed (before ++ slot :: after))
    (hbefore : ∀ earlier ∈ before, ∃ formula, earlier.Means d formula)
    (hempty : slot.tokens = []) (hmore : before ++ after ≠ []) :
    (s.compileTokens d (name :: opening :: Slot.all (before ++ slot :: after))).1 =
      .error (.missingArgument name.text slot.ending.position) := by
  have hsome := listed.nextIs_closing hbefore hempty hmore
  have hslot : ReflTransGen d.Applies
      ⟨.whole, name :: opening :: Slot.all (before ++ slot :: after)⟩
      ⟨.argumentList name, Slot.all (slot :: after)⟩ :=
    (Dialect.whole_reaches_named letters _).trans
      (.head (.arguments opens registered)
        (.head (.argumentList hsome) (listed.reaches name hbefore)))
  rw [Slot.all_cons, hempty] at hslot
  exact (s.compileTokens_eq_error_iff d _ _).mpr
    ⟨_, hslot, .emptyArgument (listed.of_append (by simp)).ends⟩

end Call

/-- **Calls.**  Each slot of a call is empty or compiles by itself.  If the name is
not in the table, that is reported.  If it is, there are three cases.

* No slot is empty: the call compiles if there are as many slots as the function
  takes, with the trees to which the slots compile one after the other, and
  otherwise the number of slots is reported.
* There are several slots, and some are empty: the first of these is reported at
  the token that ends it.
* There is a single slot, and it is empty: the number of arguments is reported,
  which is zero. -/
theorem compileTokens_call (s : Scope) {name opening : Token} {slots : List Slot}
    (letters : name.category = .letter) (opens : opening.isDelimiter "(")
    (listed : Slot.Listed slots)
    (accepted : ∀ slot ∈ slots, slot.tokens = [] ∨
      ∃ tree, (s.compileTokens d slot.tokens).1 = .ok tree) :
    (d.functions.find? name.text = none →
      (s.compileTokens d (name :: opening :: Slot.all slots)).1 =
        .error (.unknownFunction name.text name.position)) ∧
    ∀ function, d.functions.find? name.text = some function →
      ((∀ slot ∈ slots, slot.tokens ≠ []) →
        (slots.length = function.arity →
          ∃ trees after, CompilesEach d s (slots.map Slot.tokens) trees after ∧
            s.compileTokens d (name :: opening :: Slot.all slots) =
              (.ok (.call name.text function trees), after)) ∧
        (slots.length ≠ function.arity →
          (s.compileTokens d (name :: opening :: Slot.all slots)).1 =
            .error (.argumentCountMismatch name.text function.arity
              slots.length))) ∧
      (∀ before slot after, slots = before ++ slot :: after →
        (∀ earlier ∈ before, earlier.tokens ≠ []) → slot.tokens = [] →
        2 ≤ slots.length →
        (s.compileTokens d (name :: opening :: Slot.all slots)).1 =
          .error (.missingArgument name.text slot.ending.position)) ∧
      ∀ slot, slots = [slot] → slot.tokens = [] →
        (s.compileTokens d (name :: opening :: Slot.all slots)).1 =
          .error (.argumentCountMismatch name.text function.arity 0) := by
  have hmeans : ∀ slot ∈ slots, slot.tokens ≠ [] →
      ∃ formula, slot.Means d formula := by
    intro slot hslot hfilled
    obtain ⟨tree, htree⟩ := (accepted slot hslot).resolve_left hfilled
    exact exists_means htree
  refine ⟨fun unregistered => s.call_unknown letters opens unregistered _,
    fun function registered => ⟨fun hfilled => ?_, ?_, ?_⟩⟩
  · obtain ⟨formulas, hformulas⟩ :=
      Slot.exists_forall₂ fun slot hslot => hmeans slot hslot (hfilled slot hslot)
    exact ⟨s.call_filled letters opens registered listed hformulas,
      s.call_miscounted letters opens registered listed hformulas⟩
  · rintro before slot after rfl hbefore hempty hseveral
    refine s.call_missing letters opens registered listed ?_ hempty ?_
    · intro earlier hearlier
      exact hmeans earlier (List.mem_append_left _ hearlier) (hbefore earlier hearlier)
    · intro hnone
      obtain ⟨rfl, rfl⟩ := List.append_eq_nil_iff.mp hnone
      exact absurd hseveral (Nat.lt_irrefl 1)
  · rintro slot rfl hempty
    have hall : Slot.all [slot] = [slot.ending] := by simp [Slot.all, hempty]
    rw [hall]
    exact s.call_without_arguments letters opens registered listed.closes

/-- An argument, an empty slot and a number: the empty slot is reported, and not
that there are too many. -/
theorem compileTokens_call_missing :
    let slots : List Slot :=
      [⟨[⟨"a", .letter, 4⟩], ⟨";", .delimiter, 5⟩⟩, ⟨[], ⟨";", .delimiter, 6⟩⟩,
        ⟨[⟨"2", .number, 7⟩], ⟨")", .delimiter, 8⟩⟩]
    let d : Dialect := ⟨.invariant, .standard⟩
    Slot.Listed slots ∧
      (empty.compileTokens d (⟨"max", .letter, 0⟩ :: ⟨"(", .delimiter, 3⟩ ::
          Slot.all slots)).1 = .error (.missingArgument "max" 6) := by
  intro slots d
  have hlisted : Slot.Listed slots :=
    .more (by decide) (.more (by decide) (.last (by decide)))
  have haccepted : ∀ slot ∈ slots, slot.tokens = [] ∨
      ∃ tree, (empty.compileTokens d slot.tokens).1 = .ok tree := by
    have hvariable : (empty.compileTokens d [⟨"a", .letter, 4⟩]).1 =
        .ok (.var ⟨"a", ⟨0⟩⟩) := by
      with_unfolding_all rfl
    have hnumber : (empty.compileTokens d [⟨"2", .number, 7⟩]).1 =
        .ok (.constant (Numeral.value ⟨['2'], []⟩)) := by
      with_unfolding_all rfl
    simp [slots, hvariable, hnumber]
  have hregistered : d.functions.find? "max" = some (.binary Binary64.maximum) := by
    with_unfolding_all rfl
  obtain ⟨-, hcall⟩ := @compileTokens_call d empty ⟨"max", .letter, 0⟩
    ⟨"(", .delimiter, 3⟩ slots rfl (by decide) hlisted haccepted
  obtain ⟨-, hmissing, -⟩ := hcall _ hregistered
  refine ⟨hlisted, hmissing [⟨[⟨"a", .letter, 4⟩], ⟨";", .delimiter, 5⟩⟩]
    ⟨[], ⟨";", .delimiter, 6⟩⟩ _ rfl ?_ rfl (by decide)⟩
  simp

end Scope

end Formulary
