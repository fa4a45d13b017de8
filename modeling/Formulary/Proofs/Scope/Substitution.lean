import Formulary.Proofs.Grammar.Node
import Formulary.Proofs.Grammar.Substitution
import Formulary.Proofs.Scope
import Formulary.Proofs.Scope.Spacing
import Formulary.Proofs.Tree.Evaluation

/-!
# Texts in place of variables

A text that compiles may stand, in parentheses, in place of a variable of another
text.  The whole compiles to the tree of the outer text with the tree of the inner
one in place of the variable; so its value is that of the outer text where the
variable has the value of the inner one.

* `Convention.substitute` replaces a variable in a text;
* `Convention.enclosed_of_tokenize` says that a text in parentheses is read the
  same wherever it stands;
* `Scope.compile_substitute` is the statement.
-/

namespace Formulary

namespace Convention

variable {convention : Convention}

/-- The characters in parentheses. -/
def parenthesize (cs : List Char) : List Char :=
  '(' :: (cs ++ [')'])

/-- The text with another one, in parentheses, in place of each variable with the
name. -/
def substitute (convention : Convention) (text name new : String) : String :=
  match convention.tokenize text with
  | .ok tokens =>
    let words := replaceVariable name (·.text.toList) (parenthesize new.toList)
      tokens
    String.ofList (weave (gaps 0 text.toList tokens) words)
  | .error _ => text

/-- The tokens in parentheses. -/
def parenthesizeTokens (tokens : List Token) : List Token :=
  ⟨"(", .delimiter, 0⟩ :: (tokens ++ [⟨")", .delimiter, 0⟩])

/-- A delimiter says what it is. -/
private theorem content_of_isDelimiter {token : Token} {symbol : String}
    (h : token.isDelimiter symbol) : token.content = (symbol, .delimiter) := by
  obtain ⟨hcategory, htext⟩ := Token.isDelimiter_iff.mp h
  rw [Token.content, hcategory, htext]

/-- A text in parentheses is read the same wherever it stands. -/
theorem enclosed_of_tokenize {text : String} {tokens : List Token}
    (htokens : convention.tokenize text = .ok tokens)
    (hcomplete : convention.Complete tokens) :
    convention.Enclosed (parenthesize text.toList)
      ((parenthesizeTokens tokens).map Token.content) where
  opens := rfl
  passable := by
    rw [tokenize_eq, verdict_eq_ok_iff] at htokens
    exact (passable_of_fault? htokens.1).parenthesized
  scans := by
    intro position rest
    have hlayout := Layout.of_tokenize htokens
    have hrevises :=
      hlayout.revises_respaced hcomplete hlayout.respaced (')' :: rest)
    rw [hlayout.weave_gaps] at hrevises
    obtain ⟨opening, first, hopens, hopening⟩ := @scan_symbol convention "("
      (by decide) position (text.toList ++ ')' :: rest)
    obtain ⟨inner, last, hinner, hcontents⟩ :=
      hrevises.scan (closes_cons (by decide) rest) first
    obtain ⟨closing, next, hcloses, hclosing⟩ :=
      @scan_symbol convention ")" (by decide) last rest
    refine ⟨opening :: (inner ++ [closing]), next, ?_, ?_⟩
    · have hassoc : parenthesize text.toList ++ rest =
          "(".toList ++ (text.toList ++ ')' :: rest) := by
        simp [parenthesize]
      rw [hassoc, hopening, hinner]
      rw [show ')' :: rest = ")".toList ++ rest from rfl, hclosing]
      simp
    · simp only [List.map_cons, List.map_append, List.map_nil, parenthesizeTokens,
        hcontents, content_of_isDelimiter hopens, content_of_isDelimiter hcloses]
      rfl

/-- Every token stands for itself, or has the text in parentheses in its place. -/
private theorem stands_replaceVariable {word : List Char}
    {inner : List (String × Category)} (henclosed : convention.Enclosed word inner)
    (name : String) (tokens : List Token) :
    List.Forall₂ convention.Stands tokens
      (replaceVariable name (fun token => (token.text.toList, [token.content]))
        (word, inner) tokens) := by
  induction tokens with
  | nil => exact .nil
  | cons token rest ih =>
    rw [replaceVariable]
    refine .cons ?_ ih
    split
    · next hvariable => exact .enclosed hvariable.1 henclosed
    · exact .itself

/-- **A text with another one in place of a variable** has the tokens of the two,
one in place of a variable of the other. -/
theorem tokenize_substitute {text new : String} {tokens newTokens : List Token}
    (htokens : convention.tokenize text = .ok tokens)
    (hcomplete : convention.Complete tokens)
    (hnewTokens : convention.tokenize new = .ok newTokens)
    (hnewComplete : convention.Complete newTokens) (name : String) :
    ∃ tokens', convention.tokenize (convention.substitute text name new) =
        .ok tokens' ∧
      tokens'.map Token.content =
        (substituteTokens name (parenthesizeTokens newTokens) tokens).map
          Token.content := by
  have hlayout := Layout.of_tokenize htokens
  have hrevises := hlayout.revises hcomplete hlayout.respaced
    (stands_replaceVariable (enclosed_of_tokenize hnewTokens hnewComplete) name
      tokens) []
  rw [List.append_nil, List.flatMap_def, map_replaceVariable,
    map_replaceVariable] at hrevises
  rw [substitute, htokens, substituteTokens, List.map_flatten, map_replaceVariable]
  refine Revises.tokenize htokens ?_
  rw [String.toList_ofList]
  exact hrevises

end Convention

namespace Scope

/-- A bound formula is evaluated from values of names as it was before. -/
private theorem eval_bind_names (s : Scope) (formula : Formula)
    (valueOf : String → Float) :
    (s.bind formula).eval (fun v => valueOf v.name) = formula.eval valueOf := by
  rw [bind, Tree.eval_map]

/-- A compilation without error has a tree. -/
private theorem exists_of_isOk {s : Scope} {d : Dialect} {text : String}
    (h : (s.compile d text).1.isOk) :
    ∃ tree after, s.compile d text = (.ok tree, after) := by
  cases hcompile : s.compile d text with
  | mk result after =>
    rw [hcompile] at h
    cases result with
    | ok tree => exact ⟨tree, after, rfl⟩
    | error error => cases h

end Scope

/-- **Substitution.**  Let two texts compile, and let the second one stand, in
parentheses, in place of each variable of the first that has the name.  The whole
compiles in every scope, to the tree of the first with the tree of the second in
place of the variable, up to cells.  Whatever the values of the variables, the
second text has a value, and the whole has the value that the first text has if
the variable has the value of the second. -/
theorem Scope.compile_substitute {s t afterS afterT : Scope} {d : Dialect}
    {text new : String} {tree newTree : BoundTree}
    (compiles : s.compile d text = (.ok tree, afterS))
    (newCompiles : t.compile d new = (.ok newTree, afterT)) (name : String)
    (u : Scope) :
    ∃ whole after, u.compile d (d.convention.substitute text name new) =
        (.ok whole, after) ∧
      whole.map Variable.name =
        (tree.map Variable.name).substitute name (newTree.map Variable.name) ∧
      ∀ valueOf : String → Float, ∃ inner outer,
        newTree.eval (fun v => valueOf v.name) = some inner ∧
        tree.eval (fun v => if v.name = name then inner else valueOf v.name) =
          some outer ∧
        whole.eval (fun v => valueOf v.name) = some outer := by
  obtain ⟨tokens, formula, htokens, hderives, -, rfl⟩ :=
    s.exists_derives_of_compile compiles
  obtain ⟨newTokens, newFormula, hnewTokens, hnewDerives, -, rfl⟩ :=
    t.exists_derives_of_compile newCompiles
  obtain ⟨tokens', htokens', hcontents⟩ := Convention.tokenize_substitute htokens
    hderives.complete hnewTokens hnewDerives.complete name
  have hatom : Derives d .atom (Convention.parenthesizeTokens newTokens)
      newFormula := .group rfl hnewDerives rfl
  have hwhole : Derives d (.chain .relational) _
      (formula.substitute name newFormula) := hderives.substitute hatom
  let after := u.declareAll (formula.substitute name newFormula).leaves
  refine ⟨after.bind (formula.substitute name newFormula), after, ?_, ?_,
    fun valueOf => ?_⟩
  · rw [compile, htokens']
    exact compileTokens_congr hcontents (u.compileTokens_of_derives hwhole)
  · rw [names_bind, names_bind, names_bind]
  · obtain ⟨inner, hinner⟩ :=
      Tree.exists_eval_of_wellCalled valueOf newFormula hnewDerives.wellCalled
    obtain ⟨outer, houter⟩ := Tree.exists_eval_of_wellCalled
      (fun leaf => if leaf = name then inner else valueOf leaf) formula
      hderives.wellCalled
    refine ⟨inner, outer, ?_, ?_, ?_⟩
    · rw [eval_bind_names, hinner]
    · exact (eval_bind_names _ formula
        fun leaf => if leaf = name then inner else valueOf leaf).trans houter
    · rw [eval_bind_names, Tree.eval_substitute hinner, houter]

/-- A sum in place of a variable, whose name is also one that is called. -/
theorem Scope.compile_substitute_sum :
    ∃ tree newTree whole s t u,
      empty.compile ⟨.invariant, .standard⟩ "abs-abs(abs)" = (.ok tree, s) ∧
      empty.compile ⟨.invariant, .standard⟩ "1+a" = (.ok newTree, t) ∧
      empty.compile ⟨.invariant, .standard⟩ "(1+a)-abs((1+a))" = (.ok whole, u) ∧
      whole.map Variable.name =
        (tree.map Variable.name).substitute "abs" (newTree.map Variable.name) := by
  obtain ⟨tree, s, htree⟩ : ∃ tree s,
      empty.compile ⟨.invariant, .standard⟩ "abs-abs(abs)" = (.ok tree, s) :=
    exists_of_isOk (by decide +kernel)
  obtain ⟨newTree, t, hnewTree⟩ : ∃ newTree t,
      empty.compile ⟨.invariant, .standard⟩ "1+a" = (.ok newTree, t) :=
    exists_of_isOk (by decide +kernel)
  obtain ⟨whole, u, hwhole, hnames, -⟩ :=
    compile_substitute htree hnewTree "abs" empty
  have htext : Convention.invariant.substitute "abs-abs(abs)" "abs" "1+a" =
      "(1+a)-abs((1+a))" := by
    with_unfolding_all rfl
  rw [htext] at hwhole
  exact ⟨tree, newTree, whole, s, t, u, htree, hnewTree, hwhole, hnames⟩

end Formulary
