import Formulary.Proofs.Display.RoundTrip
import Formulary.Proofs.Grammar.Occurrence

/-!
# Unique readability

A display form shows the whole structure of its formula, also where it cannot be
compiled again.  Its first token tells what the formula is: a sign begins a
negation, a parenthesis a binary operation, a number a constant, and a name a
variable or, where a parenthesis follows, a call.  The only formula that looks
like another one is an infinite constant, which is displayed as a name.

So if two display forms begin at the same place of a token list, then their
formulas are of one kind, and their first parts begin at the same place again.
By induction on one of the two, the formulas are the same, and the display forms
end at the same place.  What follows must not turn a variable into a call, so it
is assumed not to begin with a parenthesis.

* `Displays.exists_negate` and its like read the first token;
* `Displays.unique` is unique readability for token lists;
* `Scope.text_injective` is the statement for compiled trees.
-/

namespace Formulary

/-- The node can be displayed, and be told from all others that can. -/
structure Recognizable (functions : FunctionTable) (node : Formula) : Prop where
  legible : Legible functions node
  finite : ∀ negative, node ≠ .constant (Binary64.ofParts negative .infinity)

/-- Finite numbers that are displayed alike are the same. -/
theorem Binary64.ofParts_eq_of_text_eq {m n : Magnitude} (hm : m.isFinite)
    (hn : n.isFinite) (h : text (ofParts false m) = text (ofParts false n)) :
    ofParts false m = ofParts false n := by
  have hdecimal : Convention.invariant.decimal = '.' := rfl
  have hread := Convention.readNumber?_text hdecimal hm
  rw [h, Convention.readNumber?_text hdecimal hn] at hread
  exact (Option.some.inj hread).symm

/-- One token is one operator. -/
theorem Operator.eq_of_isDelimiter {token : Token} {operator other : Operator}
    (h : operator ∈ table) (hother : other ∈ table)
    (htoken : token.isDelimiter operator.symbol)
    (hsame : token.isDelimiter other.symbol) : operator = other := by
  have hsymbol : operator.symbol = other.symbol :=
    (Token.isDelimiter_iff.mp htoken).2.symm.trans
      (Token.isDelimiter_iff.mp hsame).2
  have hfind := find?_symbol h
  rw [hsymbol, find?_symbol hother] at hfind
  exact (Option.some.inj hfind).symm

/-- No operator opens anything. -/
theorem Operator.symbol_ne_opening {operator : Operator}
    (h : operator ∈ Operator.table) : operator.symbol ≠ "(" := by
  have hsymbols : ∀ symbol ∈ Operator.symbols, symbol ≠ "(" := by decide
  exact hsymbols _ (List.mem_map_of_mem h)

/-- Another delimiter is no opening parenthesis. -/
theorem nextIs_opening_of_ne {token : Token} {symbol : String}
    (h : token.isDelimiter symbol) (hne : symbol ≠ "(") (rest : List Token) :
    nextIs "(" (token :: rest) = false :=
  Token.isDelimiter_of_ne h hne

namespace Displays

variable {tokens rest tail : List Token} {token : Token} {formula : Formula}

/-- A sign begins a negation. -/
theorem exists_negate (h : Displays tokens formula)
    (hhead : tokens ++ rest = token :: tail) (hsign : token.isDelimiter "-") :
    ∃ inner operand, formula = .negate operand ∧ Displays inner operand ∧
      tail = inner ++ rest := by
  cases h with
  | negate negative inner =>
    obtain ⟨rfl, rfl⟩ := List.cons.inj hhead
    exact ⟨_, _, rfl, inner, rfl⟩
  | _ =>
    obtain ⟨rfl, -⟩ := List.cons.inj hhead
    simp_all [Token.isDelimiter]

/-- An opening parenthesis begins a binary operation. -/
theorem exists_binary (h : Displays tokens formula)
    (hhead : tokens ++ rest = token :: tail) (hopens : token.isDelimiter "(") :
    ∃ before symbol after closing operator left right,
      formula = .binary operator left right ∧ operator ∈ Operator.table ∧
      Displays before left ∧ symbol.isDelimiter operator.symbol ∧
      Displays after right ∧ closing.isDelimiter ")" ∧
      tail = before ++ symbol :: (after ++ closing :: rest) := by
  cases h with
  | binary registered opens first symbol second closes =>
    obtain ⟨rfl, rfl⟩ := List.cons.inj hhead
    exact ⟨_, _, _, _, _, _, _, rfl, registered, first, symbol, second, closes,
      by simp⟩
  | _ =>
    obtain ⟨rfl, -⟩ := List.cons.inj hhead
    simp_all [Token.isDelimiter]

/-- A number is a constant. -/
theorem exists_constant (h : Displays tokens formula)
    (hhead : tokens ++ rest = token :: tail) (hnumber : token.category = .number) :
    ∃ m : Binary64.Magnitude, m.isFinite ∧
      token.text = Binary64.text (Binary64.ofParts false m) ∧
      formula = .constant (Binary64.ofParts false m) ∧ tail = rest := by
  cases h with
  | constant finite _ text =>
    obtain ⟨rfl, rfl⟩ := List.cons.inj hhead
    exact ⟨_, finite, text, rfl, rfl⟩
  | _ =>
    obtain ⟨rfl, -⟩ := List.cons.inj hhead
    simp_all [Token.isDelimiter]

/-- A name is a variable, or it is called. -/
theorem var_or_call (h : Displays tokens formula)
    (hfinite : ∀ negative,
      formula ≠ .constant (Binary64.ofParts negative .infinity))
    (hhead : tokens ++ rest = token :: tail) (hletter : token.category = .letter) :
    formula = .var token.text ∧ tail = rest ∨
    ∃ opening inner closing function arguments,
      formula = .call token.text function arguments ∧
      opening.isDelimiter "(" ∧ DisplaysArguments inner arguments ∧
      closing.isDelimiter ")" ∧ tail = opening :: (inner ++ closing :: rest) := by
  cases h with
  | infinity => exact absurd rfl (hfinite false)
  | var =>
    obtain ⟨rfl, rfl⟩ := List.cons.inj hhead
    exact Or.inl ⟨rfl, rfl⟩
  | call _ opens inner closes =>
    obtain ⟨rfl, rfl⟩ := List.cons.inj hhead
    exact Or.inr ⟨_, _, _, _, _, rfl, opens, inner, closes, by simp⟩
  | _ =>
    obtain ⟨rfl, -⟩ := List.cons.inj hhead
    simp_all [Token.isDelimiter]

end Displays

mutual

/-- **Unique readability.**  Display forms that begin at the same place of a
token list, and that are not followed by an opening parenthesis, are those of one
formula, and they end at the same place. -/
theorem Displays.unique {functions : FunctionTable}
    {tokens others rest left : List Token} {formula another : Formula}
    (h : Displays tokens formula) (hother : Displays others another)
    (hnodes : ∀ node ∈ formula.subtrees, Recognizable functions node)
    (hnodes' : ∀ node ∈ another.subtrees, Recognizable functions node)
    (heq : tokens ++ rest = others ++ left)
    (hrest : nextIs "(" rest = false) (hleft : nextIs "(" left = false) :
    formula = another ∧ rest = left := by
  have hroot : Recognizable functions another :=
    hnodes' _ (by cases another <;> simp [Tree.subtrees])
  match h with
  | .constant finite numeric text =>
    rw [List.singleton_append] at heq
    obtain ⟨n, hn, htext, rfl, hend⟩ := hother.exists_constant heq.symm numeric
    have hvalue := Binary64.ofParts_eq_of_text_eq finite hn (text.symm.trans htext)
    exact ⟨congrArg Tree.constant hvalue, hend⟩
  | .infinity letters =>
    rw [Tree.subtrees, List.forall_mem_singleton] at hnodes
    exact absurd rfl (hnodes.finite false)
  | .var letters =>
    rw [List.singleton_append] at heq
    rcases hother.var_or_call hroot.finite heq.symm letters with ⟨rfl, hend⟩ |
      ⟨opening, inner, closing, function, arguments, rfl, hopens, -, -, hend⟩
    · exact ⟨rfl, hend⟩
    · rw [hend] at hrest
      simp [nextIs, hopens] at hrest
  | .negate negative inner =>
    rw [List.cons_append] at heq
    obtain ⟨inner', operand, rfl, hinner, htail⟩ :=
      hother.exists_negate heq.symm negative
    rw [Tree.subtrees, List.forall_mem_cons] at hnodes hnodes'
    obtain ⟨rfl, hend⟩ :=
      inner.unique hinner hnodes.2 hnodes'.2 htail hrest hleft
    exact ⟨rfl, hend⟩
  | .binary registered opens first symbol second closes =>
    simp only [List.append_assoc, List.cons_append, List.nil_append] at heq
    obtain ⟨before', token', after', closing', operator, left', right', rfl,
      hregistered, hfirst, hsymbol, hsecond, hcloses, htail⟩ :=
      hother.exists_binary heq.symm opens
    rw [Tree.subtrees, List.forall_mem_cons, List.forall_mem_append]
      at hnodes hnodes'
    obtain ⟨rfl, hbetween⟩ := first.unique hfirst hnodes.2.1 hnodes'.2.1 htail
      (nextIs_opening_of_ne symbol (Operator.symbol_ne_opening registered) _)
      (nextIs_opening_of_ne hsymbol (Operator.symbol_ne_opening hregistered) _)
    obtain ⟨rfl, hafter⟩ := List.cons.inj hbetween
    obtain rfl := Operator.eq_of_isDelimiter registered hregistered symbol hsymbol
    obtain ⟨rfl, hend⟩ := second.unique hsecond hnodes.2.2 hnodes'.2.2 hafter
      (nextIs_opening_of_ne closes (by decide) _)
      (nextIs_opening_of_ne hcloses (by decide) _)
    exact ⟨rfl, (List.cons.inj hend).2⟩
  | .call letters opens inner closes =>
    simp only [List.append_assoc, List.cons_append, List.nil_append] at heq
    rcases hother.var_or_call hroot.finite heq.symm letters with ⟨rfl, hend⟩ |
      ⟨opening, inner', closing, function, arguments, rfl, hopens, hinner, hcloses,
        htail⟩
    · rw [← hend] at hleft
      simp [nextIs, opens] at hleft
    · rw [Tree.subtrees, List.forall_mem_cons] at hnodes hnodes'
      obtain ⟨rfl, hinside⟩ := List.cons.inj htail
      obtain ⟨rfl, hend⟩ := inner.unique hinner hnodes.2 hnodes'.2 hinside closes
        hcloses
      cases hnodes.1.legible with
      | call _ hfind _ =>
        cases hroot.legible with
        | call _ hfind' _ =>
          rw [hfind, Option.some.injEq] at hfind'
          exact ⟨by rw [hfind'], hend⟩

/-- The same for arguments, up to the parenthesis that closes them. -/
theorem DisplaysArguments.unique {functions : FunctionTable}
    {tokens others rest left : List Token} {closing ending : Token}
    {arguments another : List Formula} (h : DisplaysArguments tokens arguments)
    (hother : DisplaysArguments others another)
    (hnodes : ∀ node ∈ Tree.subtreesAll arguments, Recognizable functions node)
    (hnodes' : ∀ node ∈ Tree.subtreesAll another, Recognizable functions node)
    (heq : tokens ++ closing :: rest = others ++ ending :: left)
    (hcloses : closing.isDelimiter ")") (hends : ending.isDelimiter ")") :
    arguments = another ∧ rest = left := by
  have hclosing := fun rest => nextIs_opening_of_ne hcloses (by decide) rest
  have hending := fun rest => nextIs_opening_of_ne hends (by decide) rest
  match h, hother with
  | .one inner, .one inner' =>
    rw [Tree.subtreesAll, List.forall_mem_append] at hnodes hnodes'
    obtain ⟨rfl, hend⟩ := inner.unique inner' hnodes.1 hnodes'.1 heq (hclosing _)
      (hending _)
    exact ⟨rfl, (List.cons.inj hend).2⟩
  | .one inner, .more inner' separates _ =>
    rw [Tree.subtreesAll, List.forall_mem_append] at hnodes hnodes'
    rw [List.append_assoc, List.cons_append] at heq
    obtain ⟨rfl, hend⟩ := inner.unique inner' hnodes.1 hnodes'.1 heq (hclosing _)
      (nextIs_opening_of_ne separates (by decide) _)
    obtain ⟨rfl, -⟩ := List.cons.inj hend
    rw [Token.isDelimiter_of_ne separates (by decide)] at hcloses
    cases hcloses
  | .more inner separates _, .one inner' =>
    rw [Tree.subtreesAll, List.forall_mem_append] at hnodes hnodes'
    rw [List.append_assoc, List.cons_append] at heq
    obtain ⟨rfl, hend⟩ := inner.unique inner' hnodes.1 hnodes'.1 heq
      (nextIs_opening_of_ne separates (by decide) _) (hending _)
    obtain ⟨rfl, -⟩ := List.cons.inj hend
    rw [Token.isDelimiter_of_ne separates (by decide)] at hends
    cases hends
  | .more inner separates more, .more inner' separates' more' =>
    rw [Tree.subtreesAll, List.forall_mem_append] at hnodes hnodes'
    rw [List.append_assoc, List.cons_append, List.append_assoc, List.cons_append]
      at heq
    obtain ⟨rfl, hbetween⟩ := inner.unique inner' hnodes.1 hnodes'.1 heq
      (nextIs_opening_of_ne separates (by decide) _)
      (nextIs_opening_of_ne separates' (by decide) _)
    obtain ⟨rfl, hafter⟩ := List.cons.inj hbetween
    obtain ⟨rfl, hend⟩ :=
      more.unique more' hnodes.2 hnodes'.2 hafter hcloses hends
    exact ⟨rfl, hend⟩

end

namespace Scope

variable {functions : FunctionTable} {s after : Scope} {tree : BoundTree}

/-- A compiled tree without infinite constants is a formula of recognizable
nodes, with the cells of its variables. -/
theorem exists_recognizable {convention : Convention} {text : String}
    (h : s.compile ⟨convention, functions⟩ text = (.ok tree, after))
    (hfinite : ∀ negative,
      .constant (Binary64.ofParts negative .infinity) ∉ tree.subtrees) :
    ∃ formula, after = s.declareAll formula.leaves ∧ tree = after.bind formula ∧
      ∀ node ∈ formula.subtrees, Recognizable functions node := by
  obtain ⟨written, formula, hwritten, hformula, hafter, rfl⟩ :=
    exists_derives_of_compile h
  refine ⟨formula, hafter, rfl, fun node hnode => ?_⟩
  refine ⟨hformula.legible hwritten node hnode, ?_⟩
  rintro negative rfl
  refine hfinite negative ?_
  rw [bind, Tree.subtrees_map]
  exact List.mem_map.mpr ⟨_, hnode, by rw [Tree.map]⟩

/-- Formulas of recognizable nodes that are displayed alike are the same. -/
theorem eq_of_text_eq {formula other : Formula}
    (hnodes : ∀ node ∈ formula.subtrees, Recognizable functions node)
    (hothers : ∀ node ∈ other.subtrees, Recognizable functions node)
    (htext : formula.text id = other.text id) : formula = other := by
  have hdecimal : Convention.invariant.decimal = '.' := rfl
  obtain ⟨tokens, htokens, hdisplays⟩ := Convention.exists_displays hdecimal
    fun node hnode => (hnodes node hnode).legible
  obtain ⟨again, hagain, hother⟩ := Convention.exists_displays hdecimal
    fun node hnode => (hothers node hnode).legible
  rw [htext, hagain, Except.ok.injEq] at htokens
  obtain rfl := htokens
  have hsame : again ++ [] = again ++ [] := rfl
  exact (hdisplays.unique hother hnodes hothers hsame rfl rfl).1

/-- **Display forms show everything.**  Two texts are compiled with the same
functions, under whatever conventions, the second one at a time when every
variable of the first one still has its cell.  If their trees have no infinite
constant and are displayed alike, they are one tree, with the same operators,
functions, constants, names and cells. -/
theorem text_injective {first second : Convention} {later last : Scope}
    {text other : String} {another : BoundTree}
    (h : s.compile ⟨first, functions⟩ text = (.ok tree, after))
    (hkept : ∀ {name cell}, after.store.find? name = some cell →
      later.store.find? name = some cell)
    (hother : later.compile ⟨second, functions⟩ other = (.ok another, last))
    (hfinite : ∀ negative,
      .constant (Binary64.ofParts negative .infinity) ∉ tree.subtrees)
    (hfinite' : ∀ negative,
      .constant (Binary64.ofParts negative .infinity) ∉ another.subtrees)
    (htext : tree.text = another.text) : tree = another := by
  obtain ⟨formula, rfl, rfl, hnodes⟩ := exists_recognizable h hfinite
  obtain ⟨formula', rfl, rfl, hnodes'⟩ := exists_recognizable hother hfinite'
  rw [text_bind, text_bind] at htext
  obtain rfl := eq_of_text_eq hnodes hnodes' htext
  refine (bind_congr (fun name hname => contains_declareAll hname) ?_).symm
  exact fun hcell => find?_declareAll_of_find? (hkept hcell)

/-- Two texts with other parentheses make one tree.  It is displayed with a
doubled sign, so its display form does not compile. -/
theorem text_injective_negated :
    ∃ (tree another : BoundTree) (after last : Scope),
      empty.compile ⟨.commaDecimal, .standard⟩ "max(x; -(-y))" =
          (.ok tree, after) ∧
        after.compile ⟨.invariant, .standard⟩ "max((x); -(-(y)))" =
          (.ok another, last) ∧
        (∀ negative,
          .constant (Binary64.ofParts negative .infinity) ∉ tree.subtrees) ∧
        (∀ negative,
          .constant (Binary64.ofParts negative .infinity) ∉ another.subtrees) ∧
        tree.text = "max(x; --y)" ∧ another.text = "max(x; --y)" ∧
        tree = another := by
  let tree : BoundTree := .call "max" (.binary Binary64.maximum)
    [.var ⟨"x", ⟨0⟩⟩, .negate (.negate (.var ⟨"y", ⟨1⟩⟩))]
  have h : empty.compile ⟨.commaDecimal, .standard⟩ "max(x; -(-y))" =
      (.ok tree, empty.declareAll ["x", "y"]) := by
    with_unfolding_all rfl
  have hother : (empty.declareAll ["x", "y"]).compile ⟨.invariant, .standard⟩
      "max((x); -(-(y)))" = (.ok tree, empty.declareAll ["x", "y"]) := by
    with_unfolding_all rfl
  have hfinite : ∀ negative,
      .constant (Binary64.ofParts negative .infinity) ∉ tree.subtrees := by
    intro negative
    simp [tree, Tree.subtrees, Tree.subtreesAll]
  have htext : tree.text = "max(x; --y)" := by decide +kernel
  exact ⟨tree, tree, _, _, h, hother, hfinite, hfinite, htext, htext,
    text_injective h id hother hfinite hfinite (htext.trans htext.symm)⟩

end Scope

end Formulary
