import Formulary.Proofs.Grammar.Node
import Formulary.Proofs.Token.Spelling

/-!
# The tokens of a display form

A formula that was read from a text is displayed as a text that has tokens
again, under every convention whose decimal separator is a point.  They are what
one expects of the formula: a number or a name for a leaf, a sign before an
operand, and parentheses around every binary operation and around the arguments
of a call.  An infinite constant is displayed as a word, so its token is a name.

The display form of a part is followed by a blank, a separator, a parenthesis or
nothing, and these end every token; so the tokens of a formula are put together
from those of its parts.

* `Formula.Legible` says what the nodes of a formula are that was read;
* `Displays` says which tokens a display form has;
* `Convention.Reads` puts tokens of parts together;
* `Tree.reads_text` is the statement for every formula;
* `Convention.exists_displays` is the one for whole texts.
-/

namespace Formulary

/-- The node can be displayed and read again. -/
inductive Legible (functions : FunctionTable) : Formula → Prop where
  | constant (m : Binary64.Magnitude) :
      Legible functions (.constant (Binary64.ofParts false m))
  | var {name : String} (isName : IsName name) : Legible functions (.var name)
  | negate {operand : Formula} : Legible functions (.negate operand)
  | binary {level : Level} {operator : Operator} {left right : Formula}
      (listed : operator.symbol ∈ level.symbols)
      (registered : operator ∈ Operator.table) :
      Legible functions (.binary operator left right)
  | call {name : String} {function : Callable} {arguments : List Formula}
      (isName : IsName name) (registered : functions.find? name = some function)
      (arity : arguments.length = function.arity) :
      Legible functions (.call name function arguments)

/-- A literal spells a number that is not negative. -/
theorem Convention.exists_magnitude {convention : Convention} {literal : String}
    {value : Float} (h : convention.readNumber? literal = some value) :
    ∃ m, value = Binary64.ofParts false m := by
  rw [readNumber?, Option.map_eq_some_iff] at h
  obtain ⟨n, -, rfl⟩ := h
  exact ⟨_, rfl⟩

/-- The nodes of a formula that was read from a text are legible. -/
theorem Derives.legible {d : Dialect} {text : String} {tokens : List Token}
    {phrase : Phrase} {formula : Formula}
    (htokens : d.convention.tokenize text = .ok tokens)
    (h : Derives d phrase tokens formula) :
    ∀ node ∈ formula.subtrees, Legible d.functions node := by
  have hnames : ∀ token ∈ tokens, token.category = .letter →
      IsName token.text := by
    intro token htoken hletter
    rw [Convention.eq_scan_of_tokenize htokens] at htoken
    exact Convention.isName_of_mem_scan htoken hletter
  intro node hnode
  cases h.yields node hnode with
  | constant reads =>
    obtain ⟨m, rfl⟩ := Convention.exists_magnitude reads
    exact .constant m
  | var among letters => exact .var (hnames _ among letters)
  | negate => exact .negate
  | binary _ denotes => exact .binary denotes.listed denotes.registered
  | call among letters registered arity =>
    exact .call (hnames _ among letters) registered arity

mutual

/-- The tokens are those of the formula's display form. -/
inductive Displays : List Token → Formula → Prop where
  | constant {token : Token} {m : Binary64.Magnitude} (finite : m.isFinite)
      (numeric : token.category = .number)
      (text : token.text = Binary64.text (Binary64.ofParts false m)) :
      Displays [token] (.constant (Binary64.ofParts false m))
  | infinity {token : Token} (letters : token.category = .letter) :
      Displays [token] (.constant (Binary64.ofParts false .infinity))
  | var {token : Token} (letters : token.category = .letter) :
      Displays [token] (.var token.text)
  | negate {sign : Token} {tokens : List Token} {operand : Formula}
      (negative : sign.isDelimiter "-") (inner : Displays tokens operand) :
      Displays (sign :: tokens) (.negate operand)
  | binary {opening token closing : Token} {before after : List Token}
      {operator : Operator} {left right : Formula}
      (registered : operator ∈ Operator.table)
      (opens : opening.isDelimiter "(") (first : Displays before left)
      (symbol : token.isDelimiter operator.symbol)
      (second : Displays after right) (closes : closing.isDelimiter ")") :
      Displays (opening :: ((before ++ token :: after) ++ [closing]))
        (.binary operator left right)
  | call {name opening closing : Token} {tokens : List Token}
      {function : Callable} {arguments : List Formula}
      (letters : name.category = .letter) (opens : opening.isDelimiter "(")
      (inner : DisplaysArguments tokens arguments)
      (closes : closing.isDelimiter ")") :
      Displays (name :: opening :: (tokens ++ [closing]))
        (.call name.text function arguments)

/-- The tokens are those of display forms with separators between them. -/
inductive DisplaysArguments : List Token → List Formula → Prop where
  | one {tokens : List Token} {formula : Formula}
      (inner : Displays tokens formula) : DisplaysArguments tokens [formula]
  | more {before after : List Token} {separator : Token} {first : Formula}
      {others : List Formula} (inner : Displays before first)
      (separates : separator.isDelimiter argumentSeparator)
      (rest : DisplaysArguments after others) :
      DisplaysArguments (before ++ separator :: after) (first :: others)

end

/-- The text is without fault and makes tokens of which `Q` holds, wherever it
stands before what ends every token. -/
structure Convention.Reads (convention : Convention) (text : String)
    (Q : List Token → Prop) : Prop where
  passable : convention.Passable text.toList
  scans : ∀ position rest, convention.Ends rest → ∃ tokens next, Q tokens ∧
    convention.scan compoundOperators position (text.toList ++ rest) =
      tokens ++ convention.scan compoundOperators next rest

namespace Convention.Reads

variable {convention : Convention} {text other : String}
  {Q R : List Token → Prop}

theorem imp (h : convention.Reads text Q) (himp : ∀ tokens, Q tokens → R tokens) :
    convention.Reads text R where
  passable := h.passable
  scans := by
    intro position rest hrest
    obtain ⟨tokens, next, hQ, hscan⟩ := h.scans position rest hrest
    exact ⟨tokens, next, himp tokens hQ, hscan⟩

/-- A name is read as one token. -/
theorem name (h : IsName text) :
    convention.Reads text fun tokens =>
      ∃ token, tokens = [token] ∧ token.category = .letter ∧ token.text = text where
  passable := .of_quiet fun c hc =>
    quiet_of_continuesName (continuesName_of_isName h c hc)
  scans := by
    intro position rest hrest
    obtain ⟨token, next, hletter, htext, hscan⟩ := scan_name h hrest position
    exact ⟨[token], next, ⟨token, rfl, hletter, htext⟩, hscan⟩

/-- A plain numeral is read as one token. -/
theorem number (hdecimal : convention.decimal = '.') {n : Numeral}
    (h : n.Plain) (htext : text.toList = n.chars) :
    convention.Reads text fun tokens =>
      ∃ token, tokens = [token] ∧ token.category = .number ∧
        token.text = text where
  passable := .of_quiet fun c hc => by
    rw [htext] at hc
    refine quiet (Or.inr (Or.inl (continuesNumber_of_startsNumber ?_)))
    simp only [startsNumber, hdecimal, Bool.or_eq_true, beq_iff_eq]
    exact Numeral.startsNumber_of_mem_chars h hc
  scans := by
    intro position rest hrest
    obtain ⟨token, next, hnumber, hliteral, hscan⟩ :=
      scan_chars hdecimal h hrest position
    rw [← htext] at hliteral hscan
    exact ⟨[token], next,
      ⟨token, rfl, hnumber, hliteral.trans String.ofList_toList⟩, hscan⟩

/-- A sign is read before its operand. -/
theorem negate (h : convention.Reads text Q) :
    convention.Reads ("-" ++ text) fun tokens =>
      ∃ sign inner, tokens = sign :: inner ∧ sign.isDelimiter "-" ∧ Q inner where
  passable := by
    rw [String.toList_append]
    exact passable_sign.append h.passable
  scans := by
    intro position rest hrest
    rw [String.toList_append, List.append_assoc]
    obtain ⟨sign, between, hsign, hfirst⟩ :=
      scan_symbol (show "-" ∈ _ by decide) position (text.toList ++ rest)
    obtain ⟨inner, next, hQ, hscan⟩ := h.scans between rest hrest
    exact ⟨sign :: inner, next, ⟨sign, inner, rfl, hsign, hQ⟩,
      by rw [hfirst, hscan, List.cons_append]⟩

/-- What stands in parentheses is read between them. -/
theorem parenthesized (h : convention.Reads text Q) :
    convention.Reads ("(" ++ text ++ ")") fun tokens =>
      ∃ opening inner closing, tokens = opening :: (inner ++ [closing]) ∧
        opening.isDelimiter "(" ∧ Q inner ∧ closing.isDelimiter ")" where
  passable := by
    rw [String.toList_append, String.toList_append]
    exact h.passable.parenthesized
  scans := by
    intro position rest _
    simp only [String.toList_append, List.append_assoc]
    obtain ⟨opening, first, hopens, hopening⟩ := scan_symbol
      (show "(" ∈ _ by decide) position (text.toList ++ (")".toList ++ rest))
    obtain ⟨inner, last, hQ, hinner⟩ :=
      h.scans first (")".toList ++ rest) (ends_symbol (by decide) rest)
    obtain ⟨closing, next, hcloses, hclosing⟩ :=
      scan_symbol (show ")" ∈ _ by decide) last rest
    refine ⟨opening :: (inner ++ [closing]), next,
      ⟨opening, inner, closing, rfl, hopens, hQ, hcloses⟩, ?_⟩
    rw [hopening, hinner, hclosing, List.cons_append, List.append_assoc,
      List.singleton_append]

/-- An operator between blanks is read between its operands. -/
theorem infixed {symbol : String} (h : convention.Reads text Q)
    (hsymbol : symbol ∈ Operator.symbols) (hother : convention.Reads other R) :
    convention.Reads (text ++ " " ++ symbol ++ " " ++ other) fun tokens =>
      ∃ before token after, tokens = before ++ token :: after ∧ Q before ∧
        token.isDelimiter symbol ∧ R after where
  passable := by
    simp only [String.toList_append]
    exact (((h.passable.append passable_blank).append
      (passable_operator hsymbol)).append passable_blank).append hother.passable
  scans := by
    intro position rest hrest
    simp only [String.toList_append, List.append_assoc]
    obtain ⟨before, first, hQ, hbefore⟩ :=
      h.scans position _ (ends_symbol (show " " ∈ _ by decide) _)
    obtain ⟨token, second, htoken, hoperator⟩ :=
      scan_operator hsymbol first (other.toList ++ rest)
    obtain ⟨after, next, hR, hafter⟩ := hother.scans second rest hrest
    refine ⟨before ++ token :: after, next,
      ⟨before, token, after, rfl, hQ, htoken, hR⟩, ?_⟩
    rw [hbefore, hoperator, hafter, List.append_assoc, List.cons_append]

/-- A separator and a blank are read between two arguments. -/
theorem separated (h : convention.Reads text Q)
    (hother : convention.Reads other R) :
    convention.Reads (text ++ "; " ++ other) fun tokens =>
      ∃ before separator after, tokens = before ++ separator :: after ∧
        Q before ∧ separator.isDelimiter argumentSeparator ∧ R after where
  passable := by
    rw [String.toList_append, String.toList_append]
    exact (h.passable.append passable_separator).append hother.passable
  scans := by
    intro position rest hrest
    simp only [String.toList_append, List.append_assoc]
    obtain ⟨before, first, hQ, hbefore⟩ :=
      h.scans position _ (ends_separator _)
    obtain ⟨separator, second, hseparates, hseparator⟩ :=
      scan_separator first (other.toList ++ rest)
    obtain ⟨after, next, hR, hafter⟩ := hother.scans second rest hrest
    refine ⟨before ++ separator :: after, next,
      ⟨before, separator, after, rfl, hQ, hseparates, hR⟩, ?_⟩
    rw [hbefore, hseparator, hafter, List.append_assoc, List.cons_append]

/-- A name is read before what stands in parentheses after it. -/
theorem called {called : String} (hcalled : IsName called)
    (h : convention.Reads text Q) :
    convention.Reads (called ++ "(" ++ text ++ ")") fun tokens =>
      ∃ name opening inner closing,
        tokens = name :: opening :: (inner ++ [closing]) ∧
        name.category = .letter ∧ name.text = called ∧
        opening.isDelimiter "(" ∧ Q inner ∧ closing.isDelimiter ")" := by
  have hassoc : called ++ "(" ++ text ++ ")" = called ++ ("(" ++ text ++ ")") := by
    simp only [String.append_assoc]
  have hname : convention.Reads called _ := name hcalled
  have hgroup := h.parenthesized
  rw [hassoc]
  constructor
  · rw [String.toList_append]
    exact hname.passable.append hgroup.passable
  · intro position rest hrest
    rw [String.toList_append, List.append_assoc]
    have hends : convention.Ends (("(" ++ text ++ ")").toList ++ rest) := by
      rw [String.append_assoc, String.toList_append, List.append_assoc]
      exact ends_symbol (by decide) _
    obtain ⟨_, between, ⟨name, rfl, hletter, htext⟩, hfirst⟩ :=
      hname.scans position _ hends
    obtain ⟨_, next, ⟨opening, inner, closing, rfl, hopens, hQ, hcloses⟩,
      hsecond⟩ := hgroup.scans between rest hrest
    refine ⟨name :: opening :: (inner ++ [closing]), next,
      ⟨name, opening, inner, closing, rfl, hletter, htext, hopens, hQ, hcloses⟩,
      ?_⟩
    simp only [hfirst, hsecond, List.cons_append, List.nil_append]

end Convention.Reads

/-- A constant is read as a number or, where it is infinite, as a name. -/
private theorem reads_constant {convention : Convention}
    (hdecimal : convention.decimal = '.') (m : Binary64.Magnitude) :
    convention.Reads (Binary64.text (Binary64.ofParts false m))
      (Displays · (.constant (Binary64.ofParts false m))) := by
  by_cases hfinite : m.isFinite
  · obtain ⟨n, hplain, htext, -⟩ := Binary64.exists_numeral_text hfinite
    refine (Convention.Reads.number hdecimal hplain htext).imp ?_
    rintro _ ⟨token, rfl, hnumber, hliteral⟩
    exact .constant hfinite hnumber hliteral
  · obtain rfl : m = .infinity := by
      have hplace : m.place = Binary64.infinityPlace := by
        simpa [Binary64.Magnitude.isFinite] using hfinite
      exact Binary64.Magnitude.ext hplace
    have hword : IsName "inf" :=
      ⟨'i', ['n', 'f'], rfl, rfl, List.all_eq_true.mp (by decide)⟩
    rw [Binary64.text_infinity]
    refine (Convention.Reads.name hword).imp ?_
    rintro _ ⟨token, rfl, hletter, -⟩
    exact .infinity hletter

/-- An operation is read from its operands, in parentheses. -/
private theorem reads_binary {convention : Convention} {operator : Operator}
    {left right : Formula} (hregistered : operator ∈ Operator.table)
    (hleft : convention.Reads (left.text id) (Displays · left))
    (hright : convention.Reads (right.text id) (Displays · right)) :
    convention.Reads ((Tree.binary operator left right).text id)
      (Displays · (.binary operator left right)) := by
  have hsymbol : operator.symbol ∈ Operator.symbols :=
    List.mem_map_of_mem hregistered
  have hassoc : (Tree.binary operator left right).text id =
      "(" ++ (left.text id ++ " " ++ operator.symbol ++ " " ++
        right.text id) ++ ")" := by
    rw [Tree.text]
    simp only [String.append_assoc]
  rw [hassoc]
  refine (hleft.infixed hsymbol hright).parenthesized.imp ?_
  rintro _ ⟨opening, _, closing, rfl, hopens,
    ⟨before, token, after, rfl, hbefore, htoken, hafter⟩, hcloses⟩
  exact .binary hregistered hopens hbefore htoken hafter hcloses

mutual

/-- **The display form of a legible formula has its tokens**, under every
convention whose decimal separator is a point. -/
theorem Tree.reads_text {convention : Convention} {functions : FunctionTable}
    (hdecimal : convention.decimal = '.') (formula : Formula)
    (h : ∀ node ∈ formula.subtrees, Legible functions node) :
    convention.Reads (formula.text id) (Displays · formula) := by
  match formula with
  | .constant value =>
    rw [Tree.subtrees, List.forall_mem_singleton] at h
    cases h with
    | constant m => exact reads_constant hdecimal m
  | .var name =>
    rw [Tree.subtrees, List.forall_mem_singleton] at h
    cases h with
    | var hname =>
      rw [Tree.text]
      refine (Convention.Reads.name hname).imp ?_
      rintro _ ⟨token, rfl, hletter, rfl⟩
      exact .var hletter
  | .negate operand =>
    rw [Tree.subtrees, List.forall_mem_cons] at h
    rw [Tree.text]
    refine (Tree.reads_text hdecimal operand h.2).negate.imp ?_
    rintro _ ⟨sign, inner, rfl, hsign, hinner⟩
    exact .negate hsign hinner
  | .binary operator left right =>
    rw [Tree.subtrees, List.forall_mem_cons, List.forall_mem_append] at h
    obtain ⟨hnode, hleft, hright⟩ := h
    cases hnode with
    | binary _ hregistered =>
      exact reads_binary hregistered (Tree.reads_text hdecimal left hleft)
        (Tree.reads_text hdecimal right hright)
  | .call name function arguments =>
    rw [Tree.subtrees, List.forall_mem_cons] at h
    obtain ⟨hnode, harguments⟩ := h
    cases hnode with
    | call hname _ harity =>
      have hnonempty : arguments ≠ [] := by
        rintro rfl
        cases function <;> cases harity
      rw [Tree.text]
      refine (Convention.Reads.called hname (Tree.reads_textAll hdecimal arguments
        hnonempty harguments)).imp ?_
      rintro _ ⟨name, opening, inner, closing, rfl, hletter, rfl, hopens, hinner,
        hcloses⟩
      exact .call hletter hopens hinner hcloses

/-- The same for arguments. -/
theorem Tree.reads_textAll {convention : Convention} {functions : FunctionTable}
    (hdecimal : convention.decimal = '.') (arguments : List Formula)
    (hnonempty : arguments ≠ [])
    (h : ∀ node ∈ Tree.subtreesAll arguments, Legible functions node) :
    convention.Reads ("; ".intercalate (Tree.textAll id arguments))
      (DisplaysArguments · arguments) := by
  match arguments with
  | [] => exact absurd rfl hnonempty
  | first :: others =>
    rw [Tree.subtreesAll, List.forall_mem_append] at h
    have hfirst := Tree.reads_text hdecimal first h.1
    by_cases hothers : others = []
    · subst hothers
      rw [Tree.textAll, Tree.textAll, String.intercalate_singleton]
      exact hfirst.imp fun _ hinner => .one hinner
    · have hmore := Tree.reads_textAll hdecimal others hothers h.2
      have htexts : Tree.textAll id others ≠ [] := by
        cases others with
        | nil => exact absurd rfl hothers
        | cons second more => simp [Tree.textAll]
      rw [Tree.textAll, String.intercalate_cons_of_ne_nil htexts]
      refine (hfirst.separated hmore).imp ?_
      rintro _ ⟨before, separator, after, rfl, hbefore, hseparates, hafter⟩
      exact .more hbefore hseparates hafter

end

/-- **A display form has tokens.** -/
theorem Convention.exists_displays {convention : Convention}
    {functions : FunctionTable} (hdecimal : convention.decimal = '.')
    {formula : Formula}
    (h : ∀ node ∈ formula.subtrees, Legible functions node) :
    ∃ tokens, convention.tokenize (formula.text id) = .ok tokens ∧
      Displays tokens formula := by
  have hreads := formula.reads_text hdecimal h
  obtain ⟨tokens, next, hdisplays, hscan⟩ := hreads.scans 0 [] ends_nil
  obtain ⟨last, hfault⟩ := hreads.passable 0 0 []
  rw [List.append_nil] at hscan hfault
  refine ⟨tokens, ?_, hdisplays⟩
  rw [tokenize_eq, verdict_eq_ok_iff, hscan, hfault]
  simp [fault?, scan]

end Formulary
