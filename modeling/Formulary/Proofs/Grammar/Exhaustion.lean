import Formulary.Compilation
import Formulary.Proofs.Grammar.Application
import Formulary.Proofs.Grammar.Tracking
import Formulary.Proofs.Token.Lexeme

/-!
# Running out of tokens

A reader can run out of tokens in four places: where an atom should begin, where
a group should be closed, where an argument should begin, and where an argument
should end.  The last three lie within parentheses.  The tokens of a text have
all their parentheses closed, so they never end there.

What carries the argument is that a rule within parentheses has more closing
than opening parentheses ahead.  A phrase that has been read opens as many as it
closes, so this stays true from one application to the next.  A token list that
ends where an atom should begin ends with an operator then, as nothing else but
an opening parenthesis or a separator stands before an atom.

* `Application.RunsOut` are the three places within parentheses;
* `Application.Guarded` is what is true of every application on the way;
* `Scope.compileTokens_guarded` says what this means for the errors of a text.
-/

namespace Formulary

/-- The application finds no token although a parenthesis is open. -/
inductive Application.RunsOut : Application → Prop where
  /-- No token closes the group. -/
  | closing {inner : Formula} : RunsOut ⟨.closing inner, []⟩
  /-- No token begins the argument. -/
  | argument {name : Token} : RunsOut ⟨.argumentList name, []⟩
  /-- No token ends the argument. -/
  | separated {name : Token} {first : Formula} : RunsOut ⟨.separated name first, []⟩

/-- How many parentheses are known to be open where the rule is applied. -/
def Rule.within : Rule → Nat
  | .closing _ | .arguments _ | .argumentList _ | .separated _ _ => 1
  | .whole | .phrase _ | .further _ _ | .named _ => 0

/-- Whether the last token is an operator. -/
def EndsWithOperator (tokens : List Token) : Prop :=
  ∃ last ∈ tokens.getLast?, ∃ level : Level, level.takes last

/-- So many parentheses are open before the tokens that at least as many more
are closed than opened in them. -/
def ClosesAhead (count : Nat) (tokens : List Token) : Prop :=
  count + tokens.countP (·.isDelimiter "(") ≤ tokens.countP (·.isDelimiter ")")

/-- What is true of an application on the way through the tokens. -/
structure Application.Guarded (tokens : List Token) (a : Application) : Prop where
  suffix : a.tokens <:+ tokens
  closes : ClosesAhead a.rule.within a.tokens
  ended : ∀ kind, a.rule = .phrase kind → a.tokens = [] → EndsWithOperator tokens

/-- The reader passes over a phrase and leaves nothing open that was not. -/
theorem Dialect.passes_of_read {d : Dialect} {phrase : Phrase}
    {tokens rest : List Token} {formula : Formula} {mentions : List String}
    (h : d.read phrase tokens = ⟨.ok formula, rest, mentions⟩) :
    d.Passes ⟨[], tokens⟩ ⟨[], rest⟩ mentions := by
  have htracks := d.read_tracks phrase tokens []
  rw [h] at htracks
  cases htracks with
  | reached passes meets => exact meets ▸ passes

namespace ClosesAhead

variable {count : Nat} {token : Token} {tokens rest : List Token}

/-- After a token that is no parenthesis as many are ahead. -/
theorem after_other (h : ClosesAhead count (token :: rest))
    (hopens : token.isDelimiter "(" = false)
    (hcloses : token.isDelimiter ")" = false) : ClosesAhead count rest := by
  simpa [ClosesAhead, List.countP_cons, hopens, hcloses] using h

/-- After an opening parenthesis one more is ahead. -/
theorem after_opening (h : ClosesAhead count (token :: rest))
    (hopens : token.isDelimiter "(") : ClosesAhead 1 rest := by
  have hcloses : token.isDelimiter ")" = false :=
    Token.isDelimiter_of_ne hopens (by decide)
  simp only [ClosesAhead, List.countP_cons, hopens, hcloses] at h ⊢
  simp at h
  omega

/-- A parenthesis is left to be closed. -/
theorem ne_nil (h : ClosesAhead 1 tokens) : tokens ≠ [] := by
  rintro rfl
  simp [ClosesAhead] at h

/-- A phrase that is read opens as many parentheses as it closes. -/
theorem after_read {d : Dialect} {phrase : Phrase} {formula : Formula}
    {mentions : List String} (h : ClosesAhead count tokens)
    (hread : d.read phrase tokens = ⟨.ok formula, rest, mentions⟩) :
    ClosesAhead count rest := by
  have hdepth := (Dialect.passes_of_read hread).depth
  simp only [ClosesAhead, List.length_nil, Nat.zero_add] at h hdepth ⊢
  omega

end ClosesAhead

/-- A sign is an operator. -/
theorem Token.takes_of_isSign {token : Token} (h : token.isSign) :
    Level.additive.takes token := by
  rw [Level.takes_iff]
  simp only [isSign, Bool.or_eq_true, isDelimiter_iff] at h
  rcases h with ⟨hdelimiter, htext⟩ | ⟨hdelimiter, htext⟩ <;>
    exact ⟨hdelimiter, by rw [htext]; decide⟩

/-- A token that stands last is the last one. -/
private theorem endsWithOperator {level : Level} {token : Token}
    {tokens rest : List Token} (htakes : level.takes token)
    (h : token :: rest <:+ tokens) (hrest : rest = []) :
    EndsWithOperator tokens := by
  subst hrest
  obtain ⟨front, rfl⟩ := h
  exact ⟨token, by simp, level, htakes⟩

namespace Application.Guarded

variable {d : Dialect} {tokens rest : List Token} {token : Token}
  {rule next : Rule} {a b : Application}

/-- Another phrase on the same tokens. -/
private theorem tighter {kind other : Phrase}
    (h : Guarded tokens ⟨.phrase kind, rest⟩) :
    Guarded tokens ⟨.phrase other, rest⟩ :=
  ⟨h.suffix, h.closes, fun _ _ => h.ended kind rfl⟩

/-- A rule after an operator or a sign. -/
private theorem after_operator {level : Level}
    (h : Guarded tokens ⟨rule, token :: rest⟩) (htakes : level.takes token)
    (hrule : rule.within = 0) (hnext : next.within = 0) :
    Guarded tokens ⟨next, rest⟩ where
  suffix := (List.suffix_cons token rest).trans h.suffix
  closes := by
    have hcloses := h.closes.after_other
      (Level.not_isDelimiter_of_takes htakes (by decide))
      (Level.not_isDelimiter_of_takes htakes (by decide))
    rw [hrule] at hcloses
    rw [hnext]
    exact hcloses
  ended := fun _ _ => endsWithOperator htakes h.suffix

/-- What goes on after a phrase. -/
private theorem after_phrase {kind : Phrase} {formula : Formula}
    {mentions : List String} {start : List Token}
    (h : Guarded tokens ⟨.phrase kind, start⟩)
    (hread : d.read kind start = ⟨.ok formula, rest, mentions⟩)
    (hnext : next.within = 0) (hphrase : ∀ kind, next ≠ .phrase kind) :
    Guarded tokens ⟨next, rest⟩ where
  suffix := (Dialect.passes_of_read hread).suffix.trans h.suffix
  closes := by
    rw [hnext]
    exact h.closes.after_read hread
  ended := fun kind hkind => absurd hkind (hphrase kind)

/-- **One step.**  An application that is guarded makes guarded ones. -/
theorem step (h : Guarded tokens a) (happlies : d.Applies a b) :
    Guarded tokens b := by
  cases happlies with
  | whole nonempty =>
    exact ⟨h.suffix, h.closes, fun _ _ hnil => absurd hnil nonempty⟩
  | operand | unsigned => exact h.tighter
  | further read => exact h.tighter.after_phrase read rfl (by simp)
  | rightOperand takes => exact h.after_operator takes rfl rfl
  | @again level left right operator token rest _ _ denotes read =>
    have hright : Guarded tokens ⟨.phrase (.rightOperandOf level), rest⟩ :=
      h.after_operator (Level.denotes_iff.mp denotes).1 rfl rfl
    exact hright.after_phrase read rfl (by simp)
  | sign sign => exact h.after_operator (Token.takes_of_isSign sign) rfl rfl
  | group opens =>
    have hcloses := h.closes.after_opening opens
    refine ⟨(List.suffix_cons _ _).trans h.suffix, ?_, ?_⟩
    · exact Nat.le_trans (Nat.add_le_add_right (Nat.zero_le 1) _) hcloses
    · exact fun _ _ hnil => absurd hnil hcloses.ne_nil
  | closing opens read =>
    have hcloses := h.closes.after_opening opens
    refine ⟨?_, hcloses.after_read read, by simp⟩
    exact ((Dialect.passes_of_read read).suffix.trans (List.suffix_cons _ _)).trans h.suffix
  | @named name rest letters =>
    have hnone : ∀ symbol, name.isDelimiter symbol = false := by
      simp [Token.isDelimiter, letters]
    exact ⟨(List.suffix_cons _ _).trans h.suffix,
      h.closes.after_other (hnone "(") (hnone ")"), by simp⟩
  | arguments opens registered =>
    exact ⟨(List.suffix_cons _ _).trans h.suffix,
      h.closes.after_opening opens, by simp⟩
  | argumentList some => exact ⟨h.suffix, h.closes, by simp⟩
  | argument begins =>
    refine ⟨h.suffix, ?_, fun _ _ hnil => absurd hnil (List.cons_ne_nil _ _)⟩
    exact Nat.le_trans (Nat.add_le_add_right (Nat.zero_le 1) _) h.closes
  | separated begins read =>
    exact ⟨(Dialect.passes_of_read read).suffix.trans h.suffix,
      h.closes.after_read read, by simp⟩
  | next separates =>
    have hcloses := h.closes.after_other
      (Token.isDelimiter_of_ne separates (by decide))
      (Token.isDelimiter_of_ne separates (by decide))
    exact ⟨(List.suffix_cons _ _).trans h.suffix, hcloses, by simp⟩

/-- **A whole run.**  Whatever application the tokens lead to, it is guarded. -/
theorem of_reaches
    (hbalanced : tokens.countP (·.isDelimiter "(") =
      tokens.countP (·.isDelimiter ")"))
    (h : Relation.ReflTransGen d.Applies ⟨.whole, tokens⟩ a) :
    Guarded tokens a := by
  induction h with
  | refl =>
    refine ⟨List.suffix_refl _, ?_, nofun⟩
    simp [ClosesAhead, Rule.within, hbalanced]
  | tail _ happlies ih => exact ih.step happlies

/-- A guarded application does not run out of tokens within parentheses. -/
theorem not_runsOut (h : Guarded tokens a) : ¬a.RunsOut := by
  intro hout
  have hcloses := h.closes
  cases hout <;> exact ClosesAhead.ne_nil hcloses rfl

end Application.Guarded

/-- An operator at the end leaves the parentheses before it balanced. -/
theorem EndsWithOperator.countP_dropLast {tokens : List Token}
    (h : EndsWithOperator tokens)
    (hbalanced : tokens.countP (·.isDelimiter "(") =
      tokens.countP (·.isDelimiter ")")) :
    tokens.dropLast.countP (·.isDelimiter "(") =
      tokens.dropLast.countP (·.isDelimiter ")") := by
  obtain ⟨last, hlast, level, htakes⟩ := h
  obtain ⟨front, rfl⟩ := List.getLast?_eq_some_iff.mp hlast
  have hopens : last.isDelimiter "(" = false :=
    Level.not_isDelimiter_of_takes htakes (by decide)
  have hcloses : last.isDelimiter ")" = false :=
    Level.not_isDelimiter_of_takes htakes (by decide)
  simpa [List.countP_append, List.countP_cons, hopens, hcloses] using hbalanced

/-- What a token list fails with, whatever the variables. -/
theorem Scope.compileTokens_eq_error_iff (s : Scope) (d : Dialect)
    (tokens : List Token) (e : CompileError) :
    (s.compileTokens d tokens).1 = .error e ↔
      ∃ a, Relation.ReflTransGen d.Applies ⟨.whole, tokens⟩ a ∧ d.Raises a e := by
  rw [← Dialect.error?_eq_some_iff]
  show (d.parse tokens).result.map _ = _ ↔ (d.parse tokens).error? = some e
  rw [Outcome.error?_eq_some_iff]
  cases (d.parse tokens).result <;> simp [Except.map]

/-- **No text runs out of tokens within parentheses.**  Of the tokens of a text,
no application on the way is one that finds no token where a group is to be
closed or an argument is to begin or to end.  So a text that ends too early ends
with an operator outside all parentheses, and a missing argument is reported
where a separator or a closing parenthesis stands. -/
theorem Scope.compileTokens_guarded {d : Dialect} {text : String}
    {tokens : List Token} (htokens : d.convention.tokenize text = .ok tokens)
    (s : Scope) :
    (∀ a, Relation.ReflTransGen d.Applies ⟨.whole, tokens⟩ a → ¬a.RunsOut) ∧
      ((s.compileTokens d tokens).1 = .error .unexpectedEndOfInput →
        EndsWithOperator tokens ∧
          tokens.dropLast.countP (·.isDelimiter "(") =
            tokens.dropLast.countP (·.isDelimiter ")")) ∧
      ∀ name position,
        (s.compileTokens d tokens).1 = .error (.missingArgument name position) →
        ∃ token ∈ tokens, token.position = position ∧
          (token.isDelimiter argumentSeparator ∨ token.isDelimiter ")") := by
  have hbalanced := Convention.countP_tokenize htokens
  have hguarded : ∀ a, Relation.ReflTransGen d.Applies ⟨.whole, tokens⟩ a →
      a.Guarded tokens := fun _ => .of_reaches hbalanced
  refine ⟨fun a ha => (hguarded a ha).not_runsOut, ?_, ?_⟩
  · intro hresult
    rw [compileTokens_eq_error_iff] at hresult
    obtain ⟨a, ha, hraises⟩ := hresult
    have hends : EndsWithOperator tokens := by
      cases hraises with
      | nothing => exact (hguarded _ ha).ended .atom rfl rfl
      | unclosed => exact absurd .closing (hguarded _ ha).not_runsOut
      | unended => exact absurd .separated (hguarded _ ha).not_runsOut
    exact ⟨hends, hends.countP_dropLast hbalanced⟩
  · intro name position hresult
    rw [compileTokens_eq_error_iff] at hresult
    obtain ⟨a, ha, hraises⟩ := hresult
    cases hraises with
    | noArgument => exact absurd .argument (hguarded _ ha).not_runsOut
    | @emptyArgument _ token rest ends =>
      refine ⟨token, (hguarded _ ha).suffix.subset List.mem_cons_self, rfl, ?_⟩
      simpa using ends

/-- A power without its exponent. -/
theorem Scope.compileTokens_guarded_power :
    Convention.invariant.tokenize "(a) ^" =
        .ok [⟨"(", .delimiter, 0⟩, ⟨"a", .letter, 1⟩, ⟨")", .delimiter, 2⟩,
          ⟨"^", .delimiter, 4⟩] ∧
      (empty.compileTokens ⟨.invariant, .standard⟩ [⟨"(", .delimiter, 0⟩,
          ⟨"a", .letter, 1⟩, ⟨")", .delimiter, 2⟩, ⟨"^", .delimiter, 4⟩]).1 =
        .error .unexpectedEndOfInput ∧
      EndsWithOperator [⟨"(", .delimiter, 0⟩, ⟨"a", .letter, 1⟩,
        ⟨")", .delimiter, 2⟩, ⟨"^", .delimiter, 4⟩] := by
  have htokens : Convention.invariant.tokenize "(a) ^" =
      .ok [⟨"(", .delimiter, 0⟩, ⟨"a", .letter, 1⟩, ⟨")", .delimiter, 2⟩,
        ⟨"^", .delimiter, 4⟩] := by
    with_unfolding_all rfl
  have hresult : (empty.compileTokens ⟨.invariant, .standard⟩
      [⟨"(", .delimiter, 0⟩, ⟨"a", .letter, 1⟩, ⟨")", .delimiter, 2⟩,
        ⟨"^", .delimiter, 4⟩]).1 = .error .unexpectedEndOfInput := by
    with_unfolding_all rfl
  exact ⟨htokens, hresult,
    ((compileTokens_guarded (d := ⟨.invariant, .standard⟩) htokens empty).2.1
      hresult).1⟩

end Formulary
