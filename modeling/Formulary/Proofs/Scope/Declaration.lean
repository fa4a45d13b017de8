import Formulary.Compilation
import Formulary.Proofs.Grammar.Tracking
import Formulary.Proofs.Scope
import Formulary.Proofs.Token.Lexeme

/-!
# What a compilation declares

A compilation declares the variables that it has passed, and where it stops is
known from its answer: at the end of a text that compiles or goes on where it
ends, before the token that is reported, or before the parenthesis that closes
the first call with a wrong number of arguments.  Since positions increase from
token to token, these are the variables of the text up to a position.

A call whose argument would begin at the end of the tokens has an open
parenthesis, which a text with tokens has not; so a missing argument is always
reported where a token stands.

* `Dialect.Declares` says which variables an answer stands for;
* `Dialect.parse_declares` says so of every token list of a text;
* `Scope.compile_declares` is the statement for whole compilations.
-/

namespace Formulary

/-- The variables of a token list that are declared where it is compiled with
this result. -/
inductive Dialect.Declares (d : Dialect) (tokens : List Token) {α : Type} :
    Except CompileError α → List Token → Prop where
  | all {value : α} : Declares d tokens (.ok value) (occurrences tokens)
  | atEnd : Declares d tokens (.error .unexpectedEndOfInput) (occurrences tokens)
  | nothing (empty : tokens = []) : Declares d tokens (.error .emptyExpression) []
  | before {error : CompileError} {position : Nat}
      (reported : error.tokenPosition? = some position) :
      Declares d tokens (.error error)
        ((occurrences tokens).filter (·.position < position))
  | miscounted {call : CallSite} {function : Callable}
      (first : (calls tokens).find? d.miscounts = some call)
      (registered : d.functions.find? call.name.text = some function) :
      Declares d tokens
        (.error (.argumentCountMismatch call.name.text function.arity
          call.arguments))
        ((occurrences tokens).filter (·.position < call.closing.position))

namespace Dialect

variable {d : Dialect} {tokens rest : List Token} {token : Token}
  {frames : List Frame} {mentions : List String}

/-- Another value is another value of the same declarations. -/
theorem Declares.map {α β : Type} {result : Except CompileError α}
    {passed : List Token} (h : d.Declares tokens result passed) (f : α → β) :
    d.Declares tokens (result.map f) passed := by
  cases h with
  | all => exact .all
  | atEnd => exact .atEnd
  | nothing empty => exact .nothing empty
  | before reported => exact .before reported
  | miscounted first registered => exact .miscounted first registered

/-- On the way to the end all variables are mentioned. -/
private theorem mentions_of_passes_end
    (h : d.Passes ⟨[], tokens⟩ ⟨frames, []⟩ mentions) :
    mentions = (occurrences tokens).map Token.text := by
  have hnames := h.names
  rw [show (occurrences []).map Token.text = [] from rfl, List.append_nil]
    at hnames
  exact hnames.symm

/-- On the way to a token the variables before it are mentioned. -/
private theorem mentions_of_passes
    (hsorted : tokens.Pairwise (·.position < ·.position))
    (h : d.Passes ⟨[], tokens⟩ ⟨frames, token :: rest⟩ mentions) :
    mentions = ((occurrences tokens).filter
      (·.position < token.position)).map Token.text := by
  obtain ⟨front, rfl⟩ : token :: rest <:+ tokens := h.suffix
  obtain ⟨passed, hpassed, hfront⟩ :=
    exists_occurrences_append front (token :: rest)
  have hnames := h.names
  rw [hpassed, List.map_append] at hnames
  obtain ⟨-, hrest, hacross⟩ := List.pairwise_append.mp hsorted
  have hearlier : ∀ x ∈ passed, decide (x.position < token.position) = true := by
    intro x hx
    exact decide_eq_true (hacross x (hfront.subset hx) token List.mem_cons_self)
  have hlater : ∀ x ∈ occurrences (token :: rest),
      ¬decide (x.position < token.position) = true := by
    intro x hx
    rw [decide_eq_true_eq, Nat.not_lt]
    rcases List.mem_cons.mp ((occurrences_sublist _).subset hx) with rfl | hx
    · exact Nat.le_refl _
    · exact Nat.le_of_lt ((List.pairwise_cons.mp hrest).1 x hx)
  rw [hpassed, List.filter_append, List.filter_eq_self.mpr hearlier,
    List.filter_eq_nil_iff.mpr hlater, List.append_nil]
  exact (List.append_cancel_right hnames).symm

/-- A call that is stopped at is the first one with a wrong number of
arguments. -/
private theorem find?_miscounts {name closing : Token} {found : Nat}
    {function : Callable} (hcloses : closing.isDelimiter ")")
    (hregistered : d.functions.find? name.text = some function)
    (hdiffers : found ≠ function.arity)
    (h : d.Passes ⟨[], tokens⟩ ⟨⟨some name, found⟩ :: frames, closing :: rest⟩
      mentions) :
    (calls tokens).find? d.miscounts = some ⟨name, found, closing⟩ := by
  obtain ⟨closed, hcalls, hclosed⟩ := h.calls
  have hnone : closed.find? d.miscounts = none := by
    rw [List.find?_eq_none]
    intro call hcall
    rw [hclosed call hcall]
    decide
  have hmiscounts : d.miscounts ⟨name, found, closing⟩ = true := by
    simpa [miscounts, hregistered] using Ne.symm hdiffers
  rw [calls, hcalls, List.find?_append, hnone, callsFrom_closing hcloses]
  exact List.find?_cons_of_pos hmiscounts

/-- A token list with increasing positions and balanced parentheses is read up to
where its result says, and the variables up to there are mentioned. -/
theorem parse_declares (d : Dialect)
    (hsorted : tokens.Pairwise (·.position < ·.position))
    (hbalanced : tokens.countP (·.isDelimiter "(") =
      tokens.countP (·.isDelimiter ")")) :
    ∃ passed, d.Declares tokens (d.parse tokens).result passed ∧
      (d.parse tokens).mentions = passed.map Token.text := by
  by_cases hempty : tokens = []
  · subst hempty
    exact ⟨[], .nothing rfl, rfl⟩
  have htracks := parse_tracks d hempty
  generalize d.parse tokens = o at htracks
  cases htracks with
  | reached passes meets =>
    subst meets
    exact ⟨_, .all, mentions_of_passes_end passes⟩
  | stopped passes stops =>
    cases stops with
    | before reported =>
      exact ⟨_, .before reported, mentions_of_passes hsorted passes⟩
    | atEnd => exact ⟨_, .atEnd, mentions_of_passes_end passes⟩
    | missing =>
      have hdepth := passes.depth
      simp only [List.length_nil, List.length_cons, List.countP_nil] at hdepth
      omega
    | miscounted closes registered differs =>
      exact ⟨_, .miscounted (find?_miscounts closes registered differs passes)
        registered, mentions_of_passes hsorted passes⟩

end Dialect

/-- **Declarations are exact.**  A text without tokens leaves the scope as it is.
Any other declares the variables up to where its result says that the
compilation stopped, and no others; those that are new hold zero, and those that
were known have the value that they had. -/
theorem Scope.compile_declares (s : Scope) (d : Dialect) (text : String) :
    (∀ error, d.convention.tokenize text = .error error →
      s.compile d text = (.error error, s)) ∧
    ∀ tokens, d.convention.tokenize text = .ok tokens →
      ∃ passed, d.Declares tokens (s.compile d text).1 passed ∧
        ∀ name, (s.compile d text).2.get? name =
          if name ∈ passed.map Token.text then some (s.value name)
          else s.get? name := by
  constructor
  · intro error herror
    rw [compile, herror]
  · intro tokens htokens
    have hsorted : tokens.Pairwise (·.position < ·.position) := by
      rw [Convention.eq_scan_of_tokenize htokens]
      exact Convention.pairwise_scan _ _
    obtain ⟨passed, hdeclares, hmentions⟩ :=
      d.parse_declares hsorted (Convention.countP_tokenize htokens)
    refine ⟨passed, ?_, fun name => ?_⟩
    · rw [compile, htokens]
      exact hdeclares.map _
    · rw [compile, htokens, ← hmentions]
      exact get?_declareAll s _ name

end Formulary
