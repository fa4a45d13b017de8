import Formulary.Proofs.Grammar.Progress
import Formulary.Proofs.Grammar.Success

/-!
# Every rule tells how far it got

Each rule of the grammar, on success and on failure, has passed over the tokens
up to the place that its outcome tells.  A phrase leaves the open parentheses as
it found them.  The arguments of a call leave the parenthesis of the call open,
with as many arguments as were read, and it is closed only once their number is
right.

The order of proof is that of `Phrase.induction`; the lists of operands and of
arguments have inductions of their own on what is left of the tokens.

* `Dialect.read_tracks` is the statement for every phrase;
* `Dialect.parse_tracks` is the one for whole token lists.
-/

namespace Formulary.Dialect

variable {d : Dialect} {level : Level} {tokens : List Token}
  {frames : List Frame}

/-- Whatever is open, the reader of the phrase tells how far it got. -/
def TracksPhrase (d : Dialect) (phrase : Phrase) (tokens : List Token) : Prop :=
  ∀ frames, d.Tracks ⟨frames, tokens⟩ (Keeps frames) (d.read phrase tokens)

/-- The next token is at fault. -/
private theorem tracks_before {α : Type} {goal : α → List Token → Place → Prop}
    {token : Token} {others rest : List Token} {error : CompileError}
    (h : error.tokenPosition? = some token.position) :
    d.Tracks ⟨frames, token :: others⟩ goal ⟨.error error, rest, []⟩ :=
  .stopped .here (.before h)

/-- An operator or a sign is passed over. -/
private theorem step_operator {token : Token} (h : level.takes token)
    (rest : List Token) : d.Step ⟨frames, token :: rest⟩ ⟨frames, rest⟩ [] := by
  refine .plain ?_ ?_
  · rw [(Level.takes_iff.mp h).1]
    decide
  · rintro (hopens | hseparates | hcloses)
    · rw [Level.not_isDelimiter_of_takes h (by decide)] at hopens
      cases hopens
    · rw [Level.not_isDelimiter_of_takes h (by decide)] at hseparates
      cases hseparates
    · rw [Level.not_isDelimiter_of_takes h (by decide)] at hcloses
      cases hcloses

/-- A group is closed where it ends. -/
private theorem closing_tracks (inner : Formula) (tokens : List Token)
    {frame : Frame} (hname : frame.name? = none) :
    d.Tracks ⟨frame :: frames, tokens⟩ (Keeps frames) (closing inner tokens) := by
  cases tokens with
  | nil => exact .stopped .here .atEnd
  | cons token rest =>
    rw [closing_cons]
    split
    · next hcloses =>
      refine .after (.closing hcloses ?_) (.reached .here rfl)
      simp [Frame.call?, hname]
    · exact tracks_before rfl

/-- A call is closed where it has the right number of arguments. -/
private theorem calling_tracks {name token : Token} {function : Callable}
    {arguments : List Formula} (hcloses : token.isDelimiter ")")
    (hfind : d.functions.find? name.text = some function) (rest : List Token) :
    d.Tracks ⟨⟨some name, arguments.length⟩ :: frames, token :: rest⟩
      (Keeps frames) (calling name function arguments rest) := by
  rw [calling_eq]
  split
  · next harity =>
    refine .after (.closing hcloses ?_) (.reached .here rfl)
    simp [Frame.call?, miscounts, hfind, harity]
  · next harity => exact .stopped .here (.miscounted hcloses hfind harity)

/-- The arguments have been passed up to the parenthesis that closes the call,
with so many before them. -/
def ClosesCall (name : Token) (frames : List Frame) (before : Nat)
    (arguments : List Formula) (rest : List Token) (finish : Place) : Prop :=
  ∃ closing, closing.isDelimiter ")" ∧
    finish = ⟨⟨some name, before + arguments.length⟩ :: frames, closing :: rest⟩

/-- A list of arguments counts them. -/
private theorem argumentList_tracks (name : Token) {bound : Nat}
    (hchain : ∀ fewer : List Token, fewer.length < bound →
      TracksPhrase d (.chain .relational) fewer)
    (hbound : tokens.length < bound) (before : Nat) :
    d.Tracks ⟨⟨some name, before + 1⟩ :: frames, tokens⟩
      (ClosesCall name frames before) (d.argumentList name tokens) := by
  induction hn : tokens.length using Nat.strongRecOn
    generalizing tokens before with
  | ind n ih =>
    cases tokens with
    | nil =>
      rw [argumentList_nil]
      exact .stopped .here .missing
    | cons head tail =>
      rw [argumentList_cons]
      split
      · exact tracks_before rfl
      refine (hchain _ hbound _).andThen ?_
      rintro first rest _ hsuffix rfl
      cases rest with
      | nil =>
        rw [separated_nil]
        exact .stopped .here .atEnd
      | cons token others =>
        have hshort := hsuffix.length_le
        simp only [List.length_cons] at hshort hbound hn
        rw [separated_cons]
        split
        · next hseparates =>
          refine .after (.separator hseparates) ?_
          refine (ih others.length (by omega) (by omega) (before + 1) rfl).map ?_
          rintro more rest _ ⟨closing, hcloses, rfl⟩
          refine ⟨closing, hcloses, ?_⟩
          rw [List.length_cons, Nat.add_comm more.length, Nat.add_assoc]
        · split
          · next hcloses => exact .reached .here ⟨token, hcloses, rfl⟩
          · exact tracks_before rfl

/-- The arguments of a call are counted from its opening parenthesis. -/
private theorem arguments_tracks (name : Token) {bound : Nat}
    (hchain : ∀ fewer : List Token, fewer.length < bound →
      TracksPhrase d (.chain .relational) fewer)
    (hbound : tokens.length < bound) :
    d.Tracks ⟨.opening (some name) tokens :: frames, tokens⟩
      (ClosesCall name frames 0) (d.arguments name tokens) := by
  cases tokens with
  | nil =>
    rw [arguments_nil]
    exact argumentList_tracks name hchain hbound 0
  | cons token rest =>
    have hopening : Frame.opening (some name) (token :: rest) =
        ⟨some name, if token.isDelimiter ")" then 0 else 1⟩ := rfl
    rw [arguments_cons, hopening]
    split
    · next hcloses => exact .reached .here ⟨token, hcloses, rfl⟩
    · exact argumentList_tracks name hchain hbound 0

/-- A name is passed as a variable or as a call. -/
private theorem named_tracks {name : Token} (hletter : name.category = .letter)
    (hchain : ∀ fewer : List Token, fewer.length < tokens.length →
      TracksPhrase d (.chain .relational) fewer) :
    d.Tracks ⟨frames, name :: tokens⟩ (Keeps frames) (d.named name tokens) := by
  cases tokens with
  | nil =>
    rw [named_nil]
    exact .reached (.step (.var hletter rfl) .here) rfl
  | cons token rest =>
    rw [named_cons]
    split
    · next hopens =>
      cases hfind : d.functions.find? name.text with
      | none => exact tracks_before rfl
      | some function =>
        refine .after (.call hletter hopens) ?_
        refine (arguments_tracks name hchain (Nat.lt_succ_self _)).andThen ?_
        rintro arguments rest _ - ⟨closing, hcloses, rfl⟩
        rw [Nat.zero_add]
        exact calling_tracks hcloses hfind rest
    · next hopens =>
      have hnext : nextIs "(" (token :: rest) = false := by
        simpa [nextIs] using hopens
      exact .reached (.step (.var hletter hnext) .here) rfl

/-- An atom tells how far it got if the chains in it do. -/
private theorem atom_tracks
    (hchain : ∀ fewer : List Token, fewer.length < tokens.length →
      TracksPhrase d (.chain .relational) fewer) :
    TracksPhrase d .atom tokens := by
  intro frames
  show d.Tracks _ _ (d.atom tokens)
  cases tokens with
  | nil =>
    rw [atom_nil]
    exact .stopped .here .atEnd
  | cons token rest =>
    rw [atom_cons]
    split
    · next hopens =>
      refine .after (.group hopens) ?_
      refine (hchain rest (Nat.lt_succ_self _) _).andThen ?_
      rintro inner rest _ - rfl
      exact closing_tracks inner rest rfl
    split
    · next hnumber =>
      have hother : ¬token.IsBracket := by
        rintro (h | h | h) <;>
          simp [(Token.isDelimiter_iff.mp h).1] at hnumber
      have hletter : token.category ≠ .letter := by simp [hnumber]
      cases d.convention.readNumber? token.text with
      | none => exact tracks_before rfl
      | some value =>
        exact .reached (.step (.plain hletter hother) .here) rfl
    · next hletter =>
      refine named_tracks hletter fun fewer hfewer => hchain fewer ?_
      exact Nat.lt_succ_of_lt hfewer
    · exact tracks_before rfl

/-- A sign is passed over before its atom. -/
private theorem signed_tracks
    (hfewer : ∀ fewer : List Token, fewer.length < tokens.length →
      TracksPhrase d .atom fewer)
    (hatom : TracksPhrase d .atom tokens) : TracksPhrase d .signed tokens := by
  intro frames
  show d.Tracks _ _ (d.signed tokens)
  cases tokens with
  | nil =>
    rw [signed_nil]
    exact hatom frames
  | cons sign rest =>
    have hsign : ∀ symbol ∈ Level.additive.symbols, sign.isDelimiter symbol →
        d.Step ⟨frames, sign :: rest⟩ ⟨frames, rest⟩ [] := by
      intro symbol hsymbol h
      obtain ⟨hdelimiter, rfl⟩ := Token.isDelimiter_iff.mp h
      exact step_operator (Level.takes_iff.mpr ⟨hdelimiter, hsymbol⟩) rest
    have hrest := hfewer rest (Nat.lt_succ_self _) frames
    rw [signed_cons]
    split
    · next hminus =>
      exact .after (hsign "-" (by decide) hminus) (hrest.map fun _ _ _ h => h)
    · split
      · next hplus => exact .after (hsign "+" (by decide) hplus) hrest
      · exact hatom frames

/-- The right operand of a level is a phrase. -/
private theorem rightOperand_tracks (level : Level) (frames : List Frame)
    (h : ∀ phrase, TracksPhrase d phrase tokens) :
    d.Tracks ⟨frames, tokens⟩ (Keeps frames) (d.rightOperand level tokens) := by
  rw [rightOperand_eq]
  split
  · exact h (.chain .relational) frames
  · rw [← read_operandOf]
    exact h (.operandOf _) frames

/-- A chain passes over its operators and operands one by one. -/
private theorem further_tracks {bound : Nat}
    (hfewer : ∀ phrase, ∀ fewer : List Token, fewer.length < bound →
      TracksPhrase d phrase fewer)
    (hbound : tokens.length ≤ bound) (left : Formula) :
    d.Tracks ⟨frames, tokens⟩ (Keeps frames) (d.further level left tokens) := by
  induction hn : tokens.length using Nat.strongRecOn
    generalizing tokens left with
  | ind n ih =>
    by_cases hstop : ∀ token ∈ tokens.head?, level.takes token = false
    · rw [further_of_not_takes left hstop]
      exact .reached .here rfl
    cases tokens with
    | nil => simp at hstop
    | cons token others =>
      have htakes : level.takes token := by simpa using hstop
      obtain ⟨operator, hdenotes⟩ := Level.takes_iff_denotes.mp htakes
      rw [List.length_cons] at hn hbound
      rw [further_of_denotes hdenotes]
      refine .after (step_operator htakes others) ?_
      have hright := rightOperand_tracks level frames
        fun phrase => hfewer phrase others (by omega)
      refine hright.andThen ?_
      rintro right between _ hsuffix rfl
      have hshort : between.length ≤ others.length := hsuffix.length_le
      exact ih between.length (by omega) (by omega) _ rfl

/-- A chain tells how far it got if its operands do. -/
private theorem chain_tracks
    (hfewer : ∀ phrase, ∀ fewer : List Token, fewer.length < tokens.length →
      TracksPhrase d phrase fewer)
    (hoperand : TracksPhrase d (.operandOf level) tokens) :
    TracksPhrase d (.chain level) tokens := by
  intro frames
  show d.Tracks _ _ (d.chain level tokens)
  have hfirst := hoperand frames
  rw [read_operandOf] at hfirst
  rw [chain_eq]
  refine hfirst.andThen ?_
  rintro first between _ hsuffix rfl
  exact further_tracks hfewer hsuffix.length_le first

/-- **Every phrase tells how far it got**, whether it is read or not. -/
theorem read_tracks (d : Dialect) (phrase : Phrase) (tokens : List Token) :
    TracksPhrase d phrase tokens := by
  induction phrase, tokens using Phrase.induction with
  | step phrase tokens hfewer htighter =>
    cases phrase with
    | chain level =>
      exact chain_tracks hfewer
        (htighter (.operandOf level) (Phrase.rank_operandOf_lt level))
    | signed => exact signed_tracks (hfewer _) (htighter .atom Nat.zero_lt_one)
    | atom => exact atom_tracks (hfewer _)

/-- A whole token list is passed over to its end, or up to where the error
says. -/
theorem parse_tracks (d : Dialect) (h : tokens ≠ []) :
    d.Tracks ⟨[], tokens⟩ (fun _ _ finish => finish = ⟨[], []⟩)
      (d.parse tokens) := by
  cases tokens with
  | nil => exact absurd rfl h
  | cons first others =>
    rw [parse]
    refine (read_tracks d (.chain .relational) (first :: others) []).andThen ?_
    rintro formula rest _ - rfl
    cases rest with
    | nil => exact .reached .here rfl
    | cons token rest => exact tracks_before rfl

end Formulary.Dialect
