import Formulary.Calculator

/-!
# What compilations log

A compilation tells of itself in events: that it begins, which tokens it has
found, and which tree it has built.  One that fails tells nothing after the step
that failed.

How an event is written is not settled here.  The text of an event can depend on
when it comes, so a log is given by the text that it has for every event in every
place.

* `Scope.compileEvents` has the events of a compilation;
* `Calculator.compileEvents` and `Calculator.calculateEvents` have those of a
  calculator, which compiles in order to calculate where it has no tree;
* `Log.text` writes the events of a run.
-/

namespace Formulary

/-- What a compilation tells of itself. -/
inductive Event where
  | compiling (expression : String)
  | tokenized (texts : List String)
  /-- The tree is there, in its display form, and so many variables are known. -/
  | compiled (tree : String) (known : Nat)
deriving DecidableEq

namespace Event

/-- How much the event matters. -/
def severity : Event → String
  | compiling _ | compiled _ _ => "DEBUG"
  | tokenized _ => "TRACE"

/-- A text in quotation marks, with a backslash before those that are in it and
before backslashes. -/
def quoted (text : String) : String :=
  let escape (c : Char) : List Char :=
    if c = '\x22' || c = '\x5c' then ['\x5c', c] else [c]
  String.ofList ('\x22' :: text.toList.flatMap escape ++ ['\x22'])

/-- What has happened, with the data of the event after it. -/
def text : Event → String
  | compiling expression => "compiling expression expression=" ++ expression
  | tokenized texts =>
    "tokenized expression count=" ++ toString texts.length ++ " tokens=[" ++
      ", ".intercalate (texts.map quoted) ++ "]"
  | compiled tree known =>
    "compiled expression tree=" ++ tree ++ " variables=" ++ toString known

end Event

/-- How a log is written: the text of each event, given how many there were before
it. -/
abbrev Log := Nat → Event → String

namespace Log

/-- The log that is never written. -/
def silent : Log := fun _ _ => ""

/-- The log with a line for each event, without times. -/
def plain : Log := fun _ event => event.severity ++ " " ++ event.text ++ "\n"

/-- The text of a log that has had the events. -/
def text (log : Log) (events : List Event) : String :=
  String.join (events.mapIdx log)

end Log

/-- The events of compiling a text. -/
def Scope.compileEvents (s : Scope) (d : Dialect) (text : String) : List Event :=
  .compiling text ::
    match d.convention.tokenize text with
    | .error _ => []
    | .ok tokens =>
      .tokenized (tokens.map Token.text) ::
        match s.compileTokens d tokens with
        | (.error _, _) => []
        | (.ok tree, after) => [.compiled tree.text after.store.size]

namespace Calculator

/-- The events of compiling the expression. -/
def compileEvents (c : Calculator) (m : Memory) : List Event :=
  (c.scope m).compileEvents c.dialect c.expression

/-- The events of calculating: those of a compilation if there has to be one. -/
def calculateEvents (c : Calculator) (m : Memory) : List Event :=
  if c.isCompiled then [] else c.compileEvents m

end Calculator

end Formulary
