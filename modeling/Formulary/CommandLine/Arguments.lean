import Formulary.CommandLine.Binding

/-!
# Arguments of the command line

The arguments are one expression and any number of options.  An option that
takes a value has it after an equals sign or as the next argument; short flags
can be joined behind one dash; after a double dash nothing is an option.

The values of options are looked at late.  An argument that completes an option
only sets the value aside, and the next expression, option, or the end of the
line *settles* it: whatever is wrong with the value is found then.  An unknown
option, or a second expression, is a fault that comes before one in the value
set aside.

* `UsageError.message` has the first line of each fault's message;
* `Request.ofArguments` reads a command line.
-/

namespace Formulary.CommandLine

/-- Options that stand for themselves. -/
inductive Flag where
  | tree
  | verbose
  | version
  | help
deriving DecidableEq

/-- Options that take a value. -/
inductive Setting where
  | var
  | decimal
  | group
deriving DecidableEq

/-- How a flag is spelled out. -/
def Flag.name : Flag → String
  | tree => "--tree"
  | verbose => "--verbose"
  | version => "--version"
  | help => "--help"

/-- The letter for a flag. -/
def Flag.letter : Flag → Char
  | tree => 't'
  | verbose => 'v'
  | version => 'V'
  | help => 'h'

/-- How a setting is spelled out. -/
def Setting.name : Setting → String
  | var => "--var"
  | decimal => "--decimal"
  | group => "--group"

/-- How messages show a setting. -/
def Setting.usage : Setting → String
  | var => "--var <NAME=VALUE>"
  | decimal => "--decimal <DECIMAL>"
  | group => "--group <GROUP>"

/-- What a flag does. -/
def Flag.description : Flag → String
  | tree => "Prints the compiled tree, fully parenthesized, before the result"
  | verbose => "Logs compilation steps to stderr"
  | help => "Print help"
  | version => "Print version"

/-- What a setting does. -/
def Setting.description : Setting → String
  | var => "Assigns a variable before evaluation, as `NAME=VALUE`. May be repeated"
  | decimal =>
    "Decimal separator for numeric literals in the formula [default: .]"
  | group => "Group separator for numeric literals in the formula [default: ,]"

/-- All flags. -/
def flags : List Flag := [.tree, .verbose, .help, .version]

/-- All settings. -/
def settings : List Setting := [.var, .decimal, .group]

/-- Why a text is no single character. -/
inductive CharacterError where
  | empty
  | tooLong
deriving DecidableEq

/-- The text shown for the error. -/
def CharacterError.message : CharacterError → String
  | empty => "cannot parse char from empty string"
  | tooLong => "too many characters in string"

/-- The only character of a text. -/
def character (text : String) : Except CharacterError Char :=
  match text.toList with
  | [] => .error .empty
  | [c] => .ok c
  | _ => .error .tooLong

/-- What is wrong with a command line. -/
inductive UsageError where
  /-- The binding given to the option cannot be read. -/
  | invalidBinding (text : String) (cause : BindingError)
  /-- The separator given to the option is not a single character. -/
  | invalidCharacter (setting : Setting) (text : String) (cause : CharacterError)
  /-- There is no expression, or one separator without the other. -/
  | incomplete
  /-- There is no such option, or no room for the argument. -/
  | unexpectedArgument (text : String)
  /-- A flag has been given a value. -/
  | unexpectedValue (flag : Flag) (value : String)
  /-- A setting lacks its value. -/
  | missingValue (setting : Setting)
  /-- A flag is there twice. -/
  | repeatedFlag (flag : Flag)
  /-- A setting that can be made once is made twice. -/
  | repeatedSetting (setting : Setting)
deriving DecidableEq

/-- The first line of the message. -/
def UsageError.message : UsageError → String
  | invalidBinding text cause =>
    s!"error: invalid value '{text}' for '{Setting.var.usage}': {cause.message}"
  | invalidCharacter setting text cause =>
    s!"error: invalid value '{text}' for '{setting.usage}': {cause.message}"
  | incomplete => "error: the following required arguments were not provided:"
  | unexpectedArgument text => s!"error: unexpected argument '{text}' found"
  | unexpectedValue flag value =>
    s!"error: unexpected value '{value}' for '{flag.name}' found; no more were expected"
  | missingValue setting =>
    s!"error: a value is required for '{setting.usage}' but none was supplied"
  | repeatedFlag flag =>
    s!"error: the argument '{flag.name}' cannot be used multiple times"
  | repeatedSetting setting =>
    s!"error: the argument '{setting.usage}' cannot be used multiple times"

/-- What the program is to compute. -/
structure Arguments where
  expression : String
  bindings : List Binding := []
  decimal : Char := '.'
  group : Char := ','
  showTree : Bool := false
  verbose : Bool := false

/-- What a command line asks for. -/
inductive Request where
  | calculation (arguments : Arguments)
  | version
  | help

/-- Why the reading of a command line ends before its end. -/
inductive Stop where
  | fault (error : UsageError)
  /-- The line asks for a text about the program and not for a calculation. -/
  | inform (request : Request)

/-- What has been found on a command line so far. -/
structure Progress where
  expression : Option String := none
  bindings : List Binding := []
  decimal : Option Char := none
  group : Option Char := none
  showTree : Bool := false
  verbose : Bool := false
  /-- The last setting, and its value if that has been found, as long as it has
  not been settled. -/
  pending : Option (Setting × Option String) := none

namespace Progress

/-- Makes a setting. -/
def apply (p : Progress) (setting : Setting) (value : String) :
    Except UsageError Progress :=
  match setting with
  | .var =>
    match Binding.ofText value with
    | .ok binding => .ok { p with bindings := p.bindings ++ [binding] }
    | .error cause => .error (.invalidBinding value cause)
  | .decimal =>
    if p.decimal.isSome then .error (.repeatedSetting .decimal)
    else
      match character value with
      | .ok c => .ok { p with decimal := some c }
      | .error cause => .error (.invalidCharacter .decimal value cause)
  | .group =>
    if p.group.isSome then .error (.repeatedSetting .group)
    else
      match character value with
      | .ok c => .ok { p with group := some c }
      | .error cause => .error (.invalidCharacter .group value cause)

/-- Makes the setting that is pending. -/
def settle (p : Progress) : Except UsageError Progress :=
  match p.pending with
  | none => .ok p
  | some (setting, none) => .error (.missingValue setting)
  | some (setting, some value) => apply { p with pending := none } setting value

/-- Goes on from the settled progress, or stops at a fault in it. -/
def settled (p : Progress) (next : Progress → Except Stop Progress) :
    Except Stop Progress :=
  match p.settle with
  | .ok q => next q
  | .error error => .error (.fault error)

/-- Raises a flag. -/
def raise (p : Progress) (flag : Flag) : Except Stop Progress :=
  p.settled fun q =>
    match flag with
    | .tree =>
      if q.showTree then .error (.fault (.repeatedFlag .tree))
      else .ok { q with showTree := true }
    | .verbose =>
      if q.verbose then .error (.fault (.repeatedFlag .verbose))
      else .ok { q with verbose := true }
    | .version => .error (.inform .version)
    | .help => .error (.inform .help)

/-- Raises the flags of a group of letters, from left to right. -/
def raiseAll (p : Progress) : List Char → Except Stop Progress
  | [] => .ok p
  | letter :: rest =>
    match flags.find? fun flag => flag.letter == letter with
    | some flag =>
      match p.raise flag with
      | .ok q => q.raiseAll rest
      | .error stop => .error stop
    | none =>
      .error (.fault (.unexpectedArgument (String.ofList ['-', letter])))

/-- Takes an option that is spelled out, with the value attached to it. -/
def takeLong (p : Progress) (name : String) (attached : Option String) :
    Except Stop Progress :=
  match flags.find? fun flag => flag.name == name with
  | some flag =>
    match attached with
    | none => p.raise flag
    | some value => .error (.fault (.unexpectedValue flag value))
  | none =>
    match settings.find? fun setting => setting.name == name with
    | none => .error (.fault (.unexpectedArgument name))
    | some setting =>
      p.settled fun q =>
        match attached with
        | none => .ok { q with pending := some (setting, none) }
        | some value =>
          match q.apply setting value with
          | .ok made => .ok made
          | .error error => .error (.fault error)

/-- Takes an argument that is no option and no value: the expression, of which
there is one. -/
def takeExpression (p : Progress) (text : String) : Except Stop Progress :=
  if p.expression.isSome then .error (.fault (.unexpectedArgument text))
  else p.settled fun q => .ok { q with expression := some text }

/-- Takes an argument that stands before any double dash. -/
def take (p : Progress) (argument : String) : Except Stop Progress :=
  match argument.toList with
  | '-' :: '-' :: cs =>
    let name := String.ofList ('-' :: '-' :: cs.takeWhile (· ≠ '='))
    match cs.dropWhile (· ≠ '=') with
    | [] => p.takeLong name none
    | _ :: value => p.takeLong name (some (String.ofList value))
  | '-' :: letter :: letters => p.raiseAll (letter :: letters)
  | _ =>
    match p.pending with
    | some (setting, none) =>
      .ok { p with pending := some (setting, some argument) }
    | _ => p.takeExpression argument

/-- Takes arguments after a double dash. -/
def takeExpressions (p : Progress) : List String → Except Stop Progress
  | [] => .ok p
  | argument :: rest =>
    match p.takeExpression argument with
    | .ok q => q.takeExpressions rest
    | .error stop => .error stop

/-- Takes all arguments. -/
def takeAll (p : Progress) : List String → Except Stop Progress
  | [] => .ok p
  | argument :: rest =>
    if argument = "--" then p.takeExpressions rest
    else
      match p.take argument with
      | .ok q => q.takeAll rest
      | .error stop => .error stop

/-- The arguments, if nothing is missing. -/
def finish (p : Progress) : Except UsageError Arguments :=
  match p.expression, p.decimal, p.group with
  | some expression, some decimal, some group =>
    .ok { expression, decimal, group, bindings := p.bindings
          showTree := p.showTree, verbose := p.verbose }
  | some expression, none, none =>
    .ok { expression, bindings := p.bindings
          showTree := p.showTree, verbose := p.verbose }
  | _, _, _ => .error .incomplete

end Progress

/-- Reads a command line. -/
def Request.ofArguments (arguments : List String) :
    Except UsageError Request :=
  match Progress.takeAll {} arguments with
  | .error (.fault error) => .error error
  | .error (.inform request) => .ok request
  | .ok progress =>
    match progress.settle with
    | .error error => .error error
    | .ok settled => settled.finish.map .calculation

end Formulary.CommandLine
