import Formulary.CommandLine.Arguments
import Formulary.Log

/-!
# Running the command line

A run reads the arguments, makes the convention, assigns the variables in their
order, compiles the expression, and writes its value.  What can fail are these
steps in this order, and each failure has a report of its own.  A verbose run
writes its log where messages go, before any message.

* `Arguments.run` is the run for arguments that have been read;
* `run` is the run for a command line.
-/

namespace Formulary.CommandLine

/-- What a run of the program leaves behind. -/
structure Report where
  code : Nat
  stdout : String := ""
  stderr : String := ""
deriving DecidableEq

namespace Report

/-- The report of a run that has done its work. -/
def success (lines : List String) : Report where
  code := 0
  stdout := String.join (lines.map (· ++ "\n"))

/-- The report of a run that has failed in its work. -/
def failure (message : String) : Report where
  code := 1
  stderr := message ++ "\n"

/-- The report of a run that could not start. -/
def misuse (error : UsageError) : Report where
  code := 2
  stderr := error.message ++ "\n"

/-- The report with the text of a log before its message. -/
def logging (report : Report) (text : String) : Report :=
  { report with stderr := text ++ report.stderr }

end Report

namespace Arguments

/-- Assigns the bindings from left to right. -/
def assign (bindings : List Binding) (c : Calculator) (m : Memory) :
    Calculator × Memory :=
  bindings.foldl (fun (c, m) b => c.setVariable m b.name b.value) (c, m)

/-- What is written of the events: nothing unless the run is verbose. -/
def logged (arguments : Arguments) (log : Log) (events : List Event) : String :=
  if arguments.verbose then log.text events else ""

/-- Compiles the expression under a convention and writes its value, after the
tree if that was asked for. -/
def runUnder (arguments : Arguments) (log : Log) (convention : Convention) :
    Report :=
  let fresh : Calculator :=
    { expression := arguments.expression, convention }
  let (assigned, memory) := assign arguments.bindings fresh .empty
  let events := assigned.compileEvents memory
  match assigned.compile memory with
  | (.error error, _, _) =>
    (Report.failure error.message).logging (arguments.logged log events)
  | (.ok (), compiled, memory) =>
    let tree := if arguments.showTree then
        compiled.tree.toList.map BoundTree.text
      else []
    let events := events ++ compiled.calculateEvents memory
    let report : Report := match (compiled.calculate memory).1 with
      | .ok value => .success (tree ++ [Binary64.text value])
      | .error error =>
        { Report.failure (error.message) with
          stdout := (Report.success tree).stdout }
    report.logging (arguments.logged log events)

/-- The run for arguments that have been read. -/
def run (arguments : Arguments) (log : Log) : Report :=
  match Convention.ofSeparators arguments.decimal arguments.group with
  | .ok convention => arguments.runUnder log convention
  | .error error => .failure error.message

end Arguments

/-- The name and version of the program. -/
def versionLine : String := "equate 0.1.0"

/-- A line about an option: its letter if it has one, how it is spelled out, and
what it does. -/
def optionLine (letter : Option Char) (usage description : String) : String :=
  let short := match letter with
    | some c => "  -" ++ c.toString ++ ", "
    | none => "      "
  let width := Setting.decimal.usage.length + 2
  short ++ usage ++ String.ofList (List.replicate (width - usage.length) ' ') ++
    description

/-- What the program is for, in the words of its package, and how it is called. -/
def helpLines : List String :=
  ["Compiles arithmetic and boolean formulas into reusable evaluation trees " ++
     "bound to named variables.",
   "",
   "Usage: equate [OPTIONS] <EXPRESSION>",
   "",
   "Arguments:",
   "  <EXPRESSION>  The formula to evaluate. Function arguments are separated by `;`",
   "",
   "Options:"] ++
  settings.map (fun setting => optionLine none setting.usage setting.description) ++
  flags.map fun flag => optionLine (some flag.letter) flag.name flag.description

/-- The run for a command line. -/
def run (arguments : List String) (log : Log := .silent) : Report :=
  match Request.ofArguments arguments with
  | .error error => .misuse error
  | .ok .version => .success [versionLine]
  | .ok .help => .success helpLines
  | .ok (.calculation arguments) => arguments.run log

end Formulary.CommandLine
