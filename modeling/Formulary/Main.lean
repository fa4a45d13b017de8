import Formulary.CommandLine.Report

/-!
# The program

Writes the report of a run and ends with its code.  The log has no times.
-/

def main (arguments : List String) : IO UInt32 := do
  let report := Formulary.CommandLine.run arguments .plain
  IO.print report.stdout
  IO.eprint report.stderr
  return report.code.toUInt32
