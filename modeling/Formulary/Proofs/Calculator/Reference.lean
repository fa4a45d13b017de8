import Formulary.Calculator

/-!
# A calculator without cells and trees

The reference keeps a text, a value for every name and a function table, and
reads the text anew whenever it is asked for its value.  What is left of a
compilation is a snapshot: the function table that the text was read with.  A
calculation reads with the snapshot where there is one, and with the current
table otherwise.

Requests are answered by a calculator on its memory and by the reference alike.

* `Calculator.respond` and `Reference.respond` answer one request;
* `serve` answers a list of them.
-/

namespace Formulary

/-- The formula that a text writes, or its leftmost fault. -/
def Dialect.formula? (d : Dialect) (text : String) :
    Except CompileError Formula :=
  match d.convention.tokenize text with
  | .ok tokens => (d.parse tokens).result
  | .error error => .error error

/-- What a calculator is asked to do. -/
inductive Request where
  | setExpression (text : String)
  | setVariable (name : String) (value : Float)
  | addFunction (name : String) (function : Callable)
  | compile
  | calculate

/-- What it answers. -/
inductive Response where
  | done
  | compiled (result : Except CompileError Unit)
  | calculated (result : Except CalculationError Float)

/-- Answers requests one after the other, and ends in a state. -/
def serve {σ : Type} (respond : σ → Request → Response × σ) (start : σ) :
    List Request → List Response × σ
  | [] => ([], start)
  | request :: requests =>
    let (response, next) := respond start request
    let (responses, last) := serve respond next requests
    (response :: responses, last)

/-- How a calculator is set up. -/
structure Configuration where
  expression : String := ""
  convention : Convention := .invariant
  /-- Whether the built-in functions are there from the start. -/
  standardFunctions : Bool := true

/-- The functions that a calculator starts with. -/
def Configuration.functions (config : Configuration) : FunctionTable :=
  if config.standardFunctions then .standard else .empty

namespace Calculator

/-- The calculator that is set up so. -/
def ofConfiguration (config : Configuration) : Calculator where
  expression := config.expression
  convention := config.convention
  functions := config.functions

/-- A calculator with its memory answers a request. -/
def respond : Calculator × Memory → Request → Response × Calculator × Memory
  | (c, m), .setExpression text => (.done, c.setExpression text, m)
  | (c, m), .setVariable name value => (.done, c.setVariable m name value)
  | (c, m), .addFunction name function => (.done, c.addFunction name function, m)
  | (c, m), .compile =>
    let (result, next) := c.compile m
    (.compiled result, next)
  | (c, m), .calculate =>
    let (result, next) := c.calculate m
    (.calculated result, next)

end Calculator

/-- What a calculator amounts to when nothing is kept but what was given. -/
structure Reference where
  text : String
  convention : Convention
  /-- The values of the variables, zero where none was given. -/
  values : String → Float
  functions : FunctionTable
  /-- The functions that the text was compiled with, once it was. -/
  snapshot : Option FunctionTable

namespace Reference

/-- The reference that is set up so. -/
def ofConfiguration (config : Configuration) : Reference where
  text := config.expression
  convention := config.convention
  values := fun _ => 0.0
  functions := config.functions
  snapshot := none

/-- The formula that the text writes with the functions of a table. -/
def formula? (r : Reference) (table : FunctionTable) :
    Except CompileError Formula :=
  Dialect.formula? { convention := r.convention, functions := table } r.text

/-- The value of a formula under the current values. -/
def valueOf (r : Reference) (formula : Formula) :
    Except CalculationError Float :=
  match formula.eval r.values with
  | some value => .ok value
  | none => .error .wrongCall

/-- The reference answers a request. -/
def respond (r : Reference) : Request → Response × Reference
  | .setExpression text => (.done, { r with text, snapshot := none })
  | .setVariable name value =>
    (.done, { r with
      values := fun other => if other = name then value else r.values other })
  | .addFunction name function =>
    (.done, { r with functions := r.functions.insert name function })
  | .compile =>
    match r.formula? r.functions with
    | .ok _ => (.compiled (.ok ()), { r with snapshot := some r.functions })
    | .error error => (.compiled (.error error), { r with snapshot := none })
  | .calculate =>
    let table := r.snapshot.getD r.functions
    match r.formula? table with
    | .ok formula =>
      (.calculated (r.valueOf formula), { r with snapshot := some table })
    | .error error => (.calculated (.error (.uncompiled error)), r)

end Reference

end Formulary
