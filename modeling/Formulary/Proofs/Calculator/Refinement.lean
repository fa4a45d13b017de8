import Formulary.Proofs.Calculator.Reference
import Formulary.Proofs.Grammar.Exactness
import Formulary.Proofs.Scope

/-!
# Calculators refine the reference

A calculator and the reference that were set up alike give the same answers for
ever.  The invariant `Refines` ties the two: the calculator's variables have
the values of the reference, and its tree is what the text still means with the
functions of the snapshot, each variable with the cell that its name has now.
The tree survives whatever happens in between, since no request moves a cell
and only a new text or a compilation replaces the snapshot.

* `Scope.compile_of_ok` and `Scope.compile_of_error` are all that a compilation
  can do;
* `Refines.respond` is one request;
* `serve_ofConfiguration` is a whole run.
-/

namespace Formulary

/-- A text writes the formula that its tokens derive. -/
theorem Dialect.formula?_eq_ok_iff {d : Dialect} {text : String}
    {formula : Formula} :
    d.formula? text = .ok formula ↔
      ∃ tokens, d.convention.tokenize text = .ok tokens ∧
        Derives d (.chain .relational) tokens formula := by
  rw [formula?]
  cases htokens : d.convention.tokenize text with
  | error error => simp
  | ok tokens =>
    simp only [Except.ok.injEq, exists_eq_left']
    constructor
    · intro h
      have hparse : d.parse tokens =
          ⟨.ok formula, (d.parse tokens).rest, (d.parse tokens).mentions⟩ := by
        rw [← h]
      exact (parse_derives hparse).1
    · intro h
      rw [h.parse_eq]

/-- The variables of a text that compiles are declared, and its formula is
bound to their cells. -/
theorem Scope.compile_of_ok {d : Dialect} {text : String} {formula : Formula}
    (s : Scope) (h : d.formula? text = .ok formula) :
    s.compile d text = (.ok ((s.declareAll formula.leaves).bind formula),
      s.declareAll formula.leaves) := by
  obtain ⟨tokens, htokens, hderives⟩ := Dialect.formula?_eq_ok_iff.mp h
  exact s.compile_of_derives htokens hderives

/-- A text that does not compile leaves its fault and perhaps some declared
variables. -/
theorem Scope.compile_of_error {d : Dialect} {text : String}
    {error : CompileError} (s : Scope) (h : d.formula? text = .error error) :
    ∃ names, s.compile d text = (.error error, s.declareAll names) := by
  rw [Dialect.formula?] at h
  cases htokens : d.convention.tokenize text with
  | error fault =>
    simp only [htokens, Except.error.injEq] at h
    subst h
    refine ⟨[], ?_⟩
    rw [compile, htokens]
    rfl
  | ok tokens =>
    simp only [htokens] at h
    refine ⟨(d.parse tokens).mentions, ?_⟩
    simp only [compile, htokens, compileTokens, adopt, h]
    rfl

/-- A tree in the scope and a snapshot of the reference stand for the same
formula, and its variables have been declared. -/
inductive Caches (s : Scope) (r : Reference) :
    Option BoundTree → Option FunctionTable → Prop where
  | empty : Caches s r none none
  | full {formula : Formula} {table : FunctionTable}
      (reads : r.formula? table = .ok formula)
      (declared : ∀ name ∈ formula.leaves, s.store.contains name) :
      Caches s r (some (s.bind formula)) (some table)

/-- Nothing is lost in a scope that keeps every cell. -/
theorem Caches.of_kept {s other : Scope} {r next : Reference}
    {tree : Option BoundTree} {snapshot : Option FunctionTable}
    (h : Caches s r tree snapshot)
    (hkept : ∀ {name cell}, s.store.find? name = some cell →
      other.store.find? name = some cell)
    (hreads : next.formula? = r.formula?) : Caches other next tree snapshot := by
  cases h with
  | empty => exact .empty
  | full reads declared =>
    rw [← Scope.bind_congr declared hkept]
    refine .full (hreads ▸ reads) fun name hname => ?_
    obtain ⟨cell, hcell⟩ := Scope.contains_iff.mp (declared name hname)
    exact Scope.contains_iff.mpr ⟨cell, hkept hcell⟩

/-- The calculator on its memory is in a state that the reference stands
for. -/
structure Refines (state : Calculator × Memory) (r : Reference) : Prop where
  text : state.1.expression = r.text
  convention : state.1.convention = r.convention
  functions : state.1.functions = r.functions
  sound : (state.1.scope state.2).Sound
  values : ∀ name, (state.1.scope state.2).value name = r.values name
  caches : Caches (state.1.scope state.2) r state.1.tree r.snapshot

namespace Refines

variable {c : Calculator} {m : Memory} {r : Reference}

/-- The text means the same to both with the current functions. -/
theorem formula?_eq (h : Refines (c, m) r) :
    c.dialect.formula? c.expression = r.formula? r.functions := by
  rw [Reference.formula?, ← h.text, ← h.convention, ← h.functions]
  rfl

/-- Both give a bound formula the same value. -/
theorem valueOf_bind {s : Scope} {formula : Formula}
    (hvalues : ∀ name, s.value name = r.values name)
    (hdeclared : ∀ name ∈ formula.leaves, s.store.contains name) :
    Calculator.valueOf s.memory (s.bind formula) = r.valueOf formula := by
  have hsame : s.value = r.values := funext hvalues
  have heval : s.memory.eval (s.bind formula) = formula.eval r.values := by
    rw [Scope.eval_bind hdeclared, hsame]
  cases hvalue : formula.eval r.values with
  | none =>
    simp only [Calculator.valueOf, Reference.valueOf, heval, hvalue]
  | some value =>
    simp only [Calculator.valueOf, Reference.valueOf, heval, hvalue]

/-- A state that declares more names, and caches what a snapshot stands for, is
one of the reference with that snapshot. -/
theorem declareAll (h : Refines (c, m) r) (names : List String)
    {tree : Option BoundTree} {snapshot : Option FunctionTable}
    (hcaches : Caches ((c.scope m).declareAll names) r tree snapshot) :
    Refines
      ({ c with store := ((c.scope m).declareAll names).store, tree },
        ((c.scope m).declareAll names).memory)
      { r with snapshot } where
  text := h.text
  convention := h.convention
  functions := h.functions
  sound := h.sound.declareAll names
  values name := (Scope.value_declareAll h.sound names name).trans (h.values name)
  caches := hcaches.of_kept (fun hcell => hcell) rfl

/-- What a text that compiles is cached as. -/
theorem caches_of_ok {formula : Formula} {table : FunctionTable} (s : Scope)
    (h : r.formula? table = .ok formula) :
    Caches (s.declareAll formula.leaves) r
      (some ((s.declareAll formula.leaves).bind formula)) (some table) :=
  .full h fun _ hname => Scope.contains_declareAll hname

theorem setExpression (h : Refines (c, m) r) (text : String) :
    Refines (c.setExpression text, m) { r with text, snapshot := none } where
  text := rfl
  convention := h.convention
  functions := h.functions
  sound := h.sound
  values := h.values
  caches := .empty

theorem setVariable (h : Refines (c, m) r) (name : String) (value : Float) :
    Refines (c.setVariable m name value)
      { r with values := fun other =>
          if other = name then value else r.values other } where
  text := h.text
  convention := h.convention
  functions := h.functions
  sound := h.sound.set name value
  values other := by
    show ((c.scope m).set name value).value other =
      if other = name then value else r.values other
    rw [Scope.value_set h.sound, h.values other]
  caches := h.caches.of_kept Scope.find?_declare_of_find? rfl

theorem addFunction (h : Refines (c, m) r) (name : String)
    (function : Callable) :
    Refines (c.addFunction name function, m)
      { r with functions := r.functions.insert name function } where
  text := h.text
  convention := h.convention
  functions := by
    rw [← h.functions]
    rfl
  sound := h.sound
  values := h.values
  caches := h.caches.of_kept (fun hcell => hcell) rfl

/-- Compiling answers alike and ends in states that agree. -/
theorem compile (h : Refines (c, m) r) :
    (Calculator.respond (c, m) .compile).1 = (r.respond .compile).1 ∧
      Refines (Calculator.respond (c, m) .compile).2 (r.respond .compile).2 := by
  have hformula := h.formula?_eq
  cases hread : r.formula? r.functions with
  | ok formula =>
    have hcompile := (c.scope m).compile_of_ok (hformula.trans hread)
    simp only [Calculator.respond, Calculator.compile, Calculator.buildTree,
      hcompile, Reference.respond, hread]
    exact ⟨trivial, h.declareAll _ (caches_of_ok _ hread)⟩
  | error error =>
    obtain ⟨names, hcompile⟩ :=
      (c.scope m).compile_of_error (hformula.trans hread)
    simp only [Calculator.respond, Calculator.compile, Calculator.buildTree,
      hcompile, Reference.respond, hread]
    exact ⟨trivial, h.declareAll names .empty⟩

/-- Calculating answers alike and ends in states that agree. -/
theorem calculate (h : Refines (c, m) r) :
    (Calculator.respond (c, m) .calculate).1 = (r.respond .calculate).1 ∧
      Refines (Calculator.respond (c, m) .calculate).2
        (r.respond .calculate).2 := by
  have hcaches : Caches (c.scope m) r c.tree r.snapshot := h.caches
  generalize htree : c.tree = tree at hcaches
  generalize hsnapshot : r.snapshot = snapshot at hcaches
  cases hcaches with
  | full reads declared =>
    simp only [Calculator.respond, Calculator.calculate, htree,
      Reference.respond, hsnapshot, Option.getD_some, reads]
    refine ⟨?_, { h with caches := ?_ }⟩
    · exact congrArg _ (valueOf_bind h.values declared)
    · rw [htree]
      exact .full reads declared
  | empty =>
    have hformula := h.formula?_eq
    cases hread : r.formula? r.functions with
    | ok formula =>
      have hcompile := (c.scope m).compile_of_ok (hformula.trans hread)
      have hnext := h.declareAll _ (caches_of_ok (c.scope m) hread)
      simp only [Calculator.respond, Calculator.calculate, htree,
        Calculator.buildTree, hcompile, Reference.respond, hsnapshot,
        Option.getD_none, hread]
      refine ⟨?_, hnext⟩
      exact congrArg _ (valueOf_bind hnext.values fun _ hname =>
        Scope.contains_declareAll hname)
    | error error =>
      obtain ⟨names, hcompile⟩ :=
        (c.scope m).compile_of_error (hformula.trans hread)
      simp only [Calculator.respond, Calculator.calculate, htree,
        Calculator.buildTree, hcompile, Reference.respond, hsnapshot,
        Option.getD_none, hread]
      refine ⟨trivial, ?_⟩
      have hnext := h.declareAll names .empty
      rw [← hsnapshot] at hnext
      exact hnext

/-- **One request.**  The two answer alike and go on in states that agree. -/
theorem respond (h : Refines (c, m) r) (request : Request) :
    (Calculator.respond (c, m) request).1 = (r.respond request).1 ∧
      Refines (Calculator.respond (c, m) request).2 (r.respond request).2 := by
  cases request with
  | setExpression text => exact ⟨rfl, h.setExpression text⟩
  | setVariable name value => exact ⟨rfl, h.setVariable name value⟩
  | addFunction name function => exact ⟨rfl, h.addFunction name function⟩
  | compile => exact h.compile
  | calculate => exact h.calculate

/-- **Many requests.**  The two answer alike for ever. -/
theorem serve {state : Calculator × Memory} (h : Refines state r)
    (requests : List Request) :
    (Formulary.serve Calculator.respond state requests).1 =
        (Formulary.serve Reference.respond r requests).1 ∧
      Refines (Formulary.serve Calculator.respond state requests).2
        (Formulary.serve Reference.respond r requests).2 := by
  induction requests generalizing state r with
  | nil => exact ⟨rfl, h⟩
  | cons request requests ih =>
    obtain ⟨hanswer, hnext⟩ := h.respond request
    obtain ⟨hanswers, hlast⟩ := ih hnext
    simp only [Formulary.serve, hanswer, hanswers]
    exact ⟨trivial, hlast⟩

/-- A calculator that has been set up has neither variables nor a tree. -/
theorem ofConfiguration (config : Configuration) (m : Memory) :
    Refines (Calculator.ofConfiguration config, m)
      (Reference.ofConfiguration config) where
  text := rfl
  convention := rfl
  functions := rfl
  sound := by
    constructor <;> intros <;> contradiction
  values _ := rfl
  caches := .empty

/-- There is a tree exactly where there is a snapshot. -/
theorem isCompiled_eq {state : Calculator × Memory} (h : Refines state r) :
    state.1.isCompiled = r.snapshot.isSome := by
  have hcaches := h.caches
  rw [Calculator.isCompiled]
  generalize state.1.tree = tree at hcaches
  generalize r.snapshot = snapshot at hcaches
  cases hcaches <;> rfl

end Refines

/-- **A calculator is its reference.**  Whatever the configuration, the memory
and the requests, a calculator answers every request as the reference does.
After them it has been compiled exactly if the reference has a snapshot, and
its variables have the values of the reference. -/
theorem serve_ofConfiguration (config : Configuration) (m : Memory)
    (requests : List Request) :
    let served :=
      serve Calculator.respond (Calculator.ofConfiguration config, m) requests
    let modelled :=
      serve Reference.respond (Reference.ofConfiguration config) requests
    served.1 = modelled.1 ∧
      served.2.1.isCompiled = modelled.2.snapshot.isSome ∧
      ∀ name, (served.2.1.get? served.2.2 name).getD 0.0 =
        modelled.2.values name := by
  have h := Refines.ofConfiguration config m
  obtain ⟨hanswers, hlast⟩ := h.serve requests
  exact ⟨hanswers, hlast.isCompiled_eq, hlast.values⟩

end Formulary
