import Formulary.Proofs.Calculator.Change
import Formulary.Session

/-!
# The history of a session

A session is looked at through three questions: which cell a calculator has
under a name, which value it knows for the name, and which tree it keeps.  A
command changes at most one calculator, and in no other way than
`Calculator.Change` allows.

A tree can be taken from a calculator at any time while it is there, so what is
said of such trees is said of all that were there up to now.  Each of them goes
back to a command that compiled the calculator's expression.

* `Session.step_change` is all that a command can do to calculators, and
  `Session.kept_step` all that it can do to the shelf;
* `Session.Offered` says that a tree could have been taken, and
  `Session.Compiled` which formula was compiled, and with which functions;
* `Session.compiled_of_offered` is where trees come from.
-/

namespace Formulary.Session

/-- The session of calculators that have been set up and told nothing yet, on a
memory with whatever cells. -/
def ofConfigurations (configs : List Configuration) (m : Memory) : Session where
  memory := m
  calculators := configs.map Calculator.ofConfiguration

/-- The cell that a calculator has under a name. -/
def cell? (s : Session) (index : Nat) (name : String) : Option Cell :=
  s.calculators[index]?.bind fun c => c.store.find? name

/-- The value that a calculator knows for a name. -/
def value? (s : Session) (index : Nat) (name : String) : Option Float :=
  s.calculators[index]?.bind fun c => c.get? s.memory name

/-- The tree that a calculator keeps. -/
def tree? (s : Session) (index : Nat) : Option BoundTree :=
  s.calculators[index]?.bind Calculator.tree

/-- The commands that compile where it is needed. -/
def Command.Compiles : Command → Prop
  | .compile | .calculate => True
  | _ => False

/-- The tree was there in one of the calculators at some time before the end of
the commands, and could be taken. -/
def Offered (s : Session) (commands : List (Nat × Command)) (index : Nat)
    (tree : BoundTree) : Prop :=
  ∃ before after, commands = before ++ after ∧
    (s.run before).tree? index = some tree

/-- One of the commands compiled the formula: it is what the expression of the
calculator meant at that time, with the functions that were registered then. -/
def Compiled (s : Session) (commands : List (Nat × Command)) (index : Nat)
    (formula : Formula) : Prop :=
  ∃ before command after c, commands = before ++ (index, command) :: after ∧
    command.Compiles ∧ (s.run before).calculators[index]? = some c ∧
    c.dialect.formula? c.expression = .ok formula

@[simp]
theorem run_nil (s : Session) : s.run [] = s := rfl

@[simp]
theorem run_cons (s : Session) (index : Nat) (command : Command)
    (commands : List (Nat × Command)) :
    s.run ((index, command) :: commands) =
      (s.step index command).2.run commands := rfl

theorem run_append (s : Session) (before after : List (Nat × Command)) :
    s.run (before ++ after) = (s.run before).run after :=
  List.foldl_append

variable {s : Session} {index : Nat} {command : Command}

theorem cell?_of_getElem? {c : Calculator}
    (h : s.calculators[index]? = some c) (name : String) :
    s.cell? index name = c.store.find? name := by
  rw [cell?, h, Option.bind_some]

theorem value?_of_getElem? {c : Calculator}
    (h : s.calculators[index]? = some c) (name : String) :
    s.value? index name = (c.scope s.memory).get? name := by
  rw [value?, h, Option.bind_some, Calculator.get?]

theorem tree?_of_getElem? {c : Calculator}
    (h : s.calculators[index]? = some c) : s.tree? index = c.tree := by
  rw [tree?, h, Option.bind_some]

/-- What a calculator knows for a name is in the cell that it has under it. -/
theorem value?_eq (s : Session) (index : Nat) (name : String) :
    s.value? index name = (s.cell? index name).map s.memory.read := by
  rw [value?, cell?]
  cases s.calculators[index]? <;> rfl

/-- A command leaves the calculators and the memory as they are, or something
happens to the one calculator that it is for. -/
theorem step_change (s : Session) (index : Nat) (command : Command) :
    (s.step index command).2.calculators = s.calculators ∧
        (s.step index command).2.memory = s.memory ∨
      ∃ c next memory, s.calculators[index]? = some c ∧
        Calculator.Change command.Compiles c s.memory next memory ∧
        (s.step index command).2 = s.update index next memory := by
  rw [step]
  cases hc : s.calculators[index]? with
  | none => exact Or.inl ⟨rfl, rfl⟩
  | some c =>
    cases command with
    | setExpression text =>
      exact Or.inr ⟨c, _, _, rfl, c.setExpression_change s.memory text, rfl⟩
    | setVariable name value =>
      exact Or.inr ⟨c, _, _, rfl, c.setVariable_change s.memory name value, rfl⟩
    | addFunction name function =>
      exact Or.inr ⟨c, _, _, rfl, c.addFunction_change s.memory name function, rfl⟩
    | compile => exact Or.inr ⟨c, _, _, rfl, c.compile_change s.memory, rfl⟩
    | calculate => exact Or.inr ⟨c, _, _, rfl, c.calculate_change s.memory, rfl⟩
    | valueOf name => exact Or.inl ⟨rfl, rfl⟩
    | hasFunction name => exact Or.inl ⟨rfl, rfl⟩
    | expression => exact Or.inl ⟨rfl, rfl⟩
    | convention => exact Or.inl ⟨rfl, rfl⟩
    | tree =>
      simp only [perform]
      cases c.tree <;> exact Or.inl ⟨rfl, rfl⟩
    | keepTree slot =>
      simp only [perform]
      cases c.tree <;> exact Or.inl ⟨rfl, rfl⟩
    | evalKept slot =>
      simp only [perform]
      cases s.kept.find? slot <;> exact Or.inl ⟨rfl, rfl⟩

/-- A tree on the shelf was there before the command, or it is the tree of the
calculator that the command is for. -/
theorem kept_step {slot : String} {tree : BoundTree}
    (h : (s.step index command).2.kept.find? slot = some tree) :
    s.kept.find? slot = some tree ∨ s.tree? index = some tree := by
  rw [step] at h
  cases hc : s.calculators[index]? with
  | none =>
    rw [hc] at h
    exact Or.inl h
  | some c =>
    rw [tree?_of_getElem? hc]
    simp only [hc] at h
    cases command with
    | keepTree other =>
      simp only [perform] at h
      cases htree : c.tree with
      | none =>
        simp only [htree] at h
        exact Or.inl h
      | some kept =>
        simp only [htree, Dictionary.find?_insert] at h
        split at h
        · exact Or.inr h
        · exact Or.inl h
    | tree =>
      simp only [perform] at h
      cases htree : c.tree <;> simp only [htree] at h <;> exact Or.inl h
    | evalKept other =>
      simp only [perform] at h
      cases hkept : s.kept.find? other <;> simp only [hkept] at h <;>
        exact Or.inl h
    | setExpression | setVariable | addFunction | compile | calculate | valueOf
    | hasFunction | expression | convention => exact Or.inl h

/-- The calculators of an updated session. -/
theorem getElem?_update {c : Calculator} (h : s.calculators[index]? = some c)
    (next : Calculator) (memory : Memory) (other : Nat) :
    (s.update index next memory).calculators[other]? =
      if other = index then some next else s.calculators[other]? := by
  obtain ⟨hlt, -⟩ := List.getElem?_eq_some_iff.mp h
  simp only [update, List.getElem?_set]
  by_cases heq : other = index
  · rw [if_pos heq.symm, if_pos heq, if_pos hlt]
  · rw [if_neg (Ne.symm heq), if_neg heq]

/-- A tree was there before a command, or the command has compiled it. -/
theorem tree?_step {other : Nat} {tree : BoundTree}
    (h : (s.step index command).2.tree? other = some tree) :
    s.tree? other = some tree ∨ other = index ∧ command.Compiles ∧
      ∃ c, s.calculators[index]? = some c ∧
        c.dialect.formula? c.expression = .ok (tree.map Variable.name) := by
  rcases s.step_change index command with
    ⟨hsame, -⟩ | ⟨c, next, memory, hc, hchange, hnext⟩
  · rw [tree?, hsame] at h
    exact Or.inl h
  · rw [hnext, tree?, getElem?_update hc] at h
    by_cases heq : other = index
    · rw [if_pos heq, Option.bind_some] at h
      rcases hchange.tree tree h with hold | ⟨hcompiles, formula, hformula, -, rfl⟩
      · rw [heq, tree?_of_getElem? hc]
        exact Or.inl hold
      · refine Or.inr ⟨heq, hcompiles, c, hc, ?_⟩
        rw [Scope.names_bind, hformula]
    · rw [if_neg heq] at h
      exact Or.inl h

/-- A tree at the end of the commands was there at their start, or one of them
has compiled it. -/
theorem compiled_of_tree?_run {commands : List (Nat × Command)} {other : Nat}
    {tree : BoundTree} (h : (s.run commands).tree? other = some tree) :
    s.tree? other = some tree ∨
      s.Compiled commands other (tree.map Variable.name) := by
  induction commands generalizing s with
  | nil => exact Or.inl h
  | cons entry commands ih =>
    obtain ⟨index, command⟩ := entry
    rcases ih h with hnext | ⟨before, late, after, c, rfl, hcompiles, hc, hformula⟩
    · rcases tree?_step hnext with hold | ⟨rfl, hcompiles, c, hc, hformula⟩
      · exact Or.inl hold
      · exact Or.inr ⟨[], command, commands, c, rfl, hcompiles, hc, hformula⟩
    · exact Or.inr ⟨(index, command) :: before, late, after, c, rfl, hcompiles, hc,
        hformula⟩

/-- What the first commands compiled is compiled by all of them. -/
theorem Compiled.append {before : List (Nat × Command)} {formula : Formula}
    (h : s.Compiled before index formula) (after : List (Nat × Command)) :
    s.Compiled (before ++ after) index formula := by
  obtain ⟨early, command, late, c, rfl, hcompiles, hc, hformula⟩ := h
  exact ⟨early, command, late ++ after, c, by simp, hcompiles, hc, hformula⟩

variable {configs : List Configuration} {m : Memory}
  {commands : List (Nat × Command)}

/-- No tree is there at the start. -/
theorem tree?_ofConfigurations (configs : List Configuration) (m : Memory)
    (index : Nat) : (ofConfigurations configs m).tree? index = none := by
  rw [tree?, ofConfigurations, List.getElem?_map]
  cases configs[index]? <;> rfl

/-- **Where trees come from.**  Every tree that could ever be taken from a
calculator is what one of the commands compiled. -/
theorem compiled_of_offered {tree : BoundTree}
    (h : (ofConfigurations configs m).Offered commands index tree) :
    (ofConfigurations configs m).Compiled commands index
      (tree.map Variable.name) := by
  obtain ⟨before, after, rfl, htree⟩ := h
  rcases compiled_of_tree?_run htree with hstart | hcompiled
  · rw [tree?_ofConfigurations] at hstart
    cases hstart
  · exact hcompiled.append after

/-- What is there now could be taken. -/
theorem offered_of_tree? {tree : BoundTree}
    (h : (s.run commands).tree? index = some tree) :
    s.Offered commands index tree :=
  ⟨commands, [], (List.append_nil _).symm, h⟩

/-- A tree on the shelf was there at the start, or it was taken from a
calculator. -/
private theorem offered_of_kept_run {slot : String} {tree : BoundTree}
    (h : (s.run commands).kept.find? slot = some tree) :
    s.kept.find? slot = some tree ∨ ∃ index, s.Offered commands index tree := by
  induction commands generalizing s with
  | nil => exact Or.inl h
  | cons entry commands ih =>
    obtain ⟨index, command⟩ := entry
    rcases ih h with hnext | ⟨other, before, after, rfl, htree⟩
    · rcases kept_step hnext with hold | htree
      · exact Or.inl hold
      · exact Or.inr ⟨index, [], (index, command) :: commands, rfl, htree⟩
    · exact Or.inr ⟨other, (index, command) :: before, after, rfl, htree⟩

/-- Every tree on the shelf was taken from a calculator. -/
theorem offered_of_kept {slot : String} {tree : BoundTree}
    (h : ((ofConfigurations configs m).run commands).kept.find? slot = some tree) :
    ∃ index, (ofConfigurations configs m).Offered commands index tree := by
  rcases offered_of_kept_run h with hstart | hoffered
  · cases hstart
  · exact hoffered

end Formulary.Session
