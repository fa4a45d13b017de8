import Formulary.Proofs.Session.History

/-!
# Coherence of cells

The calculators of a session lie on one memory, and the trees that are taken
from them outlive everything that they were compiled from.  Still no variable is
ever mixed up with another: every name of every calculator has a cell of its
own, the cell stays the same for ever, and a tree has the cells of the calculator
that it was taken from.

The invariant is `Coherent`.  It speaks of the trees that are there; a tree that
was there once is covered because its calculator keeps every cell.

* `Coherent.step` and `Coherent.run` keep the invariant;
* `cell?_run` keeps the cells;
* `value?_setVariable` is the frame of an assignment;
* `Coherent.eval_eq` evaluates a tree from the values of a calculator;
* `cells_coherent` puts them together for whole sessions.
-/

namespace Formulary.Session

/-- Every name of every calculator has a cell of its own, and the trees have the
cells of their calculators. -/
structure Coherent (s : Session) : Prop where
  sound : ∀ {index : Nat} {c : Calculator}, s.calculators[index]? = some c →
    (c.scope s.memory).Sound
  apart : ∀ {index other : Nat} {name another : String} {cell : Cell},
    s.cell? index name = some cell → s.cell? other another = some cell →
    index = other
  trees : ∀ {index : Nat} {tree : BoundTree}, s.tree? index = some tree →
    ∀ v ∈ tree.leaves, s.cell? index v.name = some v.cell

variable {s : Session} {index : Nat} {name : String} {cell : Cell}

/-- A name with a cell belongs to a calculator that is there. -/
theorem exists_of_cell? (h : s.cell? index name = some cell) :
    ∃ c, s.calculators[index]? = some c ∧ c.store.find? name = some cell :=
  Option.bind_eq_some_iff.mp h

namespace Coherent

/-- Every cell is in the memory. -/
theorem in_memory (h : s.Coherent) (hcell : s.cell? index name = some cell) :
    cell.address < s.memory.values.size := by
  obtain ⟨c, hc, hfind⟩ := exists_of_cell? hcell
  exact (h.sound hc).in_memory hfind

/-- No two variables have one cell. -/
theorem unique (h : s.Coherent) {other : Nat} {another : String}
    (hcell : s.cell? index name = some cell)
    (hother : s.cell? other another = some cell) :
    index = other ∧ name = another := by
  obtain rfl := h.apart hcell hother
  obtain ⟨c, hc, hfind⟩ := exists_of_cell? hcell
  rw [cell?_of_getElem? hc] at hother
  exact ⟨rfl, (h.sound hc).injective hfind hother⟩

end Coherent

/-- The cells after something has happened to a calculator. -/
private theorem cell?_update {c : Calculator}
    (hc : s.calculators[index]? = some c) (next : Calculator) (memory : Memory)
    (other : Nat) (name : String) :
    (s.update index next memory).cell? other name =
      if other = index then next.store.find? name else s.cell? other name := by
  rw [cell?, getElem?_update hc]
  by_cases heq : other = index
  · rw [if_pos heq, if_pos heq, Option.bind_some]
  · rw [if_neg heq, if_neg heq, cell?]

/-- No command takes a cell from a name, or puts another in its place. -/
theorem cell?_step (h : s.cell? index name = some cell) (other : Nat)
    (command : Command) :
    (s.step other command).2.cell? index name = some cell := by
  rcases s.step_change other command with
    ⟨hsame, -⟩ | ⟨c, next, memory, hc, hchange, hnext⟩
  · rw [cell?, hsame]
    exact h
  · rw [hnext, cell?_update hc]
    by_cases heq : index = other
    · rw [heq, cell?_of_getElem? hc] at h
      rw [if_pos heq]
      exact hchange.scope.find?_of_find? h
    · rw [if_neg heq]
      exact h

/-- A sound scope is sound on a larger memory. -/
private theorem sound_of_size_le {store : Store} {m memory : Memory}
    (h : Scope.Sound ⟨store, m⟩) (hsize : m.values.size ≤ memory.values.size) :
    Scope.Sound ⟨store, memory⟩ where
  in_memory hcell := Nat.lt_of_lt_of_le (h.in_memory hcell) hsize
  injective := h.injective

/-- The cells of a calculator to which something has happened are no one
else's. -/
private theorem foreign_of_change (h : s.Coherent) {c next : Calculator}
    {memory : Memory} {compiling : Prop} {other : Nat} {another : String}
    (hc : s.calculators[index]? = some c)
    (hchange : c.Change compiling s.memory next memory)
    (hcell : next.store.find? name = some cell)
    (hother : s.cell? other another = some cell) : other = index := by
  rcases hchange.scope.fresh hcell with hold | hnew
  · rw [show (c.scope s.memory).store.find? name = s.cell? index name from
      (cell?_of_getElem? hc name).symm] at hold
    exact h.apart hother hold
  · have hlt : cell.address < s.memory.values.size := h.in_memory hother
    have hge : s.memory.values.size ≤ cell.address := hnew
    omega

/-- Something that happens to one calculator keeps a session coherent. -/
private theorem Coherent.update (h : s.Coherent) {c next : Calculator}
    {memory : Memory} {compiling : Prop} (hc : s.calculators[index]? = some c)
    (hchange : c.Change compiling s.memory next memory) :
    (s.update index next memory).Coherent where
  sound := by
    intro other d hd
    rw [getElem?_update hc] at hd
    by_cases heq : other = index
    · rw [if_pos heq] at hd
      obtain rfl := Option.some.inj hd
      exact hchange.scope.sound (h.sound hc)
    · rw [if_neg heq] at hd
      exact sound_of_size_le (h.sound hd) hchange.scope.size_le
  apart := by
    intro first second name another cell hfirst hsecond
    rw [cell?_update hc] at hfirst hsecond
    by_cases hone : first = index
    · by_cases htwo : second = index
      · rw [hone, htwo]
      · rw [if_pos hone] at hfirst
        rw [if_neg htwo] at hsecond
        exact absurd (foreign_of_change h hc hchange hfirst hsecond) htwo
    · rw [if_neg hone] at hfirst
      by_cases htwo : second = index
      · rw [if_pos htwo] at hsecond
        exact absurd (foreign_of_change h hc hchange hsecond hfirst) hone
      · rw [if_neg htwo] at hsecond
        exact h.apart hfirst hsecond
  trees := by
    intro other tree htree v hv
    rw [tree?, getElem?_update hc] at htree
    rw [cell?_update hc]
    by_cases heq : other = index
    · rw [if_pos heq, Option.bind_some] at htree
      rw [if_pos heq]
      rcases hchange.tree tree htree with hold | ⟨-, formula, -, hdeclared, rfl⟩
      · rw [← tree?_of_getElem? hc] at hold
        have hcell := h.trees hold v hv
        rw [cell?_of_getElem? hc] at hcell
        exact hchange.scope.find?_of_find? hcell
      · exact Scope.find?_of_mem_bind hdeclared hv
    · rw [if_neg heq] at htree ⊢
      exact h.trees htree v hv

/-- **One command** keeps a session coherent. -/
theorem Coherent.step (h : s.Coherent) (index : Nat) (command : Command) :
    (s.step index command).2.Coherent := by
  rcases s.step_change index command with
    ⟨hsame, hmemory⟩ | ⟨c, next, memory, hc, hchange, hnext⟩
  · constructor
    · intro other c hc
      rw [hsame] at hc
      rw [hmemory]
      exact h.sound hc
    · intro first second name another cell hfirst hsecond
      rw [cell?, hsame] at hfirst hsecond
      exact h.apart hfirst hsecond
    · intro other tree htree v hv
      rw [tree?, hsame] at htree
      rw [cell?, hsame]
      exact h.trees htree v hv
  · rw [hnext]
    exact h.update hc hchange

/-- A name keeps its cell for ever. -/
theorem cell?_run (h : s.cell? index name = some cell)
    (commands : List (Nat × Command)) :
    (s.run commands).cell? index name = some cell := by
  induction commands generalizing s with
  | nil => exact h
  | cons entry commands ih => exact ih (cell?_step h entry.1 entry.2)

/-- **Many commands** keep a session coherent. -/
theorem Coherent.run (h : s.Coherent) (commands : List (Nat × Command)) :
    (s.run commands).Coherent := by
  induction commands generalizing s with
  | nil => exact h
  | cons entry commands ih => exact ih (h.step entry.1 entry.2)

/-- A calculator that has been set up has no variables. -/
theorem Coherent.ofConfigurations (configs : List Configuration) (m : Memory) :
    (ofConfigurations configs m).Coherent := by
  have hnone : ∀ index name,
      (Session.ofConfigurations configs m).cell? index name = none := by
    intro index name
    rw [cell?, Session.ofConfigurations, List.getElem?_map]
    cases configs[index]? <;> rfl
  constructor
  · intro index c hc
    constructor
    · intro name cell hcell
      have hsome := (cell?_of_getElem? hc name).trans hcell
      rw [hnone] at hsome
      cases hsome
    · intro name other cell hcell
      have hsome := (cell?_of_getElem? hc name).trans hcell
      rw [hnone] at hsome
      cases hsome
  · intro index other name another cell hcell
    rw [hnone] at hcell
    cases hcell
  · intro index tree htree
    rw [tree?_ofConfigurations] at htree
    cases htree

/-- A tree that could ever be taken from a calculator has its cells now. -/
theorem cell?_of_offered (h : s.Coherent) {commands : List (Nat × Command)}
    {tree : BoundTree} (hoffered : s.Offered commands index tree) :
    ∀ v ∈ tree.leaves, (s.run commands).cell? index v.name = some v.cell := by
  obtain ⟨before, after, rfl, htree⟩ := hoffered
  intro v hv
  rw [run_append]
  exact cell?_run ((h.run before).trees htree v hv) after

/-- **The frame of an assignment.**  One variable of one calculator is known
with the new value, and all others are known as before. -/
theorem value?_setVariable (h : s.Coherent) {c : Calculator}
    (hc : s.calculators[index]? = some c) (name : String) (value : Float)
    (other : Nat) (another : String) :
    (s.step index (.setVariable name value)).2.value? other another =
      if other = index ∧ another = name then some value
      else s.value? other another := by
  have hstep : (s.step index (.setVariable name value)).2 =
      s.update index (c.setVariable s.memory name value).1
        (c.setVariable s.memory name value).2 := by
    rw [step, hc]
    rfl
  rw [hstep]
  by_cases heq : other = index
  · have hnext := getElem?_update hc (c.setVariable s.memory name value).1
      (c.setVariable s.memory name value).2 other
    rw [if_pos heq] at hnext
    rw [value?_of_getElem? hnext, heq, value?_of_getElem? hc]
    simp only [true_and]
    exact Scope.get?_set (h.sound hc) name value another
  · rw [if_neg fun hboth => heq hboth.1, value?_eq, value?_eq,
      cell?_update hc, if_neg heq]
    cases hcell : s.cell? other another with
    | none => rfl
    | some cell =>
      have hforeign : cell ≠ (c.scope s.memory).cellOf name := by
        intro hsame
        have hown : (c.setVariable s.memory name value).1.store.find? name =
            some cell := by
          show ((c.scope s.memory).declare name).store.find? name = _
          rw [Scope.find?_declare, if_pos rfl, hsame]
        exact heq (foreign_of_change h hc
          (c.setVariable_change s.memory name value) hown hcell)
      refine congrArg some ?_
      exact Scope.read_set hforeign
        (Scope.cellOf_lt (h.sound hc) name) value

/-- A tree with the cells of a calculator is evaluated from what the calculator
knows. -/
theorem eval_eq {tree : BoundTree}
    (h : ∀ v ∈ tree.leaves, s.cell? index v.name = some v.cell) :
    s.memory.eval tree = (tree.map Variable.name).eval fun name =>
      (s.value? index name).getD 0.0 := by
  rw [Memory.eval, Tree.eval_map]
  refine Tree.eval_congr tree fun v hv => ?_
  rw [value?_eq, h v hv, Option.map_some, Option.getD_some]

/-- **Cell coherence.**  Whatever calculators there are, whatever the memory,
and after whatever commands: no two variables have one cell; a name keeps its
cell; a tree that could ever be taken from a calculator has the cells that the
calculator has now, and so has every tree on the shelf; an assignment changes
one variable; and such a tree has the value that its formula has with the
current values of the calculator and the functions that were registered when it
was compiled. -/
theorem cells_coherent (configs : List Configuration) (m : Memory)
    (commands : List (Nat × Command)) :
    let start := ofConfigurations configs m
    let s := start.run commands
    (∀ index other name another cell, s.cell? index name = some cell →
      s.cell? other another = some cell → index = other ∧ name = another) ∧
    (∀ later index name cell, s.cell? index name = some cell →
      (s.run later).cell? index name = some cell) ∧
    (∀ index (tree : BoundTree), start.Offered commands index tree →
      ∀ v ∈ tree.leaves, s.cell? index v.name = some v.cell) ∧
    (∀ slot tree, s.kept.find? slot = some tree →
      ∃ index, start.Offered commands index tree) ∧
    (∀ index name value, index < s.calculators.length → ∀ other another,
      (s.step index (.setVariable name value)).2.value? other another =
        if other = index ∧ another = name then some value
        else s.value? other another) ∧
    ∀ index (tree : BoundTree), start.Offered commands index tree →
      start.Compiled commands index (tree.map Variable.name) ∧
        s.memory.eval tree = (tree.map Variable.name).eval fun name =>
          (s.value? index name).getD 0.0 := by
  intro start s
  have hstart : start.Coherent := .ofConfigurations configs m
  have hs : s.Coherent := hstart.run commands
  refine ⟨?_, ?_, ?_, ?_, ?_, ?_⟩
  · intro index other name another cell hcell hother
    exact hs.unique hcell hother
  · intro later index name cell hcell
    exact cell?_run hcell later
  · intro index tree hoffered
    exact cell?_of_offered hstart hoffered
  · intro slot tree hkept
    exact offered_of_kept hkept
  · intro index name value hlt other another
    exact value?_setVariable hs (List.getElem?_eq_getElem hlt) name value other
      another
  · intro index tree hoffered
    exact ⟨compiled_of_offered hoffered,
      eval_eq (cell?_of_offered hstart hoffered)⟩

end Formulary.Session
