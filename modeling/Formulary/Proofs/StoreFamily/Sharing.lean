import Formulary.Proofs.StoreFamily.Lineage

/-!
# Which stores share a cell

All stores of a family descend from one empty store, and share what they have
from their common past and nothing else.  A cell has one name in all stores.
Two stores have one cell under a name exactly if the name had this cell in the
store where their lineages split; a name that comes in later has a cell of its
own on either side, also where both sides take the same name.  An assignment
shows in all stores that share the cell, and a write to a held cell is an
assignment to the name that the cell was held for.

The invariant is `Coherent`.  It does not say which stores share a cell, since
that is fixed by lineages: it only keeps new cells apart from old ones.

* `Coherent.step` and `Coherent.run` keep the invariant, and `cell?_run` keeps
  the cells;
* `Coherent.shares_iff` is the law of sharing;
* `Coherent.value?_set` and `Coherent.value?_writeCell` are the frames of the
  two kinds of writes;
* `cells_shared` puts them together for whole families.
-/

namespace Formulary.StoreFamily

/-- Cells are in the memory and have one name each, and those that are held
belong to stores. -/
structure Coherent (f : StoreFamily) : Prop where
  in_memory : ∀ {index : Nat} {name : String} {cell : Cell},
    f.cell? index name = some cell → cell.address < f.memory.values.size
  apart : ∀ {index other : Nat} {name another : String} {cell : Cell},
    f.cell? index name = some cell → f.cell? other another = some cell →
    name = another
  held : ∀ {label : String} {cell : Cell}, f.held.find? label = some cell →
    ∃ index name, f.cell? index name = some cell

/-- Two stores have the cell under the name. -/
def Shares (f : StoreFamily) (one two : Nat) (name : String) (cell : Cell) :
    Prop :=
  f.cell? one name = some cell ∧ f.cell? two name = some cell

variable {f : StoreFamily} {index one two : Nat} {command : Command}
  {name label : String} {cell : Cell}

/-- A held cell was held before, or it is one of the store that the command is
for. -/
theorem held_step (h : (f.step index command).2.held.find? label = some cell) :
    f.held.find? label = some cell ∨
      ∃ name, (f.step index command).2.cell? index name = some cell := by
  rw [step] at h ⊢
  cases hstore : f.stores[index]? with
  | none =>
    rw [hstore] at h
    exact Or.inl h
  | some store =>
    simp only [hstore] at h ⊢
    cases command with
    | hold name other =>
      simp only [perform, Dictionary.find?_insert] at h
      split at h
      · refine Or.inr ⟨name, ?_⟩
        rw [cell?_of_declare hstore rfl, if_pos ⟨rfl, rfl⟩]
        exact h
      · exact Or.inl h
    | get other =>
      simp only [perform] at h
      cases hvalue : (f.scope store).get? other <;> simp only [hvalue] at h <;>
        exact Or.inl h
    | readCell other | writeCell other =>
      simp only [perform] at h
      cases hheld : f.held.find? other <;> simp only [hheld] at h <;>
        exact Or.inl h
    | set | contains | copy => exact Or.inl h

namespace Coherent

/-- A new cell is none of those that were there. -/
private theorem ne_fresh (h : f.Coherent)
    (hcell : f.cell? index name = some cell) : cell ≠ f.memory.fresh := by
  intro heq
  have hlt := h.in_memory hcell
  rw [heq] at hlt
  exact Nat.lt_irrefl _ hlt

/-- **One command** keeps a family coherent. -/
theorem step (h : f.Coherent) (index : Nat) (command : Command) :
    (f.step index command).2.Coherent where
  in_memory := by
    intro store name cell hcell
    rcases cell?_step_cases hcell with hold | ⟨-, -, -, hlt⟩
    · exact Nat.lt_of_lt_of_le (h.in_memory hold) (f.size_step_le index command)
    · exact hlt
  apart := by
    intro store other name another cell hcell hother
    rcases cell?_step_cases hcell with hold | ⟨-, hname, hfresh, -⟩ <;>
      rcases cell?_step_cases hother with hknown | ⟨-, hanother, hnew, -⟩
    · exact h.apart hold hknown
    · exact absurd hnew (h.ne_fresh hold)
    · exact absurd hfresh (h.ne_fresh hknown)
    · exact Option.some.inj (hname.symm.trans hanother)
  held := by
    intro label cell hheld
    rcases held_step hheld with hold | ⟨name, hcell⟩
    · obtain ⟨store, name, hcell⟩ := h.held hold
      exact ⟨store, name, cell?_step hcell index command⟩
    · exact ⟨index, name, hcell⟩

/-- Different stores share after a command what the stores that they come from
shared before it. -/
theorem shares_step_iff (h : f.Coherent) (hne : one ≠ two) :
    (f.step index command).2.Shares one two name cell ↔
      f.Shares (f.parent index command one) (f.parent index command two) name
        cell := by
  constructor
  · rintro ⟨hone, htwo⟩
    rcases cell?_step_cases hone with hold | ⟨heq, -, hfresh, -⟩ <;>
      rcases cell?_step_cases htwo with hknown | ⟨hsame, -, hnew, -⟩
    · exact ⟨hold, hknown⟩
    · exact absurd hnew (h.ne_fresh hold)
    · exact absurd hfresh (h.ne_fresh hknown)
    · exact absurd (heq.trans hsame.symm) hne
  · rintro ⟨hone, htwo⟩
    exact ⟨cell?_step_of_parent hone, cell?_step_of_parent htwo⟩

end Coherent

/-- A name keeps its cell for ever. -/
theorem cell?_run (h : f.cell? index name = some cell)
    (commands : List (Nat × Command)) :
    (f.run commands).cell? index name = some cell := by
  induction commands generalizing f with
  | nil => exact h
  | cons entry commands ih => exact ih (cell?_step h entry.1 entry.2)

/-- **Many commands** keep a family coherent. -/
theorem Coherent.run (h : f.Coherent) (commands : List (Nat × Command)) :
    (f.run commands).Coherent := by
  induction commands generalizing f with
  | nil => exact h
  | cons entry commands ih => exact ih (h.step entry.1 entry.2)

/-- The first store has no names. -/
theorem Coherent.ofMemory (m : Memory) : (ofMemory m).Coherent := by
  have hnone : ∀ index name, (StoreFamily.ofMemory m).cell? index name = none := by
    intro index name
    cases index <;> rfl
  constructor
  · intro index name cell hcell
    rw [hnone] at hcell
    cases hcell
  · intro index other name another cell hcell
    rw [hnone] at hcell
    cases hcell
  · intro label cell hheld
    cases hheld

/-- Stores that come from different ones share what these shared. -/
theorem Coherent.shares_run_iff (h : f.Coherent)
    {commands : List (Nat × Command)}
    (hne : f.ancestor commands one ≠ f.ancestor commands two) :
    (f.run commands).Shares one two name cell ↔
      f.Shares (f.ancestor commands one) (f.ancestor commands two) name cell := by
  induction commands generalizing f with
  | nil => exact Iff.rfl
  | cons entry commands ih =>
    have hnext : (f.step entry.1 entry.2).2.ancestor commands one ≠
        (f.step entry.1 entry.2).2.ancestor commands two :=
      mt (congrArg (f.parent entry.1 entry.2)) hne
    exact (ih (h.step entry.1 entry.2) hnext).trans (h.shares_step_iff hnext)

/-- **The law of sharing.**  Two stores have a cell under a name exactly if the
name had it in the store from which their lineages split. -/
theorem Coherent.shares_iff (h : f.Coherent)
    {before after : List (Nat × Command)} {trunk : Nat}
    (hsplit : f.Splits before after one two trunk) (name : String) (cell : Cell) :
    (f.run (before ++ after)).Shares one two name cell ↔
      (f.run before).cell? trunk name = some cell := by
  have hbefore : (f.run before).Coherent := h.run before
  have hone := hsplit.one_from
  have htwo := hsplit.two_from
  rw [run_append]
  cases after with
  | nil =>
    obtain rfl : one = trunk := hone
    obtain rfl : two = one := htwo
    exact and_self_iff
  | cons entry rest =>
    obtain ⟨index, command⟩ := entry
    rw [ancestor_cons] at hone htwo
    have hapart := hsplit.apart
      (show (index, command) :: rest = (index, command) :: [] ++ rest from rfl)
    rw [run_append, run_cons, run_nil] at hapart
    refine ((hbefore.step index command).shares_run_iff hapart).trans ?_
    refine (hbefore.shares_step_iff hapart).trans ?_
    rw [hone, htwo]
    exact and_self_iff

/-- What is known after a write to the cell of a name.  The stores may have
changed too; the memory is the one that has been written to. -/
private theorem value?_of_write {next : StoreFamily} (hnext : next.Coherent)
    {m : Memory} {value : Float} (hmemory : next.memory = m.write cell value)
    (hcell : next.cell? index name = some cell) (other : Nat)
    (another : String) :
    next.value? other another =
      if another = name ∧ next.cell? other name = some cell then some value
      else (next.cell? other another).map m.read := by
  have hlt : cell.address < m.values.size := by
    have hin := hnext.in_memory hcell
    rw [hmemory, Memory.size_write] at hin
    exact hin
  rw [value?_eq, hmemory]
  cases hother : next.cell? other another with
  | none =>
    rw [if_neg, Option.map_none, Option.map_none]
    rintro ⟨rfl, hshared⟩
    rw [hother] at hshared
    cases hshared
  | some known =>
    rw [Option.map_some, Memory.read_write m cell known value hlt]
    by_cases heq : known = cell
    · obtain rfl := heq
      obtain rfl := hnext.apart hcell hother
      rw [if_pos rfl, if_pos ⟨rfl, hother⟩]
    · rw [if_neg heq, if_neg, Option.map_some]
      rintro ⟨rfl, hshared⟩
      exact heq (Option.some.inj (hother.symm.trans hshared))

/-- **The frame of a write to a held cell.**  Its name is known with the new
value in the stores that have the cell, and all else is known as before. -/
theorem Coherent.value?_writeCell (h : f.Coherent)
    (hheld : f.held.find? label = some cell)
    (hcell : f.cell? index name = some cell) {store : Nat} {s : Store}
    (hthere : f.stores[store]? = some s) (value : Float) (other : Nat)
    (another : String) :
    (f.step store (.writeCell label value)).2.value? other another =
      if another = name ∧ f.cell? other name = some cell then some value
      else f.value? other another := by
  have hstep : (f.step store (.writeCell label value)).2 =
      { f with memory := f.memory.write cell value } := by
    simp only [StoreFamily.step, hthere, perform, hheld]
  have hnext := h.step store (.writeCell label value)
  rw [hstep] at hnext ⊢
  rw [value?_eq f]
  exact value?_of_write hnext rfl hcell other another

/-- **The frame of an assignment.**  The name is known with the new value in the
stores that have its cell then, and all else is known as before. -/
theorem Coherent.value?_set (h : f.Coherent) {s : Store}
    (hthere : f.stores[index]? = some s) (name : String) (value : Float) :
    let next := (f.step index (.set name value)).2
    ∃ cell, next.cell? index name = some cell ∧ ∀ other another,
      next.value? other another =
        if another = name ∧ next.cell? other name = some cell then some value
        else f.value? other another := by
  intro next
  have hnext : next.Coherent := h.step index (.set name value)
  have hstep : next = f.update index ((f.scope s).set name value) := by
    simp only [next, StoreFamily.step, hthere, perform]
  have hstores : next.stores =
      f.stores.set index ((f.scope s).declare name).store := by
    rw [hstep]
    rfl
  have hcells := cell?_of_declare hthere hstores
  have hmemory : next.memory = ((f.scope s).declare name).memory.write
      ((f.scope s).cellOf name) value := by
    rw [hstep]
    rfl
  have hread : ((f.scope s).declare name).memory.read = f.memory.read :=
    funext (Scope.read_declare (f.scope s) name)
  have hown : next.cell? index name = some ((f.scope s).cellOf name) := by
    rw [hcells, if_pos ⟨rfl, rfl⟩]
  refine ⟨_, hown, fun other another => ?_⟩
  rw [value?_of_write hnext hmemory hown, hread]
  split
  · rfl
  · next hother =>
    rw [value?_eq, hcells, if_neg]
    rintro ⟨rfl, rfl⟩
    exact hother ⟨rfl, hown⟩

/-- The cell that is held for a name is the one that the name has then. -/
theorem held_hold {s : Store} (hthere : f.stores[index]? = some s)
    (name label : String) :
    let next := (f.step index (.hold name label)).2
    ∃ cell, next.held.find? label = some cell ∧
      next.cell? index name = some cell := by
  intro next
  have hstep : next = { f.update index ((f.scope s).declare name) with
      held := f.held.insert label ((f.scope s).cellOf name) } := by
    simp only [next, StoreFamily.step, hthere, perform]
  rw [hstep]
  refine ⟨(f.scope s).cellOf name, ?_, ?_⟩
  · rw [Dictionary.find?_insert, if_pos rfl]
  · rw [cell?_of_declare hthere rfl, if_pos ⟨rfl, rfl⟩]

/-- **Sharing.**  Whatever the memory, and after whatever commands for one empty
store and its descendants: two names never have one cell; the lineages of any
two stores split at one time, and the stores have a cell under a name exactly if
the name had it then in the store where the lineages split; an assignment
changes what is known for its name in the stores that have the name's cell, and
nothing else; a held cell is the cell of a name, and a write to it changes the
same as an assignment to the name; a cell is held for the name that it is asked
for by; and a name keeps its cell. -/
theorem cells_shared (m : Memory) (commands : List (Nat × Command)) :
    let start := ofMemory m
    let f := start.run commands
    (∀ one two name other cell, f.cell? one name = some cell →
      f.cell? two other = some cell → name = other) ∧
    (∀ one two, one < f.stores.length → two < f.stores.length →
      ∃ before after trunk, commands = before ++ after ∧
        start.Splits before after one two trunk ∧
        (∀ early late other, commands = early ++ late →
          start.Splits early late one two other →
          before = early ∧ trunk = other) ∧
        ∀ name cell, f.Shares one two name cell ↔
          (start.run before).cell? trunk name = some cell) ∧
    (∀ index name value, index < f.stores.length →
      let next := (f.step index (.set name value)).2
      ∃ cell, next.cell? index name = some cell ∧ ∀ other another,
        next.value? other another =
          if another = name ∧ next.cell? other name = some cell then some value
          else f.value? other another) ∧
    (∀ label cell, f.held.find? label = some cell →
      ∃ name, (∃ index, f.cell? index name = some cell) ∧
        ∀ store value, store < f.stores.length → ∀ other another,
          (f.step store (.writeCell label value)).2.value? other another =
            if another = name ∧ f.cell? other name = some cell then some value
            else f.value? other another) ∧
    (∀ index name label, index < f.stores.length →
      let next := (f.step index (.hold name label)).2
      ∃ cell, next.held.find? label = some cell ∧
        next.cell? index name = some cell) ∧
    ∀ later index name cell, f.cell? index name = some cell →
      (f.run later).cell? index name = some cell := by
  intro start f
  have hstart : start.Coherent := .ofMemory m
  have hf : f.Coherent := hstart.run commands
  refine ⟨?_, ?_, ?_, ?_, ?_, ?_⟩
  · intro one two name other cell hone htwo
    exact hf.apart hone htwo
  · intro one two hone htwo
    have hfirst : start.ancestor commands one < 1 := ancestor_lt hone
    have hsecond : start.ancestor commands two < 1 := ancestor_lt htwo
    have hsame : start.ancestor commands one = start.ancestor commands two := by
      omega
    obtain ⟨before, after, trunk, hcommands, hsplit⟩ := exists_splits hsame
    refine ⟨before, after, trunk, hcommands, hsplit, ?_, ?_⟩
    · intro early late other hother hsplits
      exact hsplit.unique hsplits (hcommands.symm.trans hother)
    · intro name cell
      have hshares := hstart.shares_iff hsplit name cell
      rw [← hcommands] at hshares
      exact hshares
  · intro index name value hindex
    exact hf.value?_set (List.getElem?_eq_getElem hindex) name value
  · intro label cell hheld
    obtain ⟨index, name, hcell⟩ := hf.held hheld
    refine ⟨name, ⟨index, hcell⟩, ?_⟩
    intro store value hstore other another
    exact hf.value?_writeCell hheld hcell (List.getElem?_eq_getElem hstore) value
      other another
  · intro index name label hindex
    exact held_hold (List.getElem?_eq_getElem hindex) name label
  · intro later index name cell hcell
    exact cell?_run hcell later

/-- The first name is there before the copy, the second one is taken after it on
both sides. -/
example :
    let f := (ofMemory .empty).run [(0, .set "x" 1.0), (0, .copy),
      (0, .set "y" 2.0), (1, .set "y" 3.0)]
    f.cell? 0 "x" = f.cell? 1 "x" ∧ f.cell? 0 "y" = some ⟨1⟩ ∧
      f.cell? 1 "y" = some ⟨2⟩ := by
  decide

end Formulary.StoreFamily
