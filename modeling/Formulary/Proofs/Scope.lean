import Formulary.Scope
import Formulary.Proofs.Tree

/-!
# Cells of a scope

In a sound scope every variable has a cell of its own in the memory.  Declaring
a name and assigning to it keep the scope sound, never move a cell, and change
no value but the one that is assigned: a name that has not been declared counts
as zero before its declaration and holds zero after it.

* `Scope.Sound` is the invariant;
* `Scope.value_declareAll` and `Scope.value_set` give every value afterwards;
* `Scope.get?_declareAll` and `Scope.get?_set` also say which names are known, in
  any scope for declarations and in a sound one for an assignment;
* `Scope.eval_bind` evaluates a bound formula from the values of the names.
-/

namespace Formulary

namespace Memory

@[simp]
theorem size_grow (m : Memory) : m.grow.values.size = m.values.size + 1 := by
  simp [grow]

@[simp]
theorem size_write (m : Memory) (cell : Cell) (value : Float) :
    (m.write cell value).values.size = m.values.size := by
  simp [write]

/-- A new cell holds zero, and the cells before it keep their numbers. -/
theorem read_grow (m : Memory) (cell : Cell) :
    m.grow.read cell = if cell = m.fresh then 0.0 else m.read cell := by
  by_cases hfresh : cell = m.fresh
  · subst hfresh
    simp [read, grow, fresh]
  · have haddress : cell.address ≠ m.values.size := by
      intro heq
      exact hfresh (by cases cell; simp_all [fresh])
    simp only [read, grow, if_neg hfresh]
    rw [Array.getD_eq_getD_getElem?, Array.getD_eq_getD_getElem?,
      Array.getElem?_push, if_neg haddress]

/-- A cell outside the memory reads as zero, and so does the next one; a memory
that grows therefore reads as before. -/
theorem read_grow_eq (m : Memory) (cell : Cell) :
    m.grow.read cell = m.read cell := by
  rw [read_grow]
  split
  · next hfresh =>
    subst hfresh
    simp [read, fresh]
  · rfl

/-- A write changes one cell. -/
theorem read_write (m : Memory) (cell other : Cell) (value : Float)
    (h : cell.address < m.values.size) :
    (m.write cell value).read other =
      if other = cell then value else m.read other := by
  by_cases hother : other = cell
  · subst hother
    simp [read, write, h]
  · have haddress : cell.address ≠ other.address := by
      intro heq
      exact hother (by cases cell; cases other; simp_all)
    simp only [read, write, if_neg hother]
    rw [Array.getD_eq_getD_getElem?, Array.getD_eq_getD_getElem?,
      Array.getElem?_setIfInBounds_ne haddress]

end Memory

namespace Scope

/-- Every variable has a cell in the memory, and no two have the same. -/
structure Sound (s : Scope) : Prop where
  in_memory : ∀ {name cell}, s.store.find? name = some cell →
    cell.address < s.memory.values.size
  injective : ∀ {name other cell}, s.store.find? name = some cell →
    s.store.find? other = some cell → name = other

/-- The value of a name, which is zero before its declaration. -/
def value (s : Scope) (name : String) : Float :=
  (s.get? name).getD 0.0

variable {s : Scope} {formula : Formula}

theorem contains_iff {name : String} :
    s.store.contains name ↔ ∃ cell, s.store.find? name = some cell := by
  simp [Dictionary.contains, Option.isSome_iff_exists]

/-- A declared name has the cell that the store has under it. -/
theorem cellOf_of_find? {name : String} {cell : Cell}
    (h : s.store.find? name = some cell) : s.cellOf name = cell := by
  simp [cellOf, h]

/-- The value of a declared name is in its cell. -/
theorem value_of_find? {name : String} {cell : Cell}
    (h : s.store.find? name = some cell) :
    s.value name = s.memory.read cell := by
  simp [value, get?, h]

/-- The value of any other name is zero. -/
theorem value_of_find?_none {name : String} (h : s.store.find? name = none) :
    s.value name = 0.0 := by
  simp [value, get?, h]

/-- Declaring a name gives it its cell and leaves the others alone. -/
theorem find?_declare (s : Scope) (name other : String) :
    (s.declare name).store.find? other =
      if other = name then some (s.cellOf name) else s.store.find? other := by
  by_cases hname : s.store.contains name
  · obtain ⟨cell, hcell⟩ := contains_iff.mp hname
    rw [declare, if_pos hname, cellOf_of_find? hcell]
    split
    · next heq => rw [heq, hcell]
    · rfl
  · have hnone : s.store.find? name = none := by
      simpa [Dictionary.contains] using hname
    rw [declare, if_neg hname]
    simp only [Dictionary.find?_insert, cellOf, hnone, Option.getD_none]

/-- No declaration moves a cell. -/
theorem find?_declare_of_find? {name other : String} {cell : Cell}
    (h : s.store.find? other = some cell) :
    (s.declare name).store.find? other = some cell := by
  rw [find?_declare]
  split
  · next heq => rw [← heq, cellOf_of_find? h]
  · exact h

/-- No declaration moves a cell. -/
theorem find?_declareAll_of_find? {names : List String} {other : String}
    {cell : Cell} (h : s.store.find? other = some cell) :
    (s.declareAll names).store.find? other = some cell := by
  induction names generalizing s with
  | nil => exact h
  | cons name names ih => exact ih (find?_declare_of_find? h)

/-- A name has a cell after its declaration. -/
theorem contains_declareAll {names : List String} {name : String}
    (h : name ∈ names) : (s.declareAll names).store.contains name := by
  induction names generalizing s with
  | nil => cases h
  | cons first names ih =>
    rcases List.mem_cons.mp h with rfl | hmem
    · have hcell : (s.declare name).store.find? name = some (s.cellOf name) := by
        rw [find?_declare, if_pos rfl]
      show ((s.declare name).declareAll names).store.contains name
      exact contains_iff.mpr ⟨_, find?_declareAll_of_find? hcell⟩
    · exact ih hmem

/-- A declaration keeps a scope sound. -/
theorem Sound.declare (h : s.Sound) (name : String) :
    (s.declare name).Sound := by
  by_cases hname : s.store.contains name
  · rw [Scope.declare, if_pos hname]
    exact h
  · have hnone : s.store.find? name = none := by
      simpa [Dictionary.contains] using hname
    have hfresh : ∀ {other cell}, s.store.find? other = some cell →
        cell ≠ s.memory.fresh := by
      intro other cell hcell heq
      have hlt := h.in_memory hcell
      simp [heq, Memory.fresh] at hlt
    rw [Scope.declare, if_neg hname]
    constructor
    · intro other cell hcell
      rw [Dictionary.find?_insert] at hcell
      rw [Memory.size_grow]
      split at hcell
      · obtain rfl := Option.some.inj hcell
        exact Nat.lt_succ_self _
      · exact Nat.lt_succ_of_lt (h.in_memory hcell)
    · intro other another cell hother hanother
      rw [Dictionary.find?_insert] at hother hanother
      split at hother <;> split at hanother
      · simp_all
      · exact absurd (Option.some.inj hother).symm (hfresh hanother)
      · exact absurd (Option.some.inj hanother).symm (hfresh hother)
      · exact h.injective hother hanother

/-- Declarations keep a scope sound. -/
theorem Sound.declareAll (h : s.Sound) (names : List String) :
    (s.declareAll names).Sound := by
  induction names generalizing s with
  | nil => exact h
  | cons name names ih => exact ih (h.declare name)

/-- A declaration changes no value. -/
theorem value_declare (h : s.Sound) (name other : String) :
    (s.declare name).value other = s.value other := by
  by_cases hname : s.store.contains name
  · rw [declare, if_pos hname]
  · have hnone : s.store.find? name = none := by
      simpa [Dictionary.contains] using hname
    have hmemory : (s.declare name).memory = s.memory.grow := by
      rw [declare, if_neg hname]
    have hfind := find?_declare s name other
    split at hfind
    · next heq =>
      subst heq
      rw [value_of_find? hfind, hmemory, value_of_find?_none hnone, cellOf,
        hnone, Option.getD_none, Memory.read_grow, if_pos rfl]
    · cases hother : s.store.find? other with
      | none =>
        rw [value_of_find?_none (hfind.trans hother), value_of_find?_none hother]
      | some cell =>
        have hlt := h.in_memory hother
        have hold : cell ≠ s.memory.fresh := by
          intro heq
          simp [heq, Memory.fresh] at hlt
        rw [value_of_find? (hfind.trans hother), value_of_find? hother, hmemory,
          Memory.read_grow, if_neg hold]

/-- Declarations change no value. -/
theorem value_declareAll (h : s.Sound) (names : List String) (other : String) :
    (s.declareAll names).value other = s.value other := by
  induction names generalizing s with
  | nil => rfl
  | cons name names ih => exact (ih (h.declare name)).trans (value_declare h name other)

/-- An assignment keeps a scope sound. -/
theorem Sound.set (h : s.Sound) (name : String) (value : Float) :
    (s.set name value).Sound := by
  constructor
  · intro other cell hcell
    have hlt := (h.declare name).in_memory hcell
    simpa [Scope.set] using hlt
  · exact (h.declare name).injective

/-- An assignment changes the value of its name. -/
theorem value_set (h : s.Sound) (name : String) (value : Float)
    (other : String) :
    (s.set name value).value other =
      if other = name then value else s.value other := by
  have hsound := h.declare name
  have hname : (s.declare name).store.find? name = some (s.cellOf name) := by
    rw [find?_declare, if_pos rfl]
  have hwrite := Memory.read_write (s.declare name).memory (s.cellOf name)
  cases hother : (s.declare name).store.find? other with
  | none =>
    have hne : other ≠ name := by
      intro heq
      rw [heq, hname] at hother
      cases hother
    rw [if_neg hne, ← value_declare h name other, value_of_find?_none hother]
    exact value_of_find?_none hother
  | some cell =>
    have hcell : (s.set name value).store.find? other = some cell := hother
    rw [value_of_find? hcell]
    show ((s.declare name).memory.write (s.cellOf name) value).read cell = _
    rw [hwrite cell value (hsound.in_memory hname)]
    by_cases heq : other = name
    · rw [if_pos heq, if_pos]
      rw [heq, hname] at hother
      exact (Option.some.inj hother).symm
    · have hne : cell ≠ s.cellOf name := by
        intro hcells
        exact heq (hsound.injective (hcells ▸ hother) hname)
      rw [if_neg heq, if_neg hne, ← value_declare h name other,
        value_of_find? hother]

/-- A name is known with its value. -/
theorem get?_of_find? {name : String} {cell : Cell}
    (h : s.store.find? name = some cell) :
    s.get? name = some (s.memory.read cell) := by
  rw [get?, h, Option.map_some]

/-- A name without a cell is not known. -/
theorem get?_of_find?_none {name : String} (h : s.store.find? name = none) :
    s.get? name = none := by
  rw [get?, h, Option.map_none]

/-- A name that has not been declared gets a new cell. -/
theorem declare_of_find?_none {name : String} (h : s.store.find? name = none) :
    s.declare name =
      { store := s.store.insert name s.memory.fresh
        memory := s.memory.grow } := by
  rw [declare, if_neg]
  simp [Dictionary.contains, h]

/-- A name that has been declared keeps its cell. -/
theorem declare_of_find? {name : String} {cell : Cell}
    (h : s.store.find? name = some cell) : s.declare name = s := by
  rw [declare, if_pos (contains_iff.mpr ⟨cell, h⟩)]

/-- No declaration takes a cell away. -/
theorem size_declare_le (s : Scope) (name : String) :
    s.memory.values.size ≤ (s.declare name).memory.values.size := by
  cases hname : s.store.find? name with
  | none =>
    rw [declare_of_find?_none hname]
    simp only [Memory.size_grow]
    omega
  | some cell =>
    have hsame := declare_of_find? hname
    exact Nat.le_of_eq (by rw [hsame])

/-- No declaration changes what a cell reads as. -/
theorem read_declare (s : Scope) (name : String) (cell : Cell) :
    (s.declare name).memory.read cell = s.memory.read cell := by
  cases hname : s.store.find? name with
  | some other => rw [declare_of_find? hname]
  | none => rw [declare_of_find?_none hname, Memory.read_grow_eq]

/-- A name reads from its cell, also from the one that it gets when declared. -/
theorem value_eq_read (s : Scope) (name : String) :
    s.value name = s.memory.read (s.cellOf name) := by
  cases hname : s.store.find? name with
  | some cell => rw [value_of_find? hname, cellOf_of_find? hname]
  | none =>
    rw [value_of_find?_none hname, cellOf, hname, Option.getD_none,
      ← Memory.read_grow_eq, Memory.read_grow, if_pos rfl]

/-- After its declaration a name is known with the value that it had, and other
names are known as before. -/
theorem get?_declare (s : Scope) (name other : String) :
    (s.declare name).get? other =
      if other = name then some (s.value name) else s.get? other := by
  have hread : (s.declare name).memory.read = s.memory.read :=
    funext (read_declare s name)
  rw [get?, find?_declare, hread]
  split
  · rw [Option.map_some, value_eq_read]
  · rfl

/-- After declarations the declared names are known, each with the value that it
had, and other names are known as before. -/
theorem get?_declareAll (s : Scope) (names : List String) (other : String) :
    (s.declareAll names).get? other =
      if other ∈ names then some (s.value other) else s.get? other := by
  induction names generalizing s with
  | nil => simp [declareAll]
  | cons name names ih =>
    have hfirst := get?_declare s name other
    have hvalue : (s.declare name).value other = s.value other := by
      rw [value, hfirst]
      by_cases heq : other = name
      · rw [if_pos heq, Option.getD_some, heq]
      · rw [if_neg heq, ← value]
    have hrest := ih (s.declare name)
    rw [show s.declareAll (name :: names) = (s.declare name).declareAll names
      from rfl, hrest, hvalue, hfirst]
    by_cases hmem : other ∈ names
    · rw [if_pos hmem, if_pos (List.mem_cons_of_mem _ hmem)]
    · by_cases heq : other = name
      · rw [if_neg hmem, if_pos heq, if_pos (by simp [heq]), heq]
      · rw [if_neg hmem, if_neg heq, if_neg (by simp [heq, hmem])]

/-- An assignment changes no cell but that of its name. -/
theorem read_set {cell : Cell} {name : String} (hother : cell ≠ s.cellOf name)
    (hcell : (s.cellOf name).address < (s.declare name).memory.values.size)
    (value : Float) :
    (s.set name value).memory.read cell = s.memory.read cell := by
  show ((s.declare name).memory.write (s.cellOf name) value).read cell = _
  rw [Memory.read_write _ _ _ _ hcell, if_neg hother, read_declare]

/-- The cell of a declared name is in the memory. -/
theorem cellOf_lt (h : s.Sound) (name : String) :
    (s.cellOf name).address < (s.declare name).memory.values.size := by
  have hfind : (s.declare name).store.find? name = some (s.cellOf name) := by
    rw [find?_declare, if_pos rfl]
  exact (h.declare name).in_memory hfind

/-- After an assignment its name is known with the new value, and other names
are known as before. -/
theorem get?_set (h : s.Sound) (name : String) (value : Float)
    (other : String) :
    (s.set name value).get? other =
      if other = name then some value else s.get? other := by
  have hfind : (s.set name value).store.find? other =
      if other = name then some (s.cellOf name) else s.store.find? other :=
    find?_declare s name other
  by_cases heq : other = name
  · rw [if_pos heq] at hfind ⊢
    rw [get?_of_find? hfind]
    show some (((s.declare name).memory.write (s.cellOf name) value).read
      (s.cellOf name)) = _
    rw [Memory.read_write _ _ _ _ (cellOf_lt h name), if_pos rfl]
  · rw [if_neg heq] at hfind ⊢
    cases hknown : s.store.find? other with
    | none =>
      rw [get?_of_find?_none (hfind.trans hknown), get?_of_find?_none hknown]
    | some cell =>
      have hne : cell ≠ s.cellOf name := by
        intro hcells
        have hname : (s.declare name).store.find? name = some cell := by
          rw [find?_declare, if_pos rfl, hcells]
        exact heq ((h.declare name).injective (find?_declare_of_find? hknown)
          hname)
      rw [get?_of_find? (hfind.trans hknown), get?_of_find? hknown,
        read_set hne (cellOf_lt h name)]

/-- A formula whose variables keep their cells is bound to the same tree. -/
theorem bind_congr {other : Scope}
    (hdeclared : ∀ name ∈ formula.leaves, s.store.contains name)
    (hkept : ∀ {name cell}, s.store.find? name = some cell →
      other.store.find? name = some cell) :
    other.bind formula = s.bind formula := by
  refine Tree.map_congr formula fun name hname => ?_
  obtain ⟨cell, hcell⟩ := contains_iff.mp (hdeclared name hname)
  rw [cellOf_of_find? hcell, cellOf_of_find? (hkept hcell)]

/-- A bound formula gives its names back. -/
theorem names_bind (s : Scope) (formula : Formula) :
    (s.bind formula).map Variable.name = formula :=
  Tree.map_map_cancel (fun _ => rfl) formula

/-- A bound formula is displayed as the formula itself. -/
theorem text_bind (s : Scope) (formula : Formula) :
    (s.bind formula).text = formula.text id :=
  Tree.text_map _ _ formula

/-- The variables of a bound formula have the cells of the scope. -/
theorem find?_of_mem_bind
    (hdeclared : ∀ name ∈ formula.leaves, s.store.contains name) {v : Variable}
    (h : v ∈ (s.bind formula).leaves) : s.store.find? v.name = some v.cell := by
  rw [bind, Tree.leaves_map] at h
  obtain ⟨name, hname, rfl⟩ := List.mem_map.mp h
  obtain ⟨cell, hcell⟩ := contains_iff.mp (hdeclared name hname)
  rw [cellOf_of_find? hcell, hcell]

/-- A bound formula is evaluated from the values of its names. -/
theorem eval_bind (hdeclared : ∀ name ∈ formula.leaves, s.store.contains name) :
    s.memory.eval (s.bind formula) = formula.eval s.value := by
  rw [Memory.eval, bind, Tree.eval_map]
  refine Tree.eval_congr formula fun name hname => ?_
  obtain ⟨cell, hcell⟩ := contains_iff.mp (hdeclared name hname)
  rw [cellOf_of_find? hcell, value_of_find? hcell]

end Scope

end Formulary
