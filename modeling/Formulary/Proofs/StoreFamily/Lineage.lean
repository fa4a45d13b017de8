import Formulary.Proofs.Scope
import Formulary.StoreFamily

/-!
# The lineage of a store

Every store of a family is the first one or a copy, and a copy comes from the
store that it was made of.  Seen from the end of a list of commands, each store
has one ancestor at every earlier time.  The lineages of two stores split at the
last time when the ancestors are one.

Besides, a command gives at most one name of one store a cell, and the cell is
new.

* `StoreFamily.ancestor` is where a store comes from, and `StoreFamily.Splits`
  says where two lineages split;
* `StoreFamily.exists_splits` and `Splits.unique` say that they split once;
* `StoreFamily.step_change` is all that a command can do to stores, and
  `cell?_step_cases` all that it can do to cells.
-/

namespace Formulary.StoreFamily

/-- One empty store on a memory with whatever cells. -/
def ofMemory (m : Memory) : StoreFamily where
  memory := m

/-- The cell that a store has under a name. -/
def cell? (f : StoreFamily) (index : Nat) (name : String) : Option Cell :=
  f.stores[index]?.bind fun store => store.find? name

/-- The value that a store knows for a name. -/
def value? (f : StoreFamily) (index : Nat) (name : String) : Option Float :=
  f.stores[index]?.bind fun store => (f.scope store).get? name

/-- The store that a store comes from.  Where a command adds a copy that is the
store which the command is for. -/
def parent (f : StoreFamily) (index : Nat) : Command → Nat → Nat
  | .copy, store => if store = f.stores.length then index else store
  | _, store => store

/-- The store, at the start of the commands, that a store at their end comes
from. -/
def ancestor (f : StoreFamily) : List (Nat × Command) → Nat → Nat
  | [], store => store
  | (index, command) :: commands, store =>
    f.parent index command ((f.step index command).2.ancestor commands store)

/-- The lineages of two stores split after the first commands: both stores come
from the trunk, and at no later time do they come from one store. -/
structure Splits (f : StoreFamily) (before after : List (Nat × Command))
    (one two trunk : Nat) : Prop where
  one_from : (f.run before).ancestor after one = trunk
  two_from : (f.run before).ancestor after two = trunk
  apart : ∀ {entry more rest}, after = entry :: more ++ rest →
    (f.run (before ++ entry :: more)).ancestor rest one ≠
      (f.run (before ++ entry :: more)).ancestor rest two

/-- The name that a command gives a cell where it has none. -/
def Command.declared? : Command → Option String
  | .hold name _ | .set name _ => some name
  | _ => none

variable {f next : StoreFamily} {index store : Nat} {command : Command}
  {commands : List (Nat × Command)} {name : String} {cell : Cell}

/-- What a store knows for a name is in the cell that it has under it. -/
theorem value?_eq (f : StoreFamily) (index : Nat) (name : String) :
    f.value? index name = (f.cell? index name).map f.memory.read := by
  rw [value?, cell?]
  cases f.stores[index]? <;> rfl

/-- A store with a cell is there. -/
theorem lt_of_cell? (h : f.cell? store name = some cell) :
    store < f.stores.length := by
  obtain ⟨_, hstore, -⟩ := Option.bind_eq_some_iff.mp h
  exact (List.getElem?_eq_some_iff.mp hstore).1

@[simp]
theorem run_nil (f : StoreFamily) : f.run [] = f := rfl

@[simp]
theorem run_cons (f : StoreFamily) (index : Nat) (command : Command)
    (commands : List (Nat × Command)) :
    f.run ((index, command) :: commands) =
      (f.step index command).2.run commands := rfl

theorem run_append (f : StoreFamily) (before after : List (Nat × Command)) :
    f.run (before ++ after) = (f.run before).run after :=
  List.foldl_append

@[simp]
theorem ancestor_cons (f : StoreFamily) (index : Nat) (command : Command)
    (commands : List (Nat × Command)) (store : Nat) :
    f.ancestor ((index, command) :: commands) store =
      f.parent index command
        ((f.step index command).2.ancestor commands store) := rfl

/-- What a command for the store at the index can do to stores. -/
inductive Change (f : StoreFamily) (index : Nat) (command : Command)
    (next : StoreFamily) : Prop where
  | keep (no_copy : command = .copy → f.stores[index]? = none)
    (stores : next.stores = f.stores)
    (size : next.memory.values.size = f.memory.values.size)
  | declare {store : Store} {name : String}
    (there : f.stores[index]? = some store)
    (declared : command.declared? = some name)
    (stores : next.stores =
      f.stores.set index ((f.scope store).declare name).store)
    (size : next.memory.values.size =
      ((f.scope store).declare name).memory.values.size)
  | copy {store : Store} (there : f.stores[index]? = some store)
    (copied : command = .copy) (stores : next.stores = f.stores ++ [store])
    (size : next.memory.values.size = f.memory.values.size)

/-- A command leaves the stores as they are, or it declares a name in the store
that it is for, or it adds a copy of this store. -/
theorem step_change (f : StoreFamily) (index : Nat) (command : Command) :
    f.Change index command (f.step index command).2 := by
  rw [step]
  cases hstore : f.stores[index]? with
  | none => exact .keep (fun _ => hstore) rfl rfl
  | some store =>
    cases command with
    | hold name label => exact .declare hstore rfl rfl rfl
    | set name value =>
      exact .declare hstore rfl rfl (Memory.size_write _ _ _)
    | copy => exact .copy hstore rfl rfl rfl
    | contains name => exact .keep (fun h => by cases h) rfl rfl
    | get name =>
      simp only [perform]
      cases (f.scope store).get? name <;>
        exact .keep (fun h => by cases h) rfl rfl
    | readCell label =>
      simp only [perform]
      cases f.held.find? label <;>
        exact .keep (fun h => by cases h) rfl rfl
    | writeCell label value =>
      simp only [perform]
      cases f.held.find? label with
      | none => exact .keep (fun h => by cases h) rfl rfl
      | some cell =>
        exact .keep (fun h => by cases h) rfl (Memory.size_write _ _ _)

/-- A command that declares a name adds no copy. -/
theorem parent_of_declared (h : command.declared? = some name) :
    f.parent index command store = store := by
  cases command with
  | hold | set => rfl
  | get | contains | readCell | writeCell | copy => cases h

/-- A store that is there comes from itself. -/
theorem parent_of_lt (h : store < f.stores.length) :
    f.parent index command store = store := by
  cases command with
  | copy => exact if_neg (Nat.ne_of_lt h)
  | hold | set | get | contains | readCell | writeCell => rfl

/-- The cells after a declaration. -/
theorem cell?_of_declare {s : Store} (hthere : f.stores[index]? = some s)
    (hstores : next.stores =
      f.stores.set index ((f.scope s).declare name).store)
    (store : Nat) (other : String) :
    next.cell? store other =
      if store = index ∧ other = name then some ((f.scope s).cellOf name)
      else f.cell? store other := by
  obtain ⟨hlt, -⟩ := List.getElem?_eq_some_iff.mp hthere
  rw [cell?, hstores]
  by_cases heq : store = index
  · subst heq
    rw [List.getElem?_set_self hlt, Option.bind_some, Scope.find?_declare, cell?,
      hthere, Option.bind_some]
    simp [scope]
  · rw [List.getElem?_set_ne (Ne.symm heq), if_neg fun hboth => heq hboth.1, cell?]

/-- The cells after a copy has been made. -/
theorem cell?_of_copy {s : Store} (hthere : f.stores[index]? = some s)
    (hstores : next.stores = f.stores ++ [s]) (store : Nat) (name : String) :
    next.cell? store name = f.cell? (f.parent index .copy store) name := by
  rw [cell?, cell?, hstores, parent]
  rcases Nat.lt_trichotomy store f.stores.length with hlt | heq | hgt
  · rw [if_neg (Nat.ne_of_lt hlt), List.getElem?_append_left hlt]
  · subst heq
    rw [if_pos rfl, List.getElem?_concat_length, hthere]
  · have hout : (f.stores ++ [s]).length ≤ store := by
      simp only [List.length_append, List.length_singleton]
      omega
    rw [if_neg (Nat.ne_of_gt hgt), List.getElem?_eq_none hout,
      List.getElem?_eq_none (Nat.le_of_lt hgt)]

/-- A copy that is not made has no cells. -/
private theorem cell?_parent_of_none
    (h : command = .copy → f.stores[index]? = none) (store : Nat)
    (name : String) :
    f.cell? (f.parent index command store) name = f.cell? store name := by
  cases command with
  | copy =>
    rw [parent]
    split
    · next heq =>
      rw [cell?, cell?, h rfl, heq, List.getElem?_eq_none (Nat.le_refl _)]
    · rfl
  | hold | set | get | contains | readCell | writeCell => rfl

/-- A store has the cells of the store that it comes from. -/
theorem cell?_step_of_parent
    (h : f.cell? (f.parent index command store) name = some cell) :
    (f.step index command).2.cell? store name = some cell := by
  cases f.step_change index command with
  | keep hcopy hstores =>
    rw [cell?_parent_of_none hcopy] at h
    rw [cell?, hstores]
    exact h
  | declare hthere hdeclared hstores =>
    rw [cell?_of_declare hthere hstores]
    rw [parent_of_declared hdeclared] at h
    split
    · next hboth =>
      rw [hboth.1, hboth.2, cell?, hthere, Option.bind_some] at h
      rw [Scope.cellOf_of_find? h]
    · exact h
  | copy hthere hcopy hstores =>
    obtain rfl := hcopy
    rw [cell?_of_copy hthere hstores]
    exact h

/-- A cell of a store is one of the store that it comes from, or else a new cell
of the name that the command declares. -/
theorem cell?_step_cases
    (h : (f.step index command).2.cell? store name = some cell) :
    f.cell? (f.parent index command store) name = some cell ∨
      store = index ∧ command.declared? = some name ∧ cell = f.memory.fresh ∧
        cell.address < (f.step index command).2.memory.values.size := by
  cases f.step_change index command with
  | keep hcopy hstores =>
    rw [cell?_parent_of_none hcopy]
    rw [cell?, hstores] at h
    exact Or.inl h
  | @declare s declared hthere hdeclared hstores hsize =>
    rw [parent_of_declared hdeclared]
    rw [cell?_of_declare hthere hstores] at h
    split at h
    · next hboth =>
      obtain ⟨rfl, rfl⟩ := hboth
      obtain rfl := Option.some.inj h
      cases hknown : s.find? name with
      | some known =>
        rw [cell?, hthere, Option.bind_some, hknown,
          Scope.cellOf_of_find? (s := f.scope s) hknown]
        exact Or.inl rfl
      | none =>
        have hfresh : (f.scope s).cellOf name = f.memory.fresh := by
          rw [Scope.cellOf, scope, hknown, Option.getD_none]
        refine Or.inr ⟨rfl, hdeclared, hfresh, ?_⟩
        rw [hsize, Scope.declare_of_find?_none (s := f.scope s) hknown, hfresh]
        show f.memory.values.size < f.memory.grow.values.size
        rw [Memory.size_grow]
        exact Nat.lt_succ_self _
    · exact Or.inl h
  | copy hthere hcopy hstores =>
    obtain rfl := hcopy
    rw [cell?_of_copy hthere hstores] at h
    exact Or.inl h

/-- No command takes a cell from a name, or puts another in its place. -/
theorem cell?_step (h : f.cell? store name = some cell) (index : Nat)
    (command : Command) :
    (f.step index command).2.cell? store name = some cell := by
  refine cell?_step_of_parent ?_
  rw [parent_of_lt (lt_of_cell? h)]
  exact h

/-- No command takes a cell from the memory. -/
theorem size_step_le (f : StoreFamily) (index : Nat) (command : Command) :
    f.memory.values.size ≤ (f.step index command).2.memory.values.size := by
  cases f.step_change index command with
  | keep _ _ hsize => exact Nat.le_of_eq hsize.symm
  | @declare s name _ _ _ hsize =>
    rw [hsize]
    exact Scope.size_declare_le (f.scope s) name
  | copy _ _ _ hsize => exact Nat.le_of_eq hsize.symm

/-- A store that is there after a command comes from one that was there. -/
theorem parent_lt (h : store < (f.step index command).2.stores.length) :
    f.parent index command store < f.stores.length := by
  by_cases hlt : store < f.stores.length
  · rw [parent_of_lt hlt]
    exact hlt
  · cases f.step_change index command with
    | keep _ hstores => exact absurd (hstores ▸ h) hlt
    | declare _ _ hstores =>
      rw [hstores, List.length_set] at h
      exact absurd h hlt
    | copy hthere hcopy hstores =>
      obtain rfl := hcopy
      rw [hstores, List.length_append, List.length_singleton] at h
      rw [parent, if_pos (by omega)]
      exact (List.getElem?_eq_some_iff.mp hthere).1

/-- A store that is there at the end comes from one that was there at the
start. -/
theorem ancestor_lt (h : store < (f.run commands).stores.length) :
    f.ancestor commands store < f.stores.length := by
  induction commands generalizing f with
  | nil => exact h
  | cons entry commands ih => exact parent_lt (ih h)

/-- The ancestor of an ancestor. -/
theorem ancestor_append (f : StoreFamily) (before after : List (Nat × Command))
    (store : Nat) :
    f.ancestor (before ++ after) store =
      f.ancestor before ((f.run before).ancestor after store) := by
  induction before generalizing f with
  | nil => rfl
  | cons entry before ih =>
    exact congrArg (f.parent entry.1 entry.2) (ih (f.step entry.1 entry.2).2)

/-- Two stores that come from one store part at some time, or are one store. -/
theorem exists_splits {one two : Nat}
    (h : f.ancestor commands one = f.ancestor commands two) :
    ∃ before after trunk, commands = before ++ after ∧
      f.Splits before after one two trunk := by
  induction commands generalizing f with
  | nil => exact ⟨[], [], one, rfl, rfl, h.symm, nofun⟩
  | cons entry commands ih =>
    by_cases hnext : (f.step entry.1 entry.2).2.ancestor commands one =
        (f.step entry.1 entry.2).2.ancestor commands two
    · obtain ⟨before, after, trunk, rfl, hone, htwo, hapart⟩ := ih hnext
      exact ⟨entry :: before, after, trunk, rfl, hone, htwo, hapart⟩
    · refine ⟨[], entry :: commands, _, rfl, rfl, h.symm, ?_⟩
      intro first more rest hafter hsame
      obtain ⟨rfl, hcommands⟩ : entry = first ∧ commands = more ++ rest :=
        List.cons.inj hafter
      rw [hcommands, ancestor_append, ancestor_append] at hnext
      exact hnext (congrArg _ hsame)

/-- Lineages split at one time only. -/
theorem Splits.unique {one two trunk other : Nat}
    {before after early late : List (Nat × Command)}
    (h : f.Splits before after one two trunk)
    (hother : f.Splits early late one two other)
    (hsame : before ++ after = early ++ late) :
    before = early ∧ trunk = other := by
  rcases List.append_eq_append_iff.mp hsame with
    ⟨more, rfl, rfl⟩ | ⟨more, rfl, rfl⟩
  · cases more with
    | nil =>
      rw [List.append_nil] at hother
      exact ⟨(List.append_nil _).symm, h.one_from.symm.trans hother.one_from⟩
    | cons entry more =>
      exact absurd (hother.one_from.trans hother.two_from.symm) (h.apart rfl)
  · cases more with
    | nil =>
      rw [List.append_nil] at h
      exact ⟨List.append_nil _, h.one_from.symm.trans hother.one_from⟩
    | cons entry more =>
      exact absurd (h.one_from.trans h.two_from.symm) (hother.apart rfl)

end Formulary.StoreFamily
