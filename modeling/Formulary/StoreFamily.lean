import Formulary.Scope

/-!
# Families of variable stores

Stores that descend from one another share cells.  A copy of a store has the
cells that were there when it was made, so an assignment through one of the two
shows in the other; names that come in later are each store's own.  A cell can
also be held under a label, apart from every store.

* `StoreFamily.step` carries out one command on one store.
-/

namespace Formulary

/-- Variable stores on one memory, and the cells held under labels. -/
structure StoreFamily where
  memory : Memory := .empty
  stores : List Store := [.empty]
  held : Dictionary Cell := .empty

namespace StoreFamily

/-- What can be done with a store or a held cell. -/
inductive Command where
  /-- Declares a name, reads it, and holds its cell under a label. -/
  | hold (name label : String)
  | set (name : String) (value : Float)
  | get (name : String)
  | contains (name : String)
  | readCell (label : String)
  | writeCell (label : String) (value : Float)
  /-- Adds a copy of the store to the family. -/
  | copy

/-- What a command is answered with. -/
inductive Answer where
  | done
  | nothing
  | number (value : Float)
  | truth (value : Bool)
  /-- The place of a new store in the family. -/
  | index (value : Nat)

/-- A store of the family with its memory. -/
def scope (f : StoreFamily) (store : Store) : Scope where
  store
  memory := f.memory

/-- The family with a scope in place of the store at the index. -/
def update (f : StoreFamily) (index : Nat) (s : Scope) : StoreFamily :=
  { f with stores := f.stores.set index s.store, memory := s.memory }

/-- Carries out a command on the store at the index, which is given. -/
def perform (f : StoreFamily) (index : Nat) (store : Store) :
    Command → Answer × StoreFamily
  | .hold name label =>
    let cell := (f.scope store).cellOf name
    let declared := (f.scope store).declare name
    (.number (declared.memory.read cell),
      { f.update index declared with held := f.held.insert label cell })
  | .set name value => (.done, f.update index ((f.scope store).set name value))
  | .get name =>
    match (f.scope store).get? name with
    | some value => (.number value, f)
    | none => (.nothing, f)
  | .contains name => (.truth (store.contains name), f)
  | .readCell label =>
    match f.held.find? label with
    | some cell => (.number (f.memory.read cell), f)
    | none => (.nothing, f)
  | .writeCell label value =>
    match f.held.find? label with
    | some cell => (.done, { f with memory := f.memory.write cell value })
    | none => (.nothing, f)
  | .copy => (.index f.stores.length, { f with stores := f.stores ++ [store] })

/-- Carries out a command on one of the stores. -/
def step (f : StoreFamily) (index : Nat) (command : Command) :
    Answer × StoreFamily :=
  match f.stores[index]? with
  | some store => f.perform index store command
  | none => (.nothing, f)

/-- The family after a list of commands. -/
def run (f : StoreFamily) (commands : List (Nat × Command)) : StoreFamily :=
  commands.foldl (fun f (index, command) => (f.step index command).2) f

end StoreFamily

end Formulary
