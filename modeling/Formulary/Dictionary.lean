/-!
# Dictionaries with unique keys

A dictionary lists its entries in the order in which their keys first came in.
No key occurs twice, and the type says so.  Function tables and variable stores
are dictionaries.

* `insert` replaces the value of a key or adds an entry at the end;
* `find?_insert` gives every look-up after an insertion.
-/

namespace Formulary

/-- Values under distinct text keys. -/
structure Dictionary (α : Type) where
  entries : List (String × α)
  distinct : (entries.map Prod.fst).Nodup := by simp

namespace Dictionary

variable {α : Type}

/-- The dictionary without entries. -/
def empty : Dictionary α where
  entries := []

/-- The keys in the order of their first insertion. -/
def keys (d : Dictionary α) : List String :=
  d.entries.map Prod.fst

/-- The value under a key. -/
def find? (d : Dictionary α) (key : String) : Option α :=
  d.entries.lookup key

/-- Whether there is a value under the key. -/
def contains (d : Dictionary α) (key : String) : Bool :=
  (d.find? key).isSome

/-- The number of entries. -/
def size (d : Dictionary α) : Nat :=
  d.entries.length

/-- Whether there are no entries. -/
def isEmpty (d : Dictionary α) : Bool :=
  d.entries.isEmpty

/-- An entry with the new value where it has the key, and as it is otherwise. -/
private def replaceEntry (key : String) (value : α) (entry : String × α) :
    String × α :=
  if entry.1 = key then (key, value) else entry

private theorem fst_replaceEntry (key : String) (value : α)
    (entry : String × α) : (replaceEntry key value entry).1 = entry.1 := by
  unfold replaceEntry
  split <;> simp_all

/-- Puts a value under a key in place of the one that was there. -/
def insert (d : Dictionary α) (key : String) (value : α) : Dictionary α :=
  if h : key ∈ d.keys then
    { entries := d.entries.map (replaceEntry key value)
      distinct := by
        have hkeys : (d.entries.map (replaceEntry key value)).map Prod.fst =
            d.entries.map Prod.fst := by
          simp [Function.comp_def, fst_replaceEntry]
        rw [hkeys]
        exact d.distinct }
  else
    { entries := d.entries ++ [(key, value)]
      distinct := by
        rw [List.map_append, List.nodup_append]
        refine ⟨d.distinct, by simp, ?_⟩
        rintro a ha b hb rfl
        simp only [List.map_cons, List.map_nil, List.mem_singleton] at hb
        exact h (hb ▸ ha) }

/-- The dictionary that the entries build when inserted from left to right. -/
def ofList (entries : List (String × α)) : Dictionary α :=
  entries.foldl (fun d entry => d.insert entry.1 entry.2) empty

/-- The entries with the keys in ascending order of code points. -/
def sorted (d : Dictionary α) : List (String × α) :=
  d.entries.mergeSort fun a b => a.1 ≤ b.1

private theorem lookup_replace (entries : List (String × α))
    (key : String) (value : α) (other : String) :
    (entries.map (replaceEntry key value)).lookup other =
      if other = key then (entries.lookup key).map fun _ => value
      else entries.lookup other := by
  induction entries with
  | nil => simp
  | cons entry rest ih =>
    obtain ⟨k, v⟩ := entry
    by_cases hk : k = key <;> by_cases ho : other = key <;>
      simp_all [replaceEntry, List.lookup_cons]
    all_goals grind

private theorem lookup_eq_none_of_not_mem {entries : List (String × α)}
    {key : String} (h : key ∉ entries.map Prod.fst) :
    entries.lookup key = none := by
  rw [List.lookup_eq_none_iff]
  intro entry hentry
  rw [bne_iff_ne]
  rintro rfl
  exact h (List.mem_map_of_mem hentry)

private theorem lookup_isSome_of_mem {entries : List (String × α)}
    {key : String} (h : key ∈ entries.map Prod.fst) :
    (entries.lookup key).isSome := by
  obtain ⟨entry, hentry, rfl⟩ := List.mem_map.mp h
  exact List.lookup_isSome_iff.mpr ⟨entry, hentry, by simp⟩

/-- Look-ups after an insertion: the key has the new value, and every other key
has what it had. -/
theorem find?_insert (d : Dictionary α) (key : String) (value : α)
    (other : String) :
    (d.insert key value).find? other =
      if other = key then some value else d.find? other := by
  unfold insert find?
  split
  · rename_i h
    obtain ⟨old, hold⟩ := Option.isSome_iff_exists.mp (lookup_isSome_of_mem h)
    simp only [lookup_replace, hold, Option.map_some]
  · rename_i h
    simp only [List.lookup_append]
    by_cases ho : other = key
    · subst ho
      simp [lookup_eq_none_of_not_mem h]
    · have hne : (other == key) = false := by simpa using ho
      simp [List.lookup_cons, hne, ho]

end Dictionary

end Formulary
