/-!
# Rule tables

A rule table files one value under each of a list of distinct names and keeps the order in
which the names were first filed. Filing a value under a name that is already there replaces
the value and leaves the order alone.
-/

namespace ContextFree

/-- Values under distinct names, in the order in which the names were first filed. -/
structure RuleTable (α : Type) where
  entries : List (String × α)
  nodup_names : (entries.map Prod.fst).Nodup
deriving DecidableEq

namespace RuleTable

variable {α β : Type}

/-- The table without names. -/
def empty : RuleTable α := ⟨[], List.nodup_nil⟩

instance : Inhabited (RuleTable α) := ⟨empty⟩

/-- The names, in order. -/
def names (table : RuleTable α) : List String := table.entries.map Prod.fst

/-- The values, in the order of their names. -/
def values (table : RuleTable α) : List α := table.entries.map Prod.snd

/-- The number of names. -/
def size (table : RuleTable α) : Nat := table.entries.length

/-- The value filed under `name`. -/
def get? (table : RuleTable α) (name : String) : Option α := table.entries.lookup name

/-- Whether something is filed under `name`. -/
def contains (table : RuleTable α) (name : String) : Bool := table.names.contains name

/-- The place of `name` in the order of names. -/
def indexOf? (table : RuleTable α) (name : String) : Option Nat := table.names.idxOf? name

/-- The entries with the value under `name` replaced by `value`. -/
def replaced (name : String) (value : α) (entries : List (String × α)) : List (String × α) :=
  entries.map fun entry => if entry.1 = name then (name, value) else entry

theorem map_fst_replaced (name : String) (value : α) (entries : List (String × α)) :
    (replaced name value entries).map Prod.fst = entries.map Prod.fst := by
  induction entries with
  | nil => rfl
  | cons entry rest ih =>
    unfold replaced at ih ⊢
    rw [List.map_cons, List.map_cons, List.map_cons, ih]
    by_cases h : entry.1 = name
    · rw [if_pos h, h]
    · rw [if_neg h]

/-- Files `value` under `name`: in place of the value there, or behind all others. -/
def insert (table : RuleTable α) (name : String) (value : α) : RuleTable α :=
  if h : name ∈ table.names then
    ⟨replaced name value table.entries, by
      rw [map_fst_replaced]
      exact table.nodup_names⟩
  else
    ⟨table.entries ++ [(name, value)], by
      rw [List.map_append, List.nodup_append]
      refine ⟨table.nodup_names, by simp, ?_⟩
      intro a ha b hb hab
      rw [List.map_singleton, List.mem_singleton] at hb
      rw [hab, hb] at ha
      exact h ha⟩

/-- The table that results from filing the entries of a list one after another. -/
def ofList (entries : List (String × α)) : RuleTable α :=
  entries.foldl (fun table entry => table.insert entry.1 entry.2) empty

/-- The same names with new values. -/
def mapValues (f : String → α → β) (table : RuleTable α) : RuleTable β :=
  ⟨table.entries.map fun entry => (entry.1, f entry.1 entry.2), by
    rw [List.map_map]
    exact table.nodup_names⟩

/-- The entries whose name passes `keep`, in order. -/
def filterNames (keep : String → Bool) (table : RuleTable α) : RuleTable α :=
  ⟨table.entries.filter fun entry => keep entry.1,
    (List.filter_sublist.map Prod.fst).nodup table.nodup_names⟩

/-- Adds `value` at the end of the list under `name`, which is empty before the first one. -/
def push (table : RuleTable (List α)) (name : String) (value : α) : RuleTable (List α) :=
  table.insert name ((table.get? name).getD [] ++ [value])

/-! ## What the operations do to the names and to a look-up -/

@[simp]
theorem names_mapValues (f : String → α → β) (table : RuleTable α) :
    (table.mapValues f).names = table.names := by
  simp [names, mapValues, List.map_map, Function.comp_def]

theorem names_filterNames (keep : String → Bool) (table : RuleTable α) :
    (table.filterNames keep).names = table.names.filter keep := by
  simp [names, filterNames, List.filter_map, Function.comp_def]

theorem names_insert (table : RuleTable α) (name : String) (value : α) :
    (table.insert name value).names =
      if name ∈ table.names then table.names else table.names ++ [name] := by
  by_cases h : name ∈ table.names
  · rw [if_pos h, insert, dif_pos h]
    exact map_fst_replaced name value table.entries
  · rw [if_neg h, insert, dif_neg h]
    simp [names]

theorem contains_iff_mem {table : RuleTable α} {name : String} :
    table.contains name = true ↔ name ∈ table.names := by
  simp [contains]

end RuleTable

end ContextFree
