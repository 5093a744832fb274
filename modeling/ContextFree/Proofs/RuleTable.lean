import ContextFree.RuleTable

/-!
# Look-up in rule tables

Since the names of a table are distinct, looking a name up and searching the entries for it
come to the same. The operations on tables are described by what they do to a look-up, and
`ofList` by its entries: a list with distinct names is filed as it stands.
-/

namespace ContextFree.RuleTable

variable {α β : Type}

theorem mem_names_iff {table : RuleTable α} {name : String} :
    name ∈ table.names ↔ ∃ value, (name, value) ∈ table.entries := by
  simp [names]

/-- In a list with distinct names, the first value found under a name is the only one. -/
theorem lookup_eq_some_iff_mem {κ : Type} [BEq κ] [LawfulBEq κ] {entries : List (κ × α)}
    {name : κ} {value : α} (distinct : (entries.map Prod.fst).Nodup) :
    entries.lookup name = some value ↔ (name, value) ∈ entries := by
  induction entries with
  | nil => simp
  | cons entry rest ih =>
    obtain ⟨first, content⟩ := entry
    rw [List.map_cons, List.nodup_cons] at distinct
    rw [List.lookup_cons, List.mem_cons, Prod.mk.injEq]
    by_cases equal : name = first
    · subst equal
      have absent : (name, value) ∉ rest := fun member =>
        distinct.1 (List.mem_map.mpr ⟨_, member, rfl⟩)
      simp [absent, eq_comm]
    · have different : (name == first) = false := by simpa using equal
      simp only [different, equal, false_and, false_or]
      exact ih distinct.2

theorem get?_eq_some_iff {table : RuleTable α} {name : String} {value : α} :
    table.get? name = some value ↔ (name, value) ∈ table.entries :=
  lookup_eq_some_iff_mem table.nodup_names

theorem get?_eq_none_iff {table : RuleTable α} {name : String} :
    table.get? name = none ↔ name ∉ table.names := by
  rw [mem_names_iff, Option.eq_none_iff_forall_ne_some, not_exists]
  exact forall_congr' fun value => not_congr get?_eq_some_iff

/-- A value of the list filed under a name, where nothing filed counts as the empty list. -/
theorem mem_getD_iff {table : RuleTable (List α)} {name : String} {value : α} :
    value ∈ (table.get? name).getD [] ↔
      ∃ values, (name, values) ∈ table.entries ∧ value ∈ values := by
  constructor
  · intro member
    cases found : table.get? name with
    | none => simp [found] at member
    | some values =>
      rw [found, Option.getD_some] at member
      exact ⟨values, get?_eq_some_iff.mp found, member⟩
  · rintro ⟨values, filed, member⟩
    rw [get?_eq_some_iff.mpr filed]
    exact member

/-- The place of a name is where it stands in the order of names. -/
theorem indexOf?_eq_some_iff {table : RuleTable α} {name : String} {place : Nat} :
    table.indexOf? name = some place ↔ table.names[place]? = some name := by
  rw [indexOf?, List.idxOf?_eq_some_iff, List.getElem?_eq_some_iff]
  constructor
  · rintro ⟨bound, equal, -⟩
    exact ⟨bound, equal⟩
  · rintro ⟨bound, equal⟩
    refine ⟨bound, equal, fun earlier before same => ?_⟩
    have places := (List.getElem_inj table.nodup_names).mp (same.trans equal.symm)
    omega

/-! ## What the operations do -/

@[simp]
theorem get?_mapValues (f : String → α → β) (table : RuleTable α) (name : String) :
    (table.mapValues f).get? name = (table.get? name).map (f name) := by
  cases found : table.get? name with
  | none =>
    rw [Option.map_none, get?_eq_none_iff, names_mapValues]
    exact get?_eq_none_iff.mp found
  | some value =>
    rw [Option.map_some, get?_eq_some_iff]
    exact List.mem_map.mpr ⟨_, get?_eq_some_iff.mp found, rfl⟩

theorem get?_filterNames (keep : String → Bool) (table : RuleTable α) (name : String) :
    (table.filterNames keep).get? name = if keep name then table.get? name else none := by
  apply Option.ext
  intro value
  rw [get?_eq_some_iff]
  simp only [filterNames, List.mem_filter]
  by_cases kept : keep name = true
  · simp [kept, get?_eq_some_iff]
  · simp [kept]

theorem entries_insert_of_notMem {table : RuleTable α} {name : String} (value : α)
    (absent : name ∉ table.names) :
    (table.insert name value).entries = table.entries ++ [(name, value)] := by
  rw [insert, dif_neg absent]

/-- Filing entries with names that are new and distinct puts them behind the others. -/
theorem entries_foldl_insert (entries : List (String × α)) (table : RuleTable α)
    (distinct : (table.names ++ entries.map Prod.fst).Nodup) :
    (entries.foldl (fun table entry => table.insert entry.1 entry.2) table).entries =
      table.entries ++ entries := by
  induction entries generalizing table with
  | nil => simp
  | cons entry rest ih =>
    have absent : entry.1 ∉ table.names := fun member =>
      (List.nodup_append.mp distinct).2.2 _ member _ (by simp) rfl
    have filed := entries_insert_of_notMem entry.2 absent
    have names : (table.insert entry.1 entry.2).names = table.names ++ [entry.1] := by
      rw [names_insert, if_neg absent]
    rw [List.foldl_cons, ih, filed, List.append_assoc, List.singleton_append]
    rw [names, List.append_assoc]
    exact distinct

/-- A list with distinct names is filed as it stands. -/
theorem entries_ofList {entries : List (String × α)} (distinct : (entries.map Prod.fst).Nodup) :
    (ofList entries).entries = entries :=
  entries_foldl_insert entries empty distinct

/-- A table is its list of entries. -/
theorem eq_of_entries_eq {first second : RuleTable α} (same : first.entries = second.entries) :
    first = second := by
  cases first
  cases second
  simpa using same

theorem ofList_entries (table : RuleTable α) : ofList table.entries = table :=
  eq_of_entries_eq (entries_ofList table.nodup_names)

theorem lookup_replaced (name : String) (value : α) (entries : List (String × α))
    (other : String) :
    (replaced name value entries).lookup other =
      (entries.lookup other).map fun old => if other = name then value else old := by
  induction entries with
  | nil => rfl
  | cons entry rest ih =>
    unfold replaced at ih ⊢
    rw [List.map_cons, List.lookup_cons, List.lookup_cons, ih]
    by_cases here : other = entry.1
    · subst here
      by_cases renewed : entry.1 = name <;> simp [renewed]
    · have missed : (other == entry.1) = false := by simpa using here
      by_cases renewed : entry.1 = name
      · subst renewed
        simp [missed, here]
      · simp [missed, renewed]

/-- Filing a value changes what is found under its name only. -/
theorem get?_insert (table : RuleTable α) (name : String) (value : α) (other : String) :
    (table.insert name value).get? other =
      if other = name then some value else table.get? other := by
  by_cases filed : name ∈ table.names
  · obtain ⟨old, member⟩ := mem_names_iff.mp filed
    rw [insert, dif_pos filed, get?, lookup_replaced, ← get?]
    by_cases equal : other = name
    · subst equal
      simp [get?_eq_some_iff.mpr member]
    · simp [equal]
  · rw [get?, entries_insert_of_notMem value filed, List.lookup_append, ← get?]
    by_cases equal : other = name
    · subst equal
      simp [get?_eq_none_iff.mpr filed]
    · have missed : (other == name) = false := by simpa using equal
      simp [equal, List.lookup_cons, missed]

theorem getD_push (table : RuleTable (List α)) (name : String) (value : α) (other : String) :
    ((table.push name value).get? other).getD [] =
      (table.get? other).getD [] ++ if other = name then [value] else [] := by
  rw [push, get?_insert]
  by_cases equal : other = name
  · subst equal
    simp
  · simp [equal]

/-- A table of lists is determined by its names, in order, and the list under each of them. -/
theorem entries_eq_map (table : RuleTable (List α)) :
    table.entries = table.names.map fun name => (name, (table.get? name).getD []) := by
  rw [names, List.map_map]
  refine (List.map_id' _).symm.trans (List.map_congr_left fun entry filed => ?_)
  have found : table.get? entry.1 = some entry.2 := get?_eq_some_iff.mpr filed
  rw [Function.comp_apply, found]
  rfl

theorem ext_getD {first second : RuleTable (List α)} (sameNames : first.names = second.names)
    (sameValues : ∀ name, (first.get? name).getD [] = (second.get? name).getD []) :
    first = second := by
  apply eq_of_entries_eq
  rw [entries_eq_map first, entries_eq_map second, sameNames]
  simp only [sameValues]

end ContextFree.RuleTable
