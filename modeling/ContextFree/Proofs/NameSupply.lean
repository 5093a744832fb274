import ContextFree.Name.Supply
import Mathlib.Data.List.Perm.Subperm

/-!
# Names handed out by a supply are new

The numbered names of an origin are distinct, so that one of `n + 1` successive numbers has a
name that is not among `n` names in use: the bounded search of a supply always succeeds.
`Issues` follows a supply over a whole run. The names issued in a run are distinct, none of them
was in use before, and all of them are in use afterwards.
-/

namespace ContextFree

namespace Origin

theorem name_injective (origin : Origin) {m n : Nat} (equal : origin.name m = origin.name n) :
    m = n := by
  have digits : toString m = toString n := by
    rw [name, name, String.append_left_inj, String.append_right_inj] at equal
    exact equal
  rw [Nat.toString_eq_repr, Nat.toString_eq_repr] at digits
  have lists : Nat.toDigits 10 m = Nat.toDigits 10 n := by
    rw [← Nat.toList_repr, ← Nat.toList_repr, digits]
  have values := congrArg (fun digits => Nat.ofDigitChars 10 digits 0) lists
  simpa using values

end Origin

namespace NameSupply

/-- A number whose name is in use is found only after all tries have met names in use. -/
theorem mem_used_of_firstUnused {used : List String} {origin : Origin} {tries number : Nat}
    (taken : origin.name (firstUnused used origin tries number) ∈ used) :
    ∀ offset < tries, origin.name (number + offset) ∈ used := by
  induction tries generalizing number with
  | zero =>
    intro offset bound
    omega
  | succ tries ih =>
    rw [firstUnused] at taken
    by_cases first : origin.name number ∈ used
    · rw [if_pos (by simpa using first)] at taken
      intro offset bound
      cases offset with
      | zero => exact first
      | succ offset =>
        have later := ih taken offset (by omega)
        rwa [Nat.add_right_comm, Nat.add_assoc] at later
    · rw [if_neg (by simpa using first)] at taken
      exact absurd taken first

/-- Among `n + 1` numbers one has a name that is not among `n` names in use. -/
theorem firstUnused_notMem (used : List String) (origin : Origin) (number : Nat) :
    origin.name (firstUnused used origin (used.length + 1) number) ∉ used := by
  intro taken
  have allTaken := mem_used_of_firstUnused taken
  have distinct : ((List.range (used.length + 1)).map fun offset =>
      origin.name (number + offset)).Nodup := by
    refine List.Pairwise.map _ ?_ List.nodup_range
    intro first second different equal
    have sums := origin.name_injective equal
    omega
  have inUse : ((List.range (used.length + 1)).map fun offset =>
      origin.name (number + offset)) ⊆ used := by
    intro name member
    obtain ⟨offset, bound, rfl⟩ := List.mem_map.mp member
    exact allTaken offset (List.mem_range.mp bound)
  have bound := (List.subperm_of_subset distinct inUse).length_le
  rw [List.length_map, List.length_range] at bound
  omega

theorem fresh_notMem (supply : NameSupply) (origin : Origin) :
    (supply.fresh origin).1 ∉ supply.used :=
  firstUnused_notMem supply.used origin supply.counter

@[simp]
theorem used_fresh (supply : NameSupply) (origin : Origin) :
    (supply.fresh origin).2.used = (supply.fresh origin).1 :: supply.used := rfl

theorem exists_fresh_eq (supply : NameSupply) (origin : Origin) :
    ∃ number, (supply.fresh origin).1 = origin.name number := ⟨_, rfl⟩

/-! ## Runs of a supply -/

/-- The supply hands out the names, one after another, and is then the later one. -/
inductive Issues : NameSupply → List String → NameSupply → Prop
  | nil (supply : NameSupply) : Issues supply [] supply
  | cons (origin : Origin) {supply later : NameSupply} {names : List String} :
      Issues (supply.fresh origin).2 names later →
      Issues supply ((supply.fresh origin).1 :: names) later

namespace Issues

variable {supply later last : NameSupply} {names others : List String}

theorem append (issues : Issues supply names later) (further : Issues later others last) :
    Issues supply (names ++ others) last := by
  induction issues with
  | nil => exact further
  | cons origin _ ih => exact .cons origin (ih further)

/-- After a run, the names issued and those in use before it are in use. -/
theorem mem_used_iff (issues : Issues supply names later) {name : String} :
    name ∈ later.used ↔ name ∈ names ∨ name ∈ supply.used := by
  induction issues with
  | nil => simp
  | cons origin _ ih =>
    rw [ih, used_fresh, List.mem_cons, List.mem_cons]
    constructor
    · rintro (member | equal | member)
      · exact .inl (.inr member)
      · exact .inl (.inl equal)
      · exact .inr member
    · rintro ((equal | member) | member)
      · exact .inr (.inl equal)
      · exact .inl member
      · exact .inr (.inr member)

/-- No name is issued that was in use before. -/
theorem notMem_used (issues : Issues supply names later) : ∀ name ∈ names, name ∉ supply.used := by
  induction issues with
  | nil =>
    intro name member
    cases member
  | cons origin _ ih =>
    intro name member
    rcases List.mem_cons.mp member with equal | member
    · rw [equal]
      exact fresh_notMem _ origin
    · intro taken
      exact ih name member (List.mem_cons_of_mem _ taken)

/-- No name is issued twice. -/
theorem nodup (issues : Issues supply names later) : names.Nodup := by
  induction issues with
  | nil => exact List.nodup_nil
  | cons origin further ih =>
    refine List.nodup_cons.mpr ⟨fun again => ?_, ih⟩
    exact further.notMem_used _ again List.mem_cons_self

end Issues

/-- One name for each element of a list is a run of the supply. -/
theorem issues_freshFor {α : Type} (origin : Origin) (items : List α) (supply : NameSupply) :
    Issues supply ((freshFor origin items supply).1.map Prod.snd)
      (freshFor origin items supply).2 := by
  induction items generalizing supply with
  | nil => exact .nil supply
  | cons item rest ih => exact .cons origin (ih (supply.fresh origin).2)

@[simp]
theorem map_fst_freshFor {α : Type} (origin : Origin) (items : List α) (supply : NameSupply) :
    (freshFor origin items supply).1.map Prod.fst = items := by
  induction items generalizing supply with
  | nil => rfl
  | cons item rest ih => exact congrArg (item :: ·) (ih (supply.fresh origin).2)

end NameSupply

end ContextFree
