import ContextFree.Proofs.ConversionText
import Mathlib.Order.Bounds.Basic

/-!
# Runs of a name supply

For each name a supply tries one number after another, from its counter on, until it meets a name
that is not in use. `Finds` is this search, which nothing bounds. It always comes to an end, since
all but finitely many numbers have unused names, and it ends with the least number that will do.
The counter then stands behind that number, so that over a whole run, whatever the names are for,
the numbers ascend.
-/

namespace ContextFree.NameSupply

/-! ## The search for one name -/

/-- From the one number on, the search for an unused name ends with the other. -/
inductive Finds (used : List String) (origin : Origin) : Nat → Nat → Prop
  | here {number : Nat} : origin.name number ∉ used → Finds used origin number number
  | next {number found : Nat} : origin.name number ∈ used → Finds used origin (number + 1) found →
      Finds used origin number found

variable {used : List String} {origin : Origin} {number found : Nat}

/-- What the search ends with is the least number that it could end with. -/
theorem Finds.isLeast (finds : Finds used origin number found) :
    IsLeast {other | number ≤ other ∧ origin.name other ∉ used} found := by
  induction finds with
  | here unused => exact ⟨⟨Nat.le_refl _, unused⟩, fun _ suitable => suitable.1⟩
  | @next number found taken _ ih =>
    obtain ⟨⟨bound, unused⟩, least⟩ := ih
    refine ⟨⟨by omega, unused⟩, fun other suitable => least ⟨?_, suitable.2⟩⟩
    -- The number that was passed over is not suitable, so a suitable one lies behind it.
    have different : number ≠ other := fun equal => suitable.2 (equal ▸ taken)
    have above : number ≤ other := suitable.1
    omega

/-- A bounded search that has found something agrees with the unbounded one. -/
theorem finds_of_firstUnused_notMem {tries : Nat}
    (unused : origin.name (firstUnused used origin tries number) ∉ used) :
    Finds used origin number (firstUnused used origin tries number) := by
  induction tries generalizing number with
  | zero => exact .here unused
  | succ tries ih =>
    rw [firstUnused] at unused ⊢
    by_cases taken : origin.name number ∈ used
    · rw [if_pos (by simpa using taken)] at unused ⊢
      exact .next taken (ih unused)
    · rw [if_neg (by simpa using taken)]
      exact .here taken

/-- The search for a name comes to an end, and the supply hands out the name that it ends with. -/
theorem exists_finds (supply : NameSupply) (origin : Origin) :
    ∃ number, Finds supply.used origin supply.counter number ∧
      supply.fresh origin =
        (origin.name number, ⟨number + 1, origin.name number :: supply.used⟩) :=
  ⟨_, finds_of_firstUnused_notMem (firstUnused_notMem supply.used origin supply.counter), rfl⟩

/-! ## Names for a list of origins -/

/-- Fresh names for the origins, one after another, and the supply after the last one. -/
def issue : List Origin → NameSupply → List String × NameSupply
  | [], supply => ([], supply)
  | origin :: origins, supply =>
    ((supply.fresh origin).1 :: (issue origins (supply.fresh origin).2).1,
      (issue origins (supply.fresh origin).2).2)

variable (origins : List Origin) (supply : NameSupply)

theorem issues_issue : Issues supply (issue origins supply).1 (issue origins supply).2 := by
  induction origins generalizing supply with
  | nil => exact .nil supply
  | cons origin rest ih => exact .cons origin (ih (supply.fresh origin).2)

/-- The last name of a run comes from the supply as the run before it has left it. -/
theorem issue_append_singleton (origin : Origin) :
    issue (origins ++ [origin]) supply =
      ((issue origins supply).1 ++ [((issue origins supply).2.fresh origin).1],
        ((issue origins supply).2.fresh origin).2) := by
  induction origins generalizing supply with
  | nil => rfl
  | cons first rest ih => rw [List.cons_append, issue, ih, issue, List.cons_append]

/-- The numbers in the names of a run ascend, from the counter on. -/
theorem exists_numbers_issue :
    ∃ numbers : List Nat, numbers.length = origins.length ∧
      (issue origins supply).1 = List.zipWith Origin.name origins numbers ∧
      numbers.Pairwise (· < ·) ∧ ∀ number ∈ numbers, supply.counter ≤ number := by
  induction origins generalizing supply with
  | nil => exact ⟨[], rfl, rfl, .nil, by simp⟩
  | cons origin rest ih =>
    obtain ⟨number, finds, issued⟩ := supply.exists_finds origin
    obtain ⟨numbers, length, names, ascending, above⟩ := ih (supply.fresh origin).2
    rw [issued] at names above
    have bound := finds.isLeast.1.1
    refine ⟨number :: numbers, by rw [List.length_cons, length, List.length_cons], ?_,
      List.pairwise_cons.mpr ⟨above, ascending⟩, ?_⟩
    · rw [issue, issued, names, List.zipWith_cons_cons]
    · intro other member
      rcases List.mem_cons.mp member with rfl | member
      · exact bound
      · have behind := above other member
        exact Nat.le_trans bound (Nat.le_of_succ_le behind)

/-- Over a whole run from a grammar, for whatever origins, the names issued bear ascending numbers,
are distinct, can be written in the notation and are not among the nonterminals of the grammar. Just
these and the nonterminals are then in use, and the search for another name, whatever it is for,
ends with the least number, not below the counter, whose name is not. -/
theorem issue_ofGrammar_fresh (g : Grammar) (origins : List Origin) :
    ∃ names numbers supply, issue origins (.ofGrammar g) = (names, supply) ∧
      numbers.length = origins.length ∧ names = List.zipWith Origin.name origins numbers ∧
      numbers.Pairwise (· < ·) ∧ names.Nodup ∧
      (∀ name ∈ names, name ∉ g.nonterminals ∧ Name.isNonterminalName name = true) ∧
      (∀ name, supply.isUsed name = true ↔ name ∈ g.nonterminals ∨ name ∈ names) ∧
      ∀ origin, ∃ number later, Finds supply.used origin supply.counter number ∧
        IsLeast {number | supply.counter ≤ number ∧ supply.isUsed (origin.name number) = false}
          number ∧
        supply.fresh origin = (origin.name number, later) ∧ later.counter = number + 1 ∧
        issue (origins ++ [origin]) (.ofGrammar g) = (names ++ [origin.name number], later) := by
  have issues := issues_issue origins (.ofGrammar g)
  obtain ⟨numbers, length, names, ascending, -⟩ := exists_numbers_issue origins (.ofGrammar g)
  refine ⟨_, numbers, _, rfl, length, names, ascending, issues.nodup, fun name member => ?_,
    fun name => ?_, fun origin => ?_⟩
  · obtain ⟨origin, number, rfl⟩ := issues.exists_origin name member
    exact ⟨issues.notMem_used _ member, Origin.isNonterminalName_name origin number⟩
  · rw [isUsed, List.contains_iff_mem, issues.mem_used_iff, or_comm]
    exact Iff.rfl
  · obtain ⟨number, finds, issued⟩ := exists_finds (issue origins (.ofGrammar g)).2 origin
    refine ⟨number, _, finds, ?_, issued, rfl, ?_⟩
    · simpa [isUsed] using finds.isLeast
    · rw [issue_append_singleton, issued]

example : issue [.start, .link, .link, .helper] ⟨1, ["S", "[BIN2]", "[BIN4]"]⟩ =
    (["[START1]", "[BIN3]", "[BIN5]", "[TERM6]"],
      ⟨7, ["[TERM6]", "[BIN5]", "[BIN3]", "[START1]", "S", "[BIN2]", "[BIN4]"]⟩) := by
  decide

end ContextFree.NameSupply
