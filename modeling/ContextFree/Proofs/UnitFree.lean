import ContextFree.Grammar.UnitFree
import ContextFree.Proofs.Derivation
import ContextFree.Proofs.Discovery

/-!
# Leaving out unit productions

The unit closure of a nonterminal is what chains of unit productions lead to, whatever cycles
they form. In the unit-free grammar a nonterminal has the other alternatives of all of its
closure, so that a chain of unit productions at the start of a derivation is cut short and
every nonterminal derives the words it did.

`unitFree_takes_over_closures` also says in which order this happens: that of a breadth-first search
through the unit productions, with repeated alternatives left out.
-/

namespace ContextFree

namespace Alternative

theorem unitTarget?_eq_some_iff {alternative : Alternative} {name : String} :
    unitTarget? alternative = some name ↔ alternative = [.nonterminal name] := by
  unfold unitTarget?
  split
  · simp
  · rename_i shape
    simpa using fun equal => shape name equal

theorem isUnit_iff {alternative : Alternative} :
    isUnit alternative = true ↔ ∃ name, alternative = [.nonterminal name] := by
  rw [isUnit, Option.isSome_iff_exists]
  exact exists_congr fun name => unitTarget?_eq_some_iff

end Alternative

namespace Grammar

variable {g : Grammar} {name : String} {word : Word}

/-- Unit productions, any number of them, lead from one nonterminal to another. -/
def UnitReaches (g : Grammar) : String → String → Prop :=
  Relation.ReflTransGen fun origin target => [.nonterminal target] ∈ g.alternatives origin

theorem mem_unitTargets_iff {target : String} :
    target ∈ g.unitTargets name ↔ [.nonterminal target] ∈ g.alternatives name := by
  rw [unitTargets, List.mem_filterMap]
  constructor
  · rintro ⟨alternative, member, leads⟩
    rw [Alternative.unitTarget?_eq_some_iff.mp leads] at member
    exact member
  · intro member
    exact ⟨_, member, rfl⟩

theorem WellFormed.unitTargets_subset (wellFormed : g.WellFormed) (origin : String) :
    g.unitTargets origin ⊆ g.nonterminals := by
  intro target leads
  exact wellFormed.mem_nonterminals (mem_unitTargets_iff.mp leads) List.mem_cons_self

theorem WellFormed.mem_unitClosure_iff (wellFormed : g.WellFormed) {target : String} :
    target ∈ g.unitClosure name ↔ g.UnitReaches name target := by
  rw [unitClosure, mem_reach_nonterminals_iff wellFormed.unitTargets_subset, UnitReaches]
  simp only [mem_unitTargets_iff]

theorem WellFormed.breadthFirst_unitClosure (wellFormed : g.WellFormed) (name : String) :
    BreadthFirst g.unitTargets name (g.unitClosure name) :=
  breadthFirst_reach_nonterminals wellFormed.unitTargets_subset

theorem unitTargets_eq_nil_iff :
    g.unitTargets name = [] ↔
      ∀ alternative ∈ g.alternatives name, Alternative.isUnit alternative = false := by
  simp [unitTargets, List.filterMap_eq_nil_iff, Alternative.isUnit]

/-- A nonterminal without unit productions keeps its alternatives, each once. -/
theorem unitFreeAlternatives_of_notUnit
    (notUnit : ∀ alternative ∈ g.alternatives name, Alternative.isUnit alternative = false) :
    g.unitFreeAlternatives name = (g.alternatives name).eraseDups := by
  have alone : g.unitClosure name = [name] :=
    reach_eq_of_next_eq_nil (unitTargets_eq_nil_iff.mpr notUnit) _
  rw [unitFreeAlternatives, alone, List.flatMap_singleton, List.filter_eq_self.mpr]
  intro alternative member
  rw [notUnit alternative member, Bool.not_false]

/-- A nonterminal that has nothing but a unit production takes over the alternatives of its
target, if these are no unit productions. -/
theorem unitFreeAlternatives_of_unit {target : String}
    (unit : g.alternatives name = [[.nonterminal target]]) (different : target ≠ name)
    (notUnit : ∀ alternative ∈ g.alternatives target, Alternative.isUnit alternative = false) :
    g.unitFreeAlternatives name = (g.alternatives target).eraseDups := by
  have leads : g.unitTargets name = [target] := by
    rw [unitTargets, unit]
    rfl
  have both : g.unitClosure name = [name, target] :=
    reach_eq_of_next_eq_singleton leads (unitTargets_eq_nil_iff.mpr notUnit) different _
  have dropped : Alternative.isUnit [.nonterminal target] = true := rfl
  rw [unitFreeAlternatives, both, List.flatMap_cons, unit, List.flatMap_singleton,
    List.singleton_append, List.filter_cons_of_neg (by simp [dropped]), List.filter_eq_self.mpr]
  intro alternative member
  rw [notUnit alternative member, Bool.not_false]

/-! ## The unit-free grammar -/

@[simp]
theorem start_unitFree : g.unitFree.start = g.start := rfl

@[simp]
theorem nonterminals_unitFree : g.unitFree.nonterminals = g.nonterminals :=
  RuleTable.names_mapValues _ _

theorem WellFormed.mem_unitFreeAlternatives_iff (wellFormed : g.WellFormed)
    {alternative : Alternative} :
    alternative ∈ g.unitFreeAlternatives name ↔
      (∃ target, g.UnitReaches name target ∧ alternative ∈ g.alternatives target) ∧
        ¬ Alternative.isUnit alternative = true := by
  simp [unitFreeAlternatives, wellFormed.mem_unitClosure_iff]

theorem alternatives_unitFree (defined : name ∈ g.nonterminals) :
    g.unitFree.alternatives name = g.unitFreeAlternatives name := by
  obtain ⟨alternatives, filed⟩ := RuleTable.mem_names_iff.mp defined
  rw [Grammar.alternatives, unitFree, RuleTable.get?_mapValues,
    RuleTable.get?_eq_some_iff.mpr filed]
  rfl

/-- A nonterminal takes over the alternatives that unit productions lead to, and no unit
production is left. -/
theorem WellFormed.mem_alternatives_unitFree_iff (wellFormed : g.WellFormed)
    {alternative : Alternative} :
    alternative ∈ g.unitFree.alternatives name ↔
      (∃ target, g.UnitReaches name target ∧ alternative ∈ g.alternatives target) ∧
        ¬ Alternative.isUnit alternative = true := by
  rw [← wellFormed.mem_unitFreeAlternatives_iff]
  constructor
  · intro member
    have defined := mem_nonterminals_of_mem_alternatives member
    rw [nonterminals_unitFree] at defined
    rwa [alternatives_unitFree defined] at member
  · intro member
    obtain ⟨⟨target, leads, listed⟩, -⟩ := wellFormed.mem_unitFreeAlternatives_iff.mp member
    have defined : name ∈ g.nonterminals := by
      rcases leads.cases_head with equal | ⟨next, first, -⟩
      · exact equal ▸ mem_nonterminals_of_mem_alternatives listed
      · exact mem_nonterminals_of_mem_alternatives first
    rwa [alternatives_unitFree defined]

theorem WellFormed.unitFree (wellFormed : g.WellFormed) : g.unitFree.WellFormed := by
  rw [wellFormed_iff, nonterminals_unitFree]
  refine ⟨wellFormed.start_mem, fun name alternative member => ?_⟩
  obtain ⟨⟨target, -, listed⟩, -⟩ := wellFormed.mem_alternatives_unitFree_iff.mp member
  exact ⟨wellFormed.ne_nil_of_mem listed, fun _ => wellFormed.mem_nonterminals listed⟩

theorem UnitReaches.derives {target : String} (leads : g.UnitReaches name target)
    (derives : g.Derives target word) : g.Derives name word := by
  induction leads using Relation.ReflTransGen.head_induction_on with
  | refl => exact derives
  | head step _ ih => exact derives_iff_reads.mpr ⟨_, step, reads_nonterminal.mpr ih⟩

/-- Every nonterminal derives the same words with unit productions and without. -/
theorem WellFormed.derives_unitFree_iff (wellFormed : g.WellFormed) :
    g.unitFree.Derives name word ↔ g.Derives name word := by
  constructor
  · intro derives
    refine derives.of_closed g.Derives ?_
    intro name alternative member word reads
    obtain ⟨⟨target, leads, listed⟩, -⟩ := wellFormed.mem_alternatives_unitFree_iff.mp member
    exact leads.derives (derives_iff_reads.mpr ⟨alternative, listed, reads⟩)
  · intro derives
    refine derives.of_closed g.unitFree.Derives ?_
    intro name alternative member word reads
    by_cases unit : Alternative.isUnit alternative = true
    · obtain ⟨target, rfl⟩ := Alternative.isUnit_iff.mp unit
      -- The target's own derivation starts with an alternative that its closure provides.
      obtain ⟨other, taken, readsOther⟩ := derives_iff_reads.mp (reads_nonterminal.mp reads)
      obtain ⟨⟨final, leads, listed⟩, proper⟩ :=
        wellFormed.mem_alternatives_unitFree_iff.mp taken
      refine derives_iff_reads.mpr ⟨other, ?_, readsOther⟩
      exact wellFormed.mem_alternatives_unitFree_iff.mpr
        ⟨⟨final, leads.head member, listed⟩, proper⟩
    · refine derives_iff_reads.mpr ⟨alternative, ?_, reads⟩
      exact wellFormed.mem_alternatives_unitFree_iff.mpr ⟨⟨name, .refl, member⟩, unit⟩

/-- A nonterminal of the unit-free grammar has the alternatives, other than unit productions, of all
that its unit productions lead to: in the order of a breadth-first search from the nonterminal
itself, each where it first occurs. It derives what it did. -/
theorem unitFree_takes_over_closures {start : String} {rules : RuleTable (List Alternative)}
    (accepted : ofRules start rules = .ok g) :
    g.unitFree.start = g.start ∧ g.unitFree.nonterminals = g.nonterminals ∧
      ∀ name ∈ g.nonterminals,
        (∀ target, [.nonterminal target] ∉ g.unitFree.alternatives name) ∧
        (g.unitFree.alternatives name).Nodup ∧
        FirstOccurrences
          (((g.unitClosure name).flatMap g.alternatives).filter (!Alternative.isUnit ·))
          (g.unitFree.alternatives name) ∧
        BreadthFirst g.unitTargets name (g.unitClosure name) ∧
        (∀ target, target ∈ g.unitClosure name ↔ g.UnitReaches name target) ∧
        ∀ word, g.unitFree.Derives name word ↔ g.Derives name word := by
  have wellFormed : g.WellFormed := (ofRules_eq_ok_iff.mp accepted).2
  refine ⟨start_unitFree, nonterminals_unitFree, fun name defined => ?_⟩
  have listed := alternatives_unitFree defined
  refine ⟨fun target member => ?_, ?_, ?_, wellFormed.breadthFirst_unitClosure name,
    fun target => wellFormed.mem_unitClosure_iff, fun word => wellFormed.derives_unitFree_iff⟩
  · obtain ⟨-, proper⟩ := wellFormed.mem_alternatives_unitFree_iff.mp member
    exact proper (Alternative.isUnit_iff.mpr ⟨target, rfl⟩)
  · rw [listed]
    exact nodup_eraseDups _
  · rw [listed]
    exact firstOccurrences_eraseDups _

/-- Unit productions in a loop and in a circle, and two ways from `A` to `B`. -/
def entangled : Grammar :=
  ⟨"S", ⟨[("S", [[.nonterminal "S"], [.nonterminal "A"], [.terminal 'a', .terminal 'b']]),
    ("A", [[.nonterminal "C"], [.nonterminal "B"], [.terminal 'a', .terminal 'b']]),
    ("B", [[.nonterminal "A"], [.terminal 'c']]),
    ("C", [[.nonterminal "B"], [.terminal 'c'], [.terminal 'd', .nonterminal "S"]])],
    by decide⟩⟩

theorem unitFree_takes_over_closures_entangled :
    ofRules entangled.start entangled.rules = .ok entangled ∧
      entangled.unitClosure "S" = ["S", "A", "C", "B"] ∧
      entangled.unitFree.alternatives "S" =
        [[.terminal 'a', .terminal 'b'], [.terminal 'c'], [.terminal 'd', .nonterminal "S"]] ∧
      entangled.UnitReaches "S" "B" ∧
      ∀ word, entangled.unitFree.Derives "S" word ↔ entangled.Derives "S" word := by
  have accepted : ofRules entangled.start entangled.rules = .ok entangled := by decide
  have closure : entangled.unitClosure "S" = ["S", "A", "C", "B"] := by decide +kernel
  obtain ⟨-, -, each⟩ := unitFree_takes_over_closures accepted
  obtain ⟨-, -, -, -, reaches, derives⟩ := each "S" (by decide)
  exact ⟨accepted, closure, by decide +kernel, (reaches "B").mp (by rw [closure]; decide), derives⟩

end Grammar

end ContextFree
