import ContextFree.Grammar.StartRule
import ContextFree.Proofs.Derivation
import ContextFree.Proofs.NameSupply

/-!
# The fresh start symbol

A grammar with a fresh start symbol has the rules of the old one behind the new rule. The
new symbol derives what the old start symbol does, every other nonterminal derives what it did,
and the new symbol stands on no right-hand side.
-/

namespace ContextFree.Grammar

variable {g : Grammar} {supply : NameSupply} {name : String} {word : Word}

@[simp]
theorem start_isolateStart : (g.isolateStart supply).1.start = (supply.fresh .start).1 := rfl

@[simp]
theorem supply_isolateStart : (g.isolateStart supply).2 = (supply.fresh .start).2 := rfl

/-- The start symbol is new to a grammar whose nonterminals are in use. -/
theorem fresh_start_notMem (inUse : g.nonterminals ⊆ supply.used) :
    (supply.fresh .start).1 ∉ g.nonterminals :=
  fun member => supply.fresh_notMem .start (inUse member)

theorem entries_isolateStart (inUse : g.nonterminals ⊆ supply.used) :
    (g.isolateStart supply).1.rules.entries =
      ((supply.fresh .start).1, [[.nonterminal g.start]]) :: g.rules.entries := by
  apply RuleTable.entries_ofList
  rw [List.map_cons, List.nodup_cons]
  exact ⟨fresh_start_notMem inUse, g.rules.nodup_names⟩

theorem nonterminals_isolateStart (inUse : g.nonterminals ⊆ supply.used) :
    (g.isolateStart supply).1.nonterminals = (supply.fresh .start).1 :: g.nonterminals := by
  rw [nonterminals, RuleTable.names, entries_isolateStart inUse, List.map_cons]
  rfl

theorem alternatives_isolateStart_start (inUse : g.nonterminals ⊆ supply.used) :
    (g.isolateStart supply).1.alternatives (supply.fresh .start).1 = [[.nonterminal g.start]] := by
  apply alternatives_eq_of_mem_entries
  rw [entries_isolateStart inUse]
  exact List.mem_cons_self

theorem alternatives_isolateStart_of_ne (inUse : g.nonterminals ⊆ supply.used)
    (other : name ≠ (supply.fresh .start).1) :
    (g.isolateStart supply).1.alternatives name = g.alternatives name := by
  have different : (name == (supply.fresh .start).1) = false := by simpa using other
  rw [alternatives, RuleTable.get?, entries_isolateStart inUse, List.lookup_cons, different]
  rfl

theorem WellFormed.isolateStart (wellFormed : g.WellFormed)
    (inUse : g.nonterminals ⊆ supply.used) : (g.isolateStart supply).1.WellFormed := by
  rw [wellFormed_iff, nonterminals_isolateStart inUse]
  refine ⟨List.mem_cons_self, fun name alternative member => ?_⟩
  by_cases fresh : name = (supply.fresh .start).1
  · rw [fresh, alternatives_isolateStart_start inUse, List.mem_singleton] at member
    subst member
    refine ⟨List.cons_ne_nil _ _, fun other occurs => ?_⟩
    rw [List.mem_singleton.mp occurs]
    exact List.mem_cons_of_mem _ wellFormed.start_mem
  · rw [alternatives_isolateStart_of_ne inUse fresh] at member
    exact ⟨wellFormed.ne_nil_of_mem member, fun other occurs =>
      List.mem_cons_of_mem _ (wellFormed.mem_nonterminals member occurs)⟩

/-- The fresh start symbol stands on no right-hand side. -/
theorem WellFormed.start_notMem_names_isolateStart (wellFormed : g.WellFormed)
    (inUse : g.nonterminals ⊆ supply.used) {alternative : Alternative}
    (member : alternative ∈ (g.isolateStart supply).1.alternatives name) :
    (supply.fresh .start).1 ∉ Alternative.names alternative := by
  have absent := fresh_start_notMem inUse
  intro occurs
  by_cases fresh : name = (supply.fresh .start).1
  · rw [fresh, alternatives_isolateStart_start inUse, List.mem_singleton] at member
    subst member
    rw [List.mem_singleton.mp occurs] at absent
    exact absent wellFormed.start_mem
  · rw [alternatives_isolateStart_of_ne inUse fresh] at member
    exact absent (wellFormed.mem_nonterminals member occurs)

/-- The nonterminals of the grammar keep the words they derive. -/
theorem WellFormed.derives_isolateStart_iff (wellFormed : g.WellFormed)
    (inUse : g.nonterminals ⊆ supply.used) (old : name ∈ g.nonterminals) :
    (g.isolateStart supply).1.Derives name word ↔ g.Derives name word := by
  have absent := fresh_start_notMem inUse
  constructor
  · intro derives
    -- Nothing is claimed of the fresh symbol, which no alternative of the grammar mentions.
    refine derives.of_closed (fun name word => name ∈ g.nonterminals → g.Derives name word) ?_ old
    intro name alternative member word reads old
    have other : name ≠ (supply.fresh .start).1 := fun equal => absent (equal ▸ old)
    rw [alternatives_isolateStart_of_ne inUse other] at member
    exact derives_iff_reads.mpr ⟨alternative, member, reads.imp fun other occurs part derives =>
      derives (wellFormed.mem_nonterminals member occurs)⟩
  · intro derives
    refine derives.mono fun name alternative member => ?_
    have other : name ≠ (supply.fresh .start).1 := fun equal =>
      absent (equal ▸ mem_nonterminals_of_mem_alternatives member)
    rw [alternatives_isolateStart_of_ne inUse other]
    exact member

/-- The fresh start symbol derives what the old one does. -/
theorem WellFormed.derives_isolateStart_start_iff (wellFormed : g.WellFormed)
    (inUse : g.nonterminals ⊆ supply.used) :
    (g.isolateStart supply).1.Derives (supply.fresh .start).1 word ↔ g.Derives g.start word := by
  rw [derives_iff_reads, alternatives_isolateStart_start inUse]
  simp only [List.mem_singleton, exists_eq_left, reads_nonterminal]
  exact wellFormed.derives_isolateStart_iff inUse wellFormed.start_mem

end ContextFree.Grammar
