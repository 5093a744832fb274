import ContextFree.Proofs.Adjacency
import Mathlib.Data.Char
import Mathlib.Data.List.Sort

/-!
# The order of productions does not matter to adjacency

What the scans pass on at a time depends on the order of rules and productions. What they end with
does not: it is the least family of sets that has what the productions ask for, and this only speaks
of which productions there are (`SameProductions.edge_sets`, `SameProductions.beside_sets`). Since
the lists of an adjacency ascend, they are the same as soon as they have the same members.
-/

namespace ContextFree

namespace NormalForm

/-- The normal forms have the same start symbol and the same productions, in whatever order and
however often. -/
structure SameProductions (c d : NormalForm) : Prop where
  start : c.start = d.start
  listing : ∀ production, production ∈ c.listing ↔ production ∈ d.listing

namespace SameProductions

variable {c d : NormalForm} {side : Side} {name : String} (same : c.SameProductions d)
include same

theorem symm : d.SameProductions c :=
  ⟨same.start.symm, fun production => (same.listing production).symm⟩

theorem mem_productions_iff {production : Production} :
    production ∈ c.productions name ↔ production ∈ d.productions name := by
  rw [← mem_listing_iff, ← mem_listing_iff]
  exact same.listing (name, production)

theorem hasEdge {sets : String → Set Char} (has : c.HasEdge side sets) : d.HasEdge side sets where
  own name char member := has.own name char (same.mem_productions_iff.mpr member)
  pair name left right member := has.pair name left right (same.mem_productions_iff.mpr member)

theorem hasBeside {edges : String → Set Char} {sets : String → Set Neighbour}
    (has : c.HasBeside side edges sets) : d.HasBeside side edges sets where
  start := same.start ▸ has.start
  inner name left right member := has.inner name left right (same.mem_productions_iff.mpr member)
  outer name left right member := has.outer name left right (same.mem_productions_iff.mpr member)

theorem edge_sets (side : Side) : (c.edge side).sets = (d.edge side).sets := by
  apply le_antisymm
  · exact (c.isLeast_edge side).2 (same.symm.hasEdge (d.isLeast_edge side).1)
  · exact (d.isLeast_edge side).2 (same.hasEdge (c.isLeast_edge side).1)

theorem mem_edge_iff {char : Char} :
    char ∈ (c.edge side).listOf name ↔ char ∈ (d.edge side).listOf name :=
  Set.ext_iff.mp (congrFun (same.edge_sets side) name) char

theorem mem_terminals_iff {char : Char} : char ∈ c.terminals ↔ char ∈ d.terminals := by
  rw [NormalForm.mem_terminals_iff, NormalForm.mem_terminals_iff]
  exact exists_congr fun name => same.mem_productions_iff

variable (wellFormed : c.WellFormed) (wellFormed' : d.WellFormed)
include wellFormed wellFormed'

theorem beside_sets (side : Side) : (c.beside side).sets = (d.beside side).sets := by
  have least := wellFormed.isLeast_beside side
  have least' := wellFormed'.isLeast_beside side
  rw [← same.edge_sets side.opposite] at least'
  exact le_antisymm (least.2 (same.symm.hasBeside least'.1)) (least'.2 (same.hasBeside least.1))

theorem mem_beside_iff {neighbour : Neighbour} :
    neighbour ∈ (c.beside side).listOf name ↔ neighbour ∈ (d.beside side).listOf name :=
  Set.ext_iff.mp (congrFun (same.beside_sets wellFormed wellFormed' side) name) neighbour

end SameProductions

end NormalForm

namespace Adjacency

variable {c d : NormalForm}

/-! ## Ascending lists -/

theorem pairwise_successorsOf (c : NormalForm) (char : Char) :
    ((ofNormalForm c).successorsOf char).Pairwise (· < ·) := by
  rw [successorsOf, ofNormalForm, lookup_map_key]
  split
  · exact Alphabet.pairwise_ofChars _
  · exact .nil

theorem successors_eq_map (c : NormalForm) :
    (ofNormalForm c).successors =
      c.terminals.map fun char => (char, (ofNormalForm c).successorsOf char) := by
  refine List.map_congr_left fun char known => ?_
  rw [successorsOf, ofNormalForm, lookup_map_key, if_pos known]
  rfl

/-! ## The same adjacency -/

theorem successorsOf_subset (same : c.SameProductions d) (wellFormed : c.WellFormed)
    (wellFormed' : d.WellFormed) (char : Char) :
    (ofNormalForm c).successorsOf char ⊆ (ofNormalForm d).successorsOf char := by
  intro next member
  rw [mem_successorsOf_iff wellFormed] at member
  rw [mem_successorsOf_iff wellFormed']
  obtain ⟨name, -, ⟨ends, follows⟩ | ⟨precedes, begins⟩⟩ := member
  · have ends' := same.mem_edge_iff.mp ends
    exact ⟨name, NormalForm.mem_nonterminals_of_mem_edge ends',
      .inl ⟨ends', (same.mem_beside_iff wellFormed wellFormed').mp follows⟩⟩
  · have begins' := same.mem_edge_iff.mp begins
    exact ⟨name, NormalForm.mem_nonterminals_of_mem_edge begins',
      .inr ⟨(same.mem_beside_iff wellFormed wellFormed').mp precedes, begins'⟩⟩

theorem ofNormalForm_eq (same : c.SameProductions d) (wellFormed : c.WellFormed)
    (wellFormed' : d.WellFormed) : ofNormalForm c = ofNormalForm d := by
  have alphabet : c.terminals = d.terminals :=
    (Alphabet.pairwise_ofChars _).eq_of_mem_iff (Alphabet.pairwise_ofChars _)
      fun char => same.mem_terminals_iff
  have edges (side : Side) : Alphabet.ofChars ((c.edge side).listOf c.start) =
      Alphabet.ofChars ((d.edge side).listOf d.start) := by
    refine (Alphabet.pairwise_ofChars _).eq_of_mem_iff (Alphabet.pairwise_ofChars _) fun char => ?_
    rw [Alphabet.mem_ofChars, Alphabet.mem_ofChars, ← same.start, same.mem_edge_iff]
  have behind (char : Char) :
      (ofNormalForm c).successorsOf char = (ofNormalForm d).successorsOf char :=
    List.Subset.antisymm_of_pairwise (pairwise_successorsOf c char) (pairwise_successorsOf d char)
      (successorsOf_subset same wellFormed wellFormed' char)
      (successorsOf_subset same.symm wellFormed' wellFormed char)
  have successors : (ofNormalForm c).successors = (ofNormalForm d).successors := by
    rw [successors_eq_map, successors_eq_map, alphabet]
    simp only [behind]
  exact (Adjacency.mk.injEq ..).mpr ⟨alphabet, edges .left, edges .right, successors⟩

/-- For either side, the scans for the edges and for what stands beside a nonterminal come to an
end, after no more of them than there are places in the family and one, with the least family that
has what the productions ask for: on the left with what begins and precedes a nonterminal, on the
right with what ends and follows it. So the adjacency does not depend on the order of the rules and
productions, or on repetitions, and its lists ascend. -/
theorem adjacency_saturated_in_any_order :
    (∀ start rules c, NormalForm.ofRules start rules = .ok c → ∀ side : Side,
      (∃ scans ≤ c.nonterminals.length * (c.terminals.length + 1) + 1,
        c.Saturates side.edgeFlow scans .empty (c.edge side)) ∧
      IsLeast {sets | c.HasEdge side sets} (c.edge side).sets ∧
      (∃ scans ≤ c.nonterminals.length * (c.terminals.length + 1) + 1,
        c.Saturates (side.besideFlow (c.edge side.opposite)) scans
          (RuleTable.empty.insert c.start [side.marker]) (c.beside side)) ∧
      IsLeast {sets | c.HasBeside side (c.edge side.opposite).sets sets} (c.beside side).sets) ∧
    (∀ start rules c, NormalForm.ofRules start rules = .ok c →
      ∀ start' rules' d, NormalForm.ofRules start' rules' = .ok d →
        c.SameProductions d → ofNormalForm c = ofNormalForm d) ∧
    (∀ c, (ofNormalForm c).initial.Pairwise (· < ·) ∧ (ofNormalForm c).finals.Pairwise (· < ·) ∧
      ∀ char, ((ofNormalForm c).successorsOf char).Pairwise (· < ·)) := by
  refine ⟨fun start rules c accepted side => ?_, fun start rules c accepted start' rules' d
    accepted' same => ?_, fun c => ?_⟩
  · have wellFormed := (NormalForm.ofRules_eq_ok_iff.mp accepted).2
    have places : c.nonterminals.length * (c.terminals.length + 1) + 1 = c.maxScans := by
      rw [NormalForm.nonterminals, RuleTable.names, List.length_map]
      rfl
    rw [places]
    exact ⟨c.saturates_edge side, c.isLeast_edge side, wellFormed.saturates_beside side,
      wellFormed.isLeast_beside side⟩
  · exact ofNormalForm_eq same (NormalForm.ofRules_eq_ok_iff.mp accepted).2
      (NormalForm.ofRules_eq_ok_iff.mp accepted').2
  · exact ⟨Alphabet.pairwise_ofChars _, Alphabet.pairwise_ofChars _, pairwise_successorsOf c⟩

/-- The two nonterminals begin and end with one another. -/
def entwined : NormalForm :=
  ⟨"S", ⟨[("S", [.pair "A" "S", .terminal 'b']), ("A", [.pair "S" "C", .terminal 'a']),
    ("C", [.terminal 'c'])], by decide⟩⟩

/-- The same productions in another order, two of them twice, and a rule without any. -/
def disentwined : NormalForm :=
  ⟨"S", ⟨[("C", [.terminal 'c', .terminal 'c']), ("E", []),
    ("A", [.terminal 'a', .pair "S" "C", .terminal 'a']),
    ("S", [.terminal 'b', .pair "A" "S"])], by decide⟩⟩

theorem adjacency_saturated_in_any_order_entwined :
    NormalForm.ofRules entwined.start entwined.rules = .ok entwined ∧
      (∃ scans ≤ 13, entwined.Saturates Side.left.edgeFlow scans .empty entwined.first) ∧
      IsLeast {sets | entwined.HasEdge .right sets} entwined.last.sets ∧
      IsLeast {sets | entwined.HasBeside .right entwined.first.sets sets} entwined.follow.sets ∧
      NormalForm.ofRules disentwined.start disentwined.rules = .ok disentwined ∧
      entwined.SameProductions disentwined ∧
      (ofNormalForm disentwined).successors =
        [('a', ['a', 'b']), ('b', ['c']), ('c', ['a', 'b'])] ∧
      ((ofNormalForm disentwined).successorsOf 'a').Pairwise (· < ·) := by
  have accepted : NormalForm.ofRules entwined.start entwined.rules = .ok entwined := by decide
  have accepted' : NormalForm.ofRules disentwined.start disentwined.rules = .ok disentwined := by
    decide
  have same : entwined.SameProductions disentwined := by
    have included : ∀ production ∈ entwined.listing, production ∈ disentwined.listing := by decide
    have covered : ∀ production ∈ disentwined.listing, production ∈ entwined.listing := by decide
    exact ⟨rfl, fun production => ⟨included production, covered production⟩⟩
  obtain ⟨saturated, orderless, ascending⟩ := adjacency_saturated_in_any_order
  obtain ⟨begins, -⟩ := saturated _ _ _ accepted .left
  obtain ⟨-, ends, -, follows⟩ := saturated _ _ _ accepted .right
  have successors : (ofNormalForm entwined).successors =
      [('a', ['a', 'b']), ('b', ['c']), ('c', ['a', 'b'])] := by decide +kernel
  rw [orderless _ _ _ accepted _ _ _ accepted' same] at successors
  exact ⟨accepted, begins, ends, follows, accepted', same, successors,
    (ascending disentwined).2.2 'a'⟩

end Adjacency

end ContextFree
