import ContextFree.Proofs.Saturation
import Mathlib.Data.Set.Basic
import Mathlib.Order.Bounds.Basic

/-!
# Families of edges and neighbours

The families that the adjacency of terminals is computed from are least ones. Each of the two kinds
is given by what its sets must have, for either side (`HasEdge`, `HasBeside`), and the family that
the scans end with is the least among all families of sets, finite or not, that have it
(`isLeast_edge`, `isLeast_beside`). This is an equation for each family and an induction principle.
-/

namespace ContextFree

/-- The family with the members of its lists as sets. -/
def Family.sets {α : Type} (family : Family α) (name : String) : Set α :=
  {item | item ∈ family.listOf name}

namespace NormalForm

variable {c : NormalForm} {name : String} {char : Char} {side : Side} {scans : Nat}

/-! ## Least families -/

/-- The sets have the terminals of each nonterminal, and all that one side of its pairs has. -/
structure HasEdge (c : NormalForm) (side : Side) (sets : String → Set Char) : Prop where
  own : ∀ name char, .terminal char ∈ c.productions name → char ∈ sets name
  pair : ∀ name left right, .pair left right ∈ c.productions name →
    sets (side.of left right) ⊆ sets name

/-- The sets have the marker for the start symbol, for the inner side of each pair the edge of the
outer one, and for the outer side all that the nonterminal of the pair has. -/
structure HasBeside (c : NormalForm) (side : Side) (edges : String → Set Char)
    (sets : String → Set Neighbour) : Prop where
  start : side.marker ∈ sets c.start
  inner : ∀ name left right, .pair left right ∈ c.productions name →
    ∀ char ∈ edges (side.of left right), .terminal char ∈ sets (side.opposite.of left right)
  outer : ∀ name left right, .pair left right ∈ c.productions name →
    sets name ⊆ sets (side.of left right)

theorem isLeast_of_saturates_edgeFlow {family : Family Char}
    (saturates : c.Saturates side.edgeFlow scans .empty family) :
    IsLeast {sets | c.HasEdge side sets} family.sets := by
  constructor
  · refine ⟨fun name char member => ?_, fun name left right member char begins => ?_⟩
    · exact saturates.closed name _ member _ List.mem_cons_self List.mem_cons_self
    · exact saturates.closed name _ member _ List.mem_cons_self begins
  · intro sets has
    refine saturates.all (p := fun name char => char ∈ sets name) ?_ (Family.all_empty _)
    intro family all name production member share passed char shared
    cases production with
    | terminal other =>
      cases List.mem_singleton.mp passed
      cases List.mem_singleton.mp shared
      exact has.own name char member
    | pair left right =>
      cases List.mem_singleton.mp passed
      exact has.pair name left right member (all _ char shared)

theorem isLeast_of_saturates_besideFlow {edges : Family Char} {family : Family Neighbour}
    (saturates : c.Saturates (side.besideFlow edges) scans
      (RuleTable.empty.insert c.start [side.marker]) family) :
    IsLeast {sets | c.HasBeside side edges.sets sets} family.sets := by
  constructor
  · refine ⟨?_, fun name left right member char edge => ?_,
      fun name left right member neighbour next => ?_⟩
    · exact saturates.subset c.start (Family.mem_listOf_single.mpr ⟨rfl, rfl⟩)
    · exact saturates.closed name _ member _ List.mem_cons_self (List.mem_map_of_mem edge)
    · exact saturates.closed name _ member _ (List.mem_cons_of_mem _ List.mem_cons_self) next
  · intro sets has
    refine saturates.all (p := fun name neighbour => neighbour ∈ sets name) ?_
      (Family.all_single has.start)
    intro family all name production member share passed neighbour shared
    cases production with
    | terminal other => cases passed
    | pair left right =>
      rcases List.mem_cons.mp passed with rfl | passed
      · obtain ⟨char, edge, rfl⟩ := List.mem_map.mp shared
        exact has.inner name left right member char edge
      · cases List.mem_singleton.mp passed
        exact has.outer name left right member (all name neighbour shared)

/-! ## Edges -/

/-- Only terminals of the normal form come to an edge, so that there is a free place for each of
them and each nonterminal at most. -/
theorem saturates_edge (c : NormalForm) (side : Side) :
    ∃ scans ≤ c.maxScans, c.Saturates side.edgeFlow scans .empty (c.edge side) := by
  have passes : c.Passes side.edgeFlow (c.Within c.terminals) := by
    intro family all name production member share passed char shared
    have defined := mem_nonterminals_of_mem_productions member
    cases production with
    | terminal other =>
      cases List.mem_singleton.mp passed
      cases List.mem_singleton.mp shared
      exact ⟨defined, mem_terminals_iff.mpr ⟨name, member⟩⟩
    | pair left right =>
      cases List.mem_singleton.mp passed
      exact ⟨defined, (all _ char shared).2⟩
  have room : (c.free c.terminals .empty).length ≤ c.rules.size * (c.terminals.length + 1) :=
    Nat.le_trans (c.length_free_le _ _) (Nat.mul_le_mul_left _ (Nat.le_succ _))
  obtain ⟨scans, bound, saturates⟩ :=
    exists_saturates passes (Family.all_empty _) (Nat.lt_succ_of_le room)
  exact ⟨scans, Nat.le_trans bound (Nat.succ_le_succ room), saturates⟩

theorem isLeast_edge (c : NormalForm) (side : Side) :
    IsLeast {sets | c.HasEdge side sets} (c.edge side).sets := by
  obtain ⟨scans, -, saturates⟩ := c.saturates_edge side
  exact isLeast_of_saturates_edgeFlow saturates

theorem edge_induction {motive : String → Char → Prop}
    (own : ∀ name char, .terminal char ∈ c.productions name → motive name char)
    (pair : ∀ name left right char, .pair left right ∈ c.productions name →
      motive (side.of left right) char → motive name char)
    (member : char ∈ (c.edge side).listOf name) : motive name char := by
  have has : c.HasEdge side fun name => {char | motive name char} :=
    ⟨own, fun name left right listed char => pair name left right char listed⟩
  exact (c.isLeast_edge side).2 has name member

/-- What is at the edge of a nonterminal is one of its terminals, or at that of a side of a pair. -/
theorem mem_edge_iff :
    char ∈ (c.edge side).listOf name ↔ .terminal char ∈ c.productions name ∨
      ∃ left right, .pair left right ∈ c.productions name ∧
        char ∈ (c.edge side).listOf (side.of left right) := by
  have has := (c.isLeast_edge side).1
  have back : ∀ name char, (.terminal char ∈ c.productions name ∨ ∃ left right,
      .pair left right ∈ c.productions name ∧ char ∈ (c.edge side).listOf (side.of left right)) →
      char ∈ (c.edge side).listOf name := by
    rintro name char (own | ⟨left, right, listed, before⟩)
    · exact has.own name char own
    · exact has.pair name left right listed before
  refine ⟨edge_induction (motive := fun name char => .terminal char ∈ c.productions name ∨
    ∃ left right, .pair left right ∈ c.productions name ∧
      char ∈ (c.edge side).listOf (side.of left right)) ?_ ?_, back name char⟩
  · exact fun name char own => .inl own
  · exact fun name left right char listed before => .inr ⟨left, right, listed, back _ char before⟩

theorem mem_first_iff :
    char ∈ c.first.listOf name ↔ .terminal char ∈ c.productions name ∨
      ∃ left right, .pair left right ∈ c.productions name ∧ char ∈ c.first.listOf left :=
  mem_edge_iff

theorem mem_last_iff :
    char ∈ c.last.listOf name ↔ .terminal char ∈ c.productions name ∨
      ∃ left right, .pair left right ∈ c.productions name ∧ char ∈ c.last.listOf right :=
  mem_edge_iff

theorem mem_terminals_of_mem_edge (member : char ∈ (c.edge side).listOf name) :
    char ∈ c.terminals :=
  edge_induction (motive := fun _ char => char ∈ c.terminals)
    (fun name _ own => mem_terminals_iff.mpr ⟨name, own⟩) (fun _ _ _ _ _ before => before) member

theorem mem_nonterminals_of_mem_edge (member : char ∈ (c.edge side).listOf name) :
    name ∈ c.nonterminals := by
  rcases mem_edge_iff.mp member with own | ⟨left, right, listed, -⟩
  · exact mem_nonterminals_of_mem_productions own
  · exact mem_nonterminals_of_mem_productions listed

/-! ## Neighbours -/

section WellFormed

variable (wellFormed : c.WellFormed)
include wellFormed

theorem WellFormed.side_mem {left right : String} (listed : .pair left right ∈ c.productions name)
    (side : Side) : side.of left right ∈ c.nonterminals := by
  have sides := (wellFormed_iff.mp wellFormed).2 name _ listed
  cases side with
  | left => exact sides left List.mem_cons_self
  | right => exact sides right (List.mem_cons_of_mem _ List.mem_cons_self)

/-- Next to a nonterminal there are terminals and the marker. -/
theorem WellFormed.saturates_beside (side : Side) :
    ∃ scans ≤ c.maxScans, c.Saturates (side.besideFlow (c.edge side.opposite)) scans
      (RuleTable.empty.insert c.start [side.marker]) (c.beside side) := by
  let range := side.marker :: c.terminals.map Neighbour.terminal
  have passes : c.Passes (side.besideFlow (c.edge side.opposite)) (c.Within range) := by
    intro family all name production member share passed neighbour shared
    cases production with
    | terminal other => cases passed
    | pair left right =>
      rcases List.mem_cons.mp passed with rfl | passed
      · obtain ⟨char, edge, rfl⟩ := List.mem_map.mp shared
        refine ⟨wellFormed.side_mem member _, List.mem_cons_of_mem _ (List.mem_map_of_mem ?_)⟩
        exact mem_terminals_of_mem_edge edge
      · cases List.mem_singleton.mp passed
        exact ⟨wellFormed.side_mem member _, (all name neighbour shared).2⟩
  have start : Family.All (c.Within range) (RuleTable.empty.insert c.start [side.marker]) :=
    Family.all_single ⟨wellFormed.start_mem, List.mem_cons_self⟩
  have room : (c.free range (RuleTable.empty.insert c.start [side.marker])).length ≤
      c.rules.size * (c.terminals.length + 1) := by
    have bound := c.length_free_le range (RuleTable.empty.insert c.start [side.marker])
    rwa [List.length_cons, List.length_map] at bound
  obtain ⟨scans, bound, saturates⟩ := exists_saturates passes start (Nat.lt_succ_of_le room)
  exact ⟨scans, Nat.le_trans bound (Nat.succ_le_succ room), saturates⟩

theorem WellFormed.isLeast_beside (side : Side) :
    IsLeast {sets | c.HasBeside side (c.edge side.opposite).sets sets} (c.beside side).sets := by
  obtain ⟨scans, -, saturates⟩ := wellFormed.saturates_beside side
  exact isLeast_of_saturates_besideFlow saturates

theorem WellFormed.beside_induction {neighbour : Neighbour} {motive : String → Neighbour → Prop}
    (start : motive c.start side.marker)
    (inner : ∀ name left right char, .pair left right ∈ c.productions name →
      char ∈ (c.edge side.opposite).listOf (side.of left right) →
      motive (side.opposite.of left right) (.terminal char))
    (outer : ∀ name left right neighbour, .pair left right ∈ c.productions name →
      motive name neighbour → motive (side.of left right) neighbour)
    (member : neighbour ∈ (c.beside side).listOf name) : motive name neighbour := by
  have has : c.HasBeside side (c.edge side.opposite).sets
      fun name => {neighbour | motive name neighbour} :=
    ⟨start, fun name left right listed char => inner name left right char listed,
      fun name left right listed neighbour => outer name left right neighbour listed⟩
  exact (wellFormed.isLeast_beside side).2 has name member

theorem WellFormed.mem_terminals_of_mem_beside
    (member : .terminal char ∈ (c.beside side).listOf name) : char ∈ c.terminals := by
  refine wellFormed.beside_induction (motive := fun _ neighbour => ∀ char,
    neighbour = .terminal char → char ∈ c.terminals) ?_ ?_ ?_ member char rfl
  · intro char equal
    cases side <;> cases equal
  · rintro name left right char listed edge _ ⟨⟩
    exact mem_terminals_of_mem_edge edge
  · exact fun _ _ _ _ _ before => before

end WellFormed

end NormalForm

end ContextFree
