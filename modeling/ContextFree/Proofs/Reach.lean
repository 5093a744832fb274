import ContextFree.Grammar.Basic
import ContextFree.Reach
import Mathlib.Data.List.Perm.Subperm
import Mathlib.Logic.Relation

/-!
# Breadth-first search finds what can be reached

`mem_reach_iff`: when the search cannot leave a finite list of elements and has as many rounds
as the list is long, it finds exactly the elements that steps to neighbours lead to.

The search keeps three things from round to round: nothing is seen twice, all that is seen lies
in the finite list, and the neighbours of what was seen before the last round have been seen.
A round that finds something makes the list of what has been seen longer, so the rounds do not
run out before one finds nothing; then the third fact holds of all that has been seen.
-/

namespace ContextFree

variable {α : Type} [BEq α]

/-- The elements that a round finds. -/
def discovered (next : α → List α) (seen frontier : List α) : List α :=
  ((frontier.flatMap next).filter (!seen.contains ·)).eraseDups

theorem reachFrom_succ (next : α → List α) (rounds : Nat) (seen frontier : List α) :
    reachFrom next (rounds + 1) seen frontier =
      if discovered next seen frontier = [] then seen
      else reachFrom next rounds (seen ++ discovered next seen frontier)
        (discovered next seen frontier) := by
  rw [reachFrom, ← discovered]
  cases discovered next seen frontier with
  | nil => simp
  | cons item rest => simp

/-- The search never forgets what has been seen. -/
theorem subset_reachFrom (next : α → List α) (rounds : Nat) (seen frontier : List α) :
    seen ⊆ reachFrom next rounds seen frontier := by
  induction rounds generalizing seen frontier with
  | zero => exact List.Subset.refl seen
  | succ rounds ih =>
    rw [reachFrom_succ]
    split
    · exact List.Subset.refl seen
    · exact List.Subset.trans (List.subset_append_left seen _) (ih _ _)

variable [LawfulBEq α]

omit [LawfulBEq α] in
/-- Induction along `eraseDups`, which keeps the first element of a list and goes on with those of
the rest that differ from it. -/
theorem eraseDups_induction {p : List α → Prop} (nil : p [])
    (cons : ∀ item rest, p (rest.filter fun other => !other == item) → p (item :: rest))
    (items : List α) : p items := by
  induction size : items.length using Nat.strongRecOn generalizing items with
  | ind size ih =>
    cases items with
    | nil => exact nil
    | cons item rest =>
      have bound := List.length_filter_le (fun other => !other == item) rest
      rw [List.length_cons] at size
      exact cons item rest (ih _ (by omega) _ rfl)

/-- The elements of a list without repetition are distinct. -/
theorem nodup_eraseDups (items : List α) : items.eraseDups.Nodup := by
  induction items using eraseDups_induction with
  | nil => simp
  | cons item rest ih =>
    rw [List.eraseDups_cons, List.nodup_cons, List.mem_eraseDups]
    exact ⟨by simp, ih⟩

/-- An injective function keeps the first occurrences in a list apart and in order. -/
theorem eraseDups_map {β : Type} [BEq β] [LawfulBEq β] {f : β → α} (injective : f.Injective)
    (items : List β) : (items.map f).eraseDups = items.eraseDups.map f := by
  induction items using eraseDups_induction with
  | nil => simp
  | cons item rest ih =>
    have same : (fun other => !other == f item) ∘ f = fun other => !other == item := by
      funext other
      rw [Function.comp_apply, Bool.not_inj_iff, Bool.eq_iff_iff, beq_iff_eq, beq_iff_eq]
      exact injective.eq_iff
    rw [List.map_cons, List.eraseDups_cons, List.eraseDups_cons, List.filter_map, same, ih,
      List.map_cons]

theorem mem_discovered_iff {next : α → List α} {seen frontier : List α} {item : α} :
    item ∈ discovered next seen frontier ↔
      (∃ origin ∈ frontier, item ∈ next origin) ∧ item ∉ seen := by
  simp [discovered]

/-- Whatever holds of all that has been seen, and of the neighbours of what it holds of, holds
of all that the search finds. -/
theorem of_mem_reachFrom {next : α → List α} {p : α → Prop}
    (step : ∀ origin, p origin → ∀ item ∈ next origin, p item) {rounds : Nat}
    {seen frontier : List α} (start : ∀ item ∈ seen, p item) (inside : frontier ⊆ seen) :
    ∀ item ∈ reachFrom next rounds seen frontier, p item := by
  induction rounds generalizing seen frontier with
  | zero => exact start
  | succ rounds ih =>
    rw [reachFrom_succ]
    split
    · exact start
    · apply ih
      · intro item member
        rcases List.mem_append.mp member with member | member
        · exact start item member
        · obtain ⟨⟨origin, inFrontier, adjacent⟩, -⟩ := mem_discovered_iff.mp member
          exact step origin (start origin (inside inFrontier)) item adjacent
      · exact List.subset_append_right _ _

/-- What holds between two rounds: what has been seen is distinct and in the list that cannot be
left, and only the frontier may have neighbours that have not been seen. -/
structure Explored (next : α → List α) (range seen frontier : List α) : Prop where
  distinct : seen.Nodup
  within : seen ⊆ range
  inside : frontier ⊆ seen
  done : ∀ origin ∈ seen, origin ∉ frontier → next origin ⊆ seen

namespace Explored

variable {next : α → List α} {range seen frontier : List α}

omit [BEq α] [LawfulBEq α] in
theorem start {item : α} (member : item ∈ range) : Explored next range [item] [item] where
  distinct := by simp
  within := by simpa using member
  inside := List.Subset.refl [item]
  done origin member old := absurd member old

theorem round (explored : Explored next range seen frontier)
    (closed : ∀ origin ∈ range, next origin ⊆ range) :
    Explored next range (seen ++ discovered next seen frontier)
      (discovered next seen frontier) where
  distinct := by
    rw [List.nodup_append]
    refine ⟨explored.distinct, nodup_eraseDups _, ?_⟩
    intro item inSeen other found equal
    subst equal
    exact (mem_discovered_iff.mp found).2 inSeen
  within := by
    intro item member
    rcases List.mem_append.mp member with member | member
    · exact explored.within member
    · obtain ⟨⟨origin, inFrontier, adjacent⟩, -⟩ := mem_discovered_iff.mp member
      exact closed origin (explored.within (explored.inside inFrontier)) adjacent
  inside := List.subset_append_right _ _
  done := by
    intro origin member old item adjacent
    have earlier : origin ∈ seen := (List.mem_append.mp member).resolve_right old
    by_cases recent : origin ∈ frontier
    · by_cases known : item ∈ seen
      · exact List.mem_append_left _ known
      · have found := mem_discovered_iff.mpr ⟨⟨origin, recent, adjacent⟩, known⟩
        exact List.mem_append_right _ found
    · exact List.mem_append_left _ (explored.done origin earlier recent adjacent)

/-- After a round that finds nothing, no step to a neighbour leaves what has been seen. -/
theorem closed_of_discovered_eq_nil (explored : Explored next range seen frontier)
    (nothing : discovered next seen frontier = []) : ∀ origin ∈ seen, next origin ⊆ seen := by
  intro origin member item adjacent
  by_cases recent : origin ∈ frontier
  · apply Classical.byContradiction
    intro unseen
    have found := mem_discovered_iff.mpr ⟨⟨origin, recent, adjacent⟩, unseen⟩
    rw [nothing] at found
    cases found
  · exact explored.done origin member recent adjacent

end Explored

/-- With rounds for all elements of a list that it cannot leave, the search ends with a set
that no step to a neighbour leaves. -/
theorem reachFrom_closed {next : α → List α} {range : List α}
    (closed : ∀ origin ∈ range, next origin ⊆ range) {rounds : Nat} {seen frontier : List α}
    (explored : Explored next range seen frontier)
    (enough : range.length < rounds + seen.length) :
    ∀ origin ∈ reachFrom next rounds seen frontier,
      next origin ⊆ reachFrom next rounds seen frontier := by
  induction rounds generalizing seen frontier with
  | zero =>
    -- More distinct elements than the list has cannot have been seen.
    have bound := (List.subperm_of_subset explored.distinct explored.within).length_le
    omega
  | succ rounds ih =>
    rw [reachFrom_succ]
    by_cases nothing : discovered next seen frontier = []
    · rw [if_pos nothing]
      exact explored.closed_of_discovered_eq_nil nothing
    · rw [if_neg nothing]
      have positive := List.length_pos_iff.mpr nothing
      apply ih (explored.round closed)
      rw [List.length_append]
      omega

/-- The search from one element finds exactly what steps to neighbours lead to. -/
theorem mem_reach_iff {next : α → List α} {range : List α} {rounds : Nat} {start item : α}
    (startWithin : start ∈ range) (within : ∀ origin ∈ range, next origin ⊆ range)
    (enough : range.length ≤ rounds) :
    item ∈ reach next rounds start ↔
      Relation.ReflTransGen (fun origin target => target ∈ next origin) start item := by
  constructor
  · refine of_mem_reachFrom ?_ ?_ (List.Subset.refl _) item
    · intro origin reached target adjacent
      exact reached.tail adjacent
    · intro origin member
      rw [List.mem_singleton.mp member]
  · intro reached
    have closed := reachFrom_closed within (.start startWithin) (Nat.lt_succ_of_le enough)
    induction reached with
    | refl => exact subset_reachFrom _ _ _ _ List.mem_cons_self
    | tail _ adjacent ih => exact closed _ ih adjacent

/-- A search from an element without neighbours is over at once. -/
theorem reach_eq_of_next_eq_nil {next : α → List α} {start : α} (ends : next start = [])
    (rounds : Nat) : reach next rounds start = [start] := by
  cases rounds with
  | zero => rfl
  | succ rounds => simp [reach, reachFrom, ends]

/-- A search from an element with one neighbour, which has none, takes one step. -/
theorem reach_eq_of_next_eq_singleton {next : α → List α} {start other : α}
    (leads : next start = [other]) (ends : next other = []) (different : other ≠ start)
    (rounds : Nat) : reach next (rounds + 1) start = [start, other] := by
  have found : discovered next [start] [start] = [other] := by
    simp [discovered, leads, different, List.eraseDups_cons]
  rw [reach, reachFrom_succ, found, if_neg (List.cons_ne_nil _ _)]
  cases rounds with
  | zero => rfl
  | succ rounds => simp [reachFrom, ends]

theorem Grammar.length_cons_nonterminals (g : Grammar) (name : String) :
    (name :: g.nonterminals).length = g.rules.size + 1 := by
  simp [Grammar.nonterminals, RuleTable.names, RuleTable.size]

/-- A search over the nonterminals of a grammar, from any name, with one round more than there
are nonterminals. -/
theorem Grammar.mem_reach_nonterminals_iff {g : Grammar} {next : String → List String}
    {name target : String} (within : ∀ origin, next origin ⊆ g.nonterminals) :
    target ∈ reach next (g.rules.size + 1) name ↔
      Relation.ReflTransGen (fun origin target => target ∈ next origin) name target := by
  refine mem_reach_iff List.mem_cons_self (fun origin _ => ?_)
    (Nat.le_of_eq (g.length_cons_nonterminals name))
  exact List.subset_cons_of_subset name (within origin)

end ContextFree
