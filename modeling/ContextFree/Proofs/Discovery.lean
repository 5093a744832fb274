import ContextFree.Proofs.Reach

/-!
# The order in which things are found

Two orders are described place by place, each by what comes next. In the order of first occurrence
it is the first item that is not listed yet (`FirstOccurrences`). In the order of a breadth-first
search it is the first neighbour of what was found before, in the order in which that was found,
that was not found before (`BreadthFirst`). In both cases nothing comes next when there is no such
item, so that the list is determined by its description.

`reach` works in rounds and not from a queue. `breadthFirst_reach` says that it finds its elements
in the same order: a round looks at the neighbours of the frontier, which was found last, and those
of all that was found before are known by then.
-/

namespace ContextFree

variable {α : Type} [BEq α]

/-- At each place of the list stands the first of the items that stands at no place before it. -/
def FirstOccurrences (items listed : List α) : Prop :=
  ∀ place, listed[place]? = items.find? fun item => !(listed.take place).contains item

/-- At each place of the list stands the first, of the start and then of the neighbours of what
stands at the places before it, that does not stand there itself. -/
def BreadthFirst (next : α → List α) (start : α) (found : List α) : Prop :=
  ∀ place, found[place]? = (start :: (found.take place).flatMap next).find?
    fun item => !(found.take place).contains item

variable [LawfulBEq α]

/-! ## First occurrences -/

/-- A search that passes over the members of two lists can leave out those of the first one. -/
theorem find?_notMem_append (items before after : List α) :
    (items.find? fun item => !(before ++ after).contains item) =
      (items.filter fun item => !before.contains item).find? fun item => !after.contains item := by
  rw [List.find?_filter]
  congr 1
  funext item
  rw [Bool.eq_iff_iff]
  simp

theorem firstOccurrences_eraseDups (items : List α) : FirstOccurrences items items.eraseDups := by
  induction items using eraseDups_induction with
  | nil => exact fun place => by simp
  | cons item rest ih =>
    intro place
    rw [List.eraseDups_cons]
    cases place with
    | zero => simp
    | succ place =>
      have others : (fun other => !other == item) = fun other => !([item].contains other) := by
        funext other
        rw [List.contains_cons, List.contains_nil, Bool.or_false]
      rw [List.getElem?_cons_succ, ih place, List.take_succ_cons,
        List.find?_cons_of_neg (by simp), ← List.singleton_append, find?_notMem_append, others]

/-- Leaving out items before or after the repetitions are left out comes to the same. -/
theorem eraseDups_filter (keep : α → Bool) (items : List α) :
    (items.filter keep).eraseDups = items.eraseDups.filter keep := by
  induction items using eraseDups_induction with
  | nil => simp
  | cons item rest ih =>
    rw [List.eraseDups_cons]
    by_cases kept : keep item = true
    · rw [List.filter_cons_of_pos kept, List.eraseDups_cons, List.filter_cons_of_pos kept, ← ih,
        List.filter_filter, List.filter_filter]
      simp only [Bool.and_comm]
    · rw [List.filter_cons_of_neg kept, List.filter_cons_of_neg kept, ← ih, List.filter_filter]
      congr 1
      refine List.filter_congr fun other _ => ?_
      by_cases equal : other = item
      · subst equal
        simp [kept]
      · simp [equal]

/-! ## Breadth-first search -/

/-- The places filled so far are filled as a breadth-first search fills them. -/
def FilledInOrder (next : α → List α) (start : α) (seen : List α) : Prop :=
  ∀ place < seen.length, seen[place]? = (start :: (seen.take place).flatMap next).find?
    fun item => !(seen.take place).contains item

/-- Between two rounds: the places are filled in order, from the start on, and the frontier is at
their end. -/
structure InOrder (next : α → List α) (start : α) (seen frontier : List α) : Prop where
  filled : FilledInOrder next start seen
  start_mem : start ∈ seen
  ends : ∃ older, seen = older ++ frontier ∧ older.flatMap next ⊆ seen

namespace InOrder

variable {next : α → List α} {start : α} {seen frontier : List α}

theorem start_singleton (next : α → List α) (start : α) : InOrder next start [start] [start] where
  filled place bound := by
    obtain rfl : place = 0 := Nat.lt_one_iff.mp bound
    simp
  start_mem := List.mem_cons_self
  ends := ⟨[], rfl, List.nil_subset _⟩

/-- What the next place holds, given how many of the round's discoveries are already placed. -/
theorem find?_discovered (inOrder : InOrder next start seen frontier) (placed : Nat)
    (bound : placed < (discovered next seen frontier).length) :
    ((start :: (seen ++ (discovered next seen frontier).take placed).flatMap next).find? fun item =>
      !(seen ++ (discovered next seen frontier).take placed).contains item) =
        (discovered next seen frontier)[placed]? := by
  obtain ⟨older, split, known⟩ := inOrder.ends
  have passed : ((start :: older.flatMap next).find? fun item =>
      !(seen ++ (discovered next seen frontier).take placed).contains item) = none := by
    rw [List.find?_eq_none]
    intro item member
    have inSeen : item ∈ seen := by
      rcases List.mem_cons.mp member with rfl | member
      · exact inOrder.start_mem
      · exact known member
    simp [inSeen]
  have found : ((frontier.flatMap next).find? fun item =>
      !(seen ++ (discovered next seen frontier).take placed).contains item) =
        (discovered next seen frontier)[placed]? := by
    rw [find?_notMem_append]
    exact (firstOccurrences_eraseDups _ placed).symm
  have arranged : start :: (seen ++ (discovered next seen frontier).take placed).flatMap next =
      (start :: older.flatMap next) ++ (frontier.flatMap next ++
        ((discovered next seen frontier).take placed).flatMap next) := by
    conv_lhs => rw [split]
    simp only [List.flatMap_append, List.cons_append, List.append_assoc]
    rw [← split]
  rw [arranged, List.find?_append, passed, Option.none_or, List.find?_append, found,
    List.getElem?_eq_getElem bound, Option.some_or]

theorem round (inOrder : InOrder next start seen frontier) :
    InOrder next start (seen ++ discovered next seen frontier)
      (discovered next seen frontier) where
  filled place bound := by
    by_cases old : place < seen.length
    · rw [List.getElem?_append_left old, List.take_append_of_le_length (Nat.le_of_lt old)]
      exact inOrder.filled place old
    · obtain ⟨placed, rfl⟩ := Nat.exists_eq_add_of_le (Nat.le_of_not_lt old)
      rw [List.length_append, Nat.add_lt_add_iff_left] at bound
      rw [List.getElem?_append_right (Nat.le_add_right _ _), Nat.add_sub_cancel_left,
        List.take_length_add_append, inOrder.find?_discovered placed bound]
  start_mem := List.mem_append_left _ inOrder.start_mem
  ends := by
    refine ⟨seen, rfl, fun item member => ?_⟩
    obtain ⟨older, split, known⟩ := inOrder.ends
    obtain ⟨origin, inSeen, adjacent⟩ := List.mem_flatMap.mp member
    by_cases old : item ∈ seen
    · exact List.mem_append_left _ old
    · rw [split] at inSeen
      rcases List.mem_append.mp inSeen with inOlder | inFrontier
      · exact absurd (known (List.mem_flatMap.mpr ⟨origin, inOlder, adjacent⟩)) old
      · have found := mem_discovered_iff.mpr ⟨⟨origin, inFrontier, adjacent⟩, old⟩
        exact List.mem_append_right _ found

/-- A search that no step to a neighbour leaves any more has filled all its places. -/
theorem breadthFirst (inOrder : InOrder next start seen frontier)
    (closed : ∀ origin ∈ seen, next origin ⊆ seen) : BreadthFirst next start seen := by
  intro place
  by_cases bound : place < seen.length
  · exact inOrder.filled place bound
  · have past := Nat.le_of_not_lt bound
    rw [List.getElem?_eq_none past, List.take_of_length_le past, eq_comm, List.find?_eq_none]
    intro item member
    have inSeen : item ∈ seen := by
      rcases List.mem_cons.mp member with rfl | member
      · exact inOrder.start_mem
      · obtain ⟨origin, origins, adjacent⟩ := List.mem_flatMap.mp member
        exact closed origin origins adjacent
    simp [inSeen]

end InOrder

theorem exists_inOrder_reachFrom {next : α → List α} {start : α} {rounds : Nat}
    {seen frontier : List α} (inOrder : InOrder next start seen frontier) :
    ∃ last, InOrder next start (reachFrom next rounds seen frontier) last := by
  induction rounds generalizing seen frontier with
  | zero => exact ⟨frontier, inOrder⟩
  | succ rounds ih =>
    rw [reachFrom_succ]
    split
    · exact ⟨frontier, inOrder⟩
    · exact ih inOrder.round

/-- With enough rounds a search finds its elements in the order of a queue. -/
theorem breadthFirst_reach {next : α → List α} {range : List α} {rounds : Nat} {start : α}
    (startWithin : start ∈ range) (within : ∀ origin ∈ range, next origin ⊆ range)
    (enough : range.length ≤ rounds) : BreadthFirst next start (reach next rounds start) := by
  obtain ⟨last, inOrder⟩ := exists_inOrder_reachFrom (InOrder.start_singleton next start)
  exact inOrder.breadthFirst
    (reachFrom_closed within (.start startWithin) (Nat.lt_succ_of_le enough))

theorem Grammar.breadthFirst_reach_nonterminals {g : Grammar} {next : String → List String}
    {name : String} (within : ∀ origin, next origin ⊆ g.nonterminals) :
    BreadthFirst next name (reach next (g.rules.size + 1) name) := by
  refine breadthFirst_reach List.mem_cons_self (fun origin _ => ?_)
    (Nat.le_of_eq (g.length_cons_nonterminals name))
  exact List.subset_cons_of_subset name (within origin)

end ContextFree
