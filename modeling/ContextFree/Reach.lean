/-!
# Reachability

Breadth-first search over a neighbour function: the elements found, in the order in which they
are found.
-/

namespace ContextFree

variable {α : Type} [BEq α]

/-- The elements of `seen` and those found from `frontier`, the part of `seen` that was found
last. Each round adds the neighbours of the frontier that have not been seen, in order. -/
def reachFrom (next : α → List α) : (rounds : Nat) → (seen frontier : List α) → List α
  | 0, seen, _ => seen
  | rounds + 1, seen, frontier =>
    match ((frontier.flatMap next).filter (!seen.contains ·)).eraseDups with
    | [] => seen
    | found => reachFrom next rounds (seen ++ found) found

/-- The elements found from `start`, which comes first, within a number of rounds. As many
rounds as there are elements to find are enough. -/
def reach (next : α → List α) (rounds : Nat) (start : α) : List α :=
  reachFrom next rounds [start] [start]

end ContextFree
