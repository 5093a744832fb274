/-!
# Queues

First in, first out. A queue is kept as two lists, the second one in reverse, and is seen as
the list of its elements in the order in which they leave.
-/

namespace ContextFree

/-- A queue: the elements that leave next and, in reverse, those that entered last. -/
structure Queue (α : Type) where
  front : List α
  back : List α

namespace Queue

variable {α : Type}

/-- The queue with one element. -/
def single (item : α) : Queue α := ⟨[item], []⟩

/-- The elements in the order in which they leave. -/
def toList (queue : Queue α) : List α := queue.front ++ queue.back.reverse

/-- Adds an element at the end. -/
def push (queue : Queue α) (item : α) : Queue α := { queue with back := item :: queue.back }

/-- The element that leaves next, and the queue without it. -/
def pop? (queue : Queue α) : Option (α × Queue α) :=
  match queue.front with
  | item :: rest => some (item, { queue with front := rest })
  | [] =>
    match queue.back.reverse with
    | [] => none
    | item :: rest => some (item, ⟨rest, []⟩)

@[simp]
theorem toList_single (item : α) : (single item).toList = [item] := rfl

@[simp]
theorem toList_push (queue : Queue α) (item : α) :
    (queue.push item).toList = queue.toList ++ [item] := by
  simp [toList, push]

/-- Nothing leaves exactly when there is nothing. -/
theorem pop?_eq_none_iff {queue : Queue α} : queue.pop? = none ↔ queue.toList = [] := by
  obtain ⟨front, back⟩ := queue
  cases front with
  | nil =>
    cases h : back.reverse with
    | nil => simp [pop?, toList, h]
    | cons item rest => simp [pop?, toList, h]
  | cons item rest => simp [pop?, toList]

/-- What leaves is the first element, and the others stay in order. -/
theorem toList_of_pop? {queue rest : Queue α} {item : α} (h : queue.pop? = some (item, rest)) :
    queue.toList = item :: rest.toList := by
  obtain ⟨front, back⟩ := queue
  cases front with
  | nil =>
    cases hback : back.reverse with
    | nil => simp [pop?, hback] at h
    | cons first others =>
      simp only [pop?, hback, Option.some.injEq, Prod.mk.injEq] at h
      obtain ⟨rfl, rfl⟩ := h
      simp [toList, hback]
  | cons first others =>
    simp only [pop?, Option.some.injEq, Prod.mk.injEq] at h
    obtain ⟨rfl, rfl⟩ := h
    simp [toList]

end Queue

end ContextFree
