import ContextFree.Symbol
import Std.Data.TreeSet.Lemmas

/-!
# Distinct words

Words are collected without repetition. A collection is seen as the list of its words in the
order in which they were first found; a sorted index beside it answers whether a word is
there.
-/

namespace ContextFree

/-- Distinct words, the one found last in front, with their number and an index. -/
structure DistinctWords where
  newestFirst : List Word
  size : Nat
  index : Std.TreeSet Word
  size_eq : size = newestFirst.length
  mem_index : ∀ word, word ∈ index ↔ word ∈ newestFirst
  nodup : newestFirst.Nodup

namespace DistinctWords

/-- No words. -/
def empty : DistinctWords where
  newestFirst := []
  size := 0
  index := ∅
  size_eq := rfl
  mem_index word := by simp
  nodup := List.nodup_nil

/-- The words in the order in which they were found. -/
def toList (words : DistinctWords) : List Word := words.newestFirst.reverse

/-- Adds a word at the end, unless it is there already. -/
def add (words : DistinctWords) (word : Word) : DistinctWords :=
  if h : words.index.contains word then words
  else
    { newestFirst := word :: words.newestFirst
      size := words.size + 1
      index := words.index.insert word
      size_eq := by rw [words.size_eq, List.length_cons]
      mem_index := fun other => by
        rw [Std.TreeSet.mem_insert, Std.LawfulEqCmp.compare_eq_iff_eq, words.mem_index,
          List.mem_cons, eq_comm]
      nodup := List.nodup_cons.mpr
        ⟨fun hmem => h (Std.TreeSet.contains_iff_mem.mpr ((words.mem_index word).mpr hmem)),
          words.nodup⟩ }

/-- Adds a word as long as there are fewer than `count`. -/
def offer (words : DistinctWords) (count : Nat) (word : Word) : DistinctWords :=
  if words.size < count then words.add word else words

/-! ## The operations on the list of words -/

@[simp]
theorem toList_empty : empty.toList = [] := rfl

theorem size_eq_length (words : DistinctWords) : words.size = words.toList.length := by
  rw [words.size_eq, toList, List.length_reverse]

theorem nodup_toList (words : DistinctWords) : words.toList.Nodup :=
  List.pairwise_reverse.mpr (words.nodup.imp Ne.symm)

/-- A word that is there is not added again, and a new one comes last. -/
theorem toList_add (words : DistinctWords) (word : Word) :
    (words.add word).toList =
      if word ∈ words.toList then words.toList else words.toList ++ [word] := by
  have hindex : words.index.contains word = true ↔ word ∈ words.toList := by
    rw [Std.TreeSet.contains_iff_mem, words.mem_index, toList, List.mem_reverse]
  by_cases h : word ∈ words.toList
  · rw [if_pos h, add, dif_pos (hindex.mpr h)]
  · rw [if_neg h, add, dif_neg (fun hc => h (hindex.mp hc))]
    simp [toList]

theorem mem_toList_add {words : DistinctWords} {word other : Word} :
    other ∈ (words.add word).toList ↔ other ∈ words.toList ∨ other = word := by
  rw [toList_add]
  by_cases known : word ∈ words.toList
  · rw [if_pos known]
    exact ⟨.inl, fun found => found.elim id (fun equal => equal ▸ known)⟩
  · rw [if_neg known, List.mem_append, List.mem_singleton]

theorem size_add_le (words : DistinctWords) (word : Word) :
    (words.add word).size ≤ words.size + 1 := by
  rw [size_eq_length, size_eq_length, toList_add]
  split
  · exact Nat.le_succ _
  · exact Nat.le_of_eq (List.length_append ..)

/-- Words are only ever added at the end. -/
theorem toList_isPrefix_add (words : DistinctWords) (word : Word) :
    words.toList <+: (words.add word).toList := by
  rw [toList_add]
  split
  · exact List.prefix_rfl
  · exact List.prefix_append _ _

theorem size_le_of_isPrefix {words others : DistinctWords}
    (extended : words.toList <+: others.toList) : words.size ≤ others.size := by
  rw [size_eq_length, size_eq_length]
  exact extended.length_le

section Offer

variable {words : DistinctWords} {count : Nat} {word other : Word}

theorem offer_of_lt (wanted : words.size < count) : words.offer count word = words.add word := by
  rw [offer, if_pos wanted]

theorem offer_of_le (full : count ≤ words.size) : words.offer count word = words := by
  rw [offer, if_neg (Nat.not_lt_of_le full)]

theorem toList_isPrefix_offer (words : DistinctWords) (count : Nat) (word : Word) :
    words.toList <+: (words.offer count word).toList := by
  unfold offer
  split
  · exact words.toList_isPrefix_add word
  · exact List.prefix_rfl

theorem mem_toList_offer (member : other ∈ (words.offer count word).toList) :
    other ∈ words.toList ∨ other = word := by
  by_cases wanted : words.size < count
  · rw [offer_of_lt wanted] at member
    exact mem_toList_add.mp member
  · rw [offer_of_le (Nat.le_of_not_lt wanted)] at member
    exact .inl member

theorem size_offer_le (words : DistinctWords) (count : Nat) (word : Word) :
    (words.offer count word).size ≤ words.size + 1 := by
  by_cases wanted : words.size < count
  · rw [offer_of_lt wanted]
    exact words.size_add_le word
  · rw [offer_of_le (Nat.le_of_not_lt wanted)]
    exact Nat.le_succ _

theorem size_offer_le_of_le (bound : words.size ≤ count) :
    (words.offer count word).size ≤ count := by
  by_cases wanted : words.size < count
  · rw [offer_of_lt wanted]
    exact Nat.le_trans (words.size_add_le word) wanted
  · rw [offer_of_le (Nat.le_of_not_lt wanted)]
    exact bound

end Offer

end DistinctWords

end ContextFree
