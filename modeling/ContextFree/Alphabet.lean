/-!
# Alphabets

An alphabet is a list of characters in strictly ascending order of their code points.
-/

namespace ContextFree.Alphabet

/-- Puts a character at its place, unless it is there already. -/
def insert (char : Char) : List Char → List Char
  | [] => [char]
  | head :: rest =>
    if char < head then char :: head :: rest
    else if char = head then head :: rest
    else head :: insert char rest

/-- The distinct characters of a list in ascending order. -/
def ofChars (chars : List Char) : List Char := chars.foldr insert []

@[simp]
theorem mem_insert {x char : Char} {alphabet : List Char} :
    x ∈ insert char alphabet ↔ x = char ∨ x ∈ alphabet := by
  induction alphabet with
  | nil => simp [insert]
  | cons head rest ih =>
    unfold insert
    split
    · simp
    · split
      · rename_i h
        subst h
        simp
      · rw [List.mem_cons, ih, List.mem_cons]
        constructor
        · rintro (h | h | h)
          · exact .inr (.inl h)
          · exact .inl h
          · exact .inr (.inr h)
        · rintro (h | h | h)
          · exact .inr (.inl h)
          · exact .inl h
          · exact .inr (.inr h)

/-- Collecting characters loses none and invents none. -/
@[simp]
theorem mem_ofChars {x : Char} {chars : List Char} : x ∈ ofChars chars ↔ x ∈ chars := by
  induction chars with
  | nil => simp [ofChars]
  | cons char rest ih =>
    rw [List.mem_cons, ← ih]
    exact mem_insert

theorem pairwise_insert {char : Char} {alphabet : List Char}
    (ascending : alphabet.Pairwise (· < ·)) : (insert char alphabet).Pairwise (· < ·) := by
  induction alphabet with
  | nil => exact List.pairwise_singleton _ _
  | cons head rest ih =>
    obtain ⟨above, ascendingRest⟩ := List.pairwise_cons.mp ascending
    unfold insert
    by_cases before : char < head
    · rw [if_pos before]
      refine List.pairwise_cons.mpr ⟨fun x member => ?_, ascending⟩
      rcases List.mem_cons.mp member with rfl | behind
      · exact before
      · exact Char.lt_trans before (above x behind)
    · rw [if_neg before]
      by_cases same : char = head
      · rw [if_pos same]
        exact ascending
      · rw [if_neg same]
        refine List.pairwise_cons.mpr ⟨fun x member => ?_, ih ascendingRest⟩
        rcases mem_insert.mp member with rfl | behind
        · exact Std.lt_of_le_of_ne (Char.not_lt.mp before) (Ne.symm same)
        · exact above x behind

/-- What is collected ascends strictly. -/
theorem pairwise_ofChars (chars : List Char) : (ofChars chars).Pairwise (· < ·) := by
  induction chars with
  | nil => exact List.Pairwise.nil
  | cons char rest ih => exact pairwise_insert ih

theorem nodup_ofChars (chars : List Char) : (ofChars chars).Nodup := by
  refine (pairwise_ofChars chars).imp fun less equal => ?_
  rw [equal] at less
  exact Char.lt_irrefl _ less

end ContextFree.Alphabet
