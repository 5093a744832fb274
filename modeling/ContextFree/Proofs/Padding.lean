import ContextFree.Proofs.RuleLine

/-!
# Blanks around a line

Blanks in front of a line and behind it change neither whether it is a rule line nor what is read
from it (`isRuleLine_padded`, `readRule_padded`). In front they belong to what is trimmed before the
name is read. Behind the line they are blanks of the right-hand side, and they neither close a
bracket nor go on with a name, so that every piece before them is read as it was
(`readPiece_append_right`).
-/

namespace ContextFree

namespace Text

variable {line front back chars rest : List Char}

theorem splitArrow_append_left (blank : ∀ char ∈ front, isBlank char = true) (line : List Char) :
    splitArrow (front ++ line) =
      (splitArrow line).map fun parts => (front ++ parts.1, parts.2) := by
  induction front with
  | nil => simp
  | cons char others ih =>
    have other : ¬ ['-', '>'] <+: char :: (others ++ line) := by
      rw [arrow_isPrefix_iff]
      rintro ⟨-, rfl, -⟩
      exact absurd (blank '-' List.mem_cons_self) (by decide)
    rw [List.cons_append, splitArrow_cons other,
      ih fun char member => blank char (List.mem_cons_of_mem _ member), Option.map_map]
    rfl

theorem splitArrow_append_right (blank : ∀ char ∈ back, isBlank char = true) (line : List Char) :
    splitArrow (line ++ back) =
      (splitArrow line).map fun parts => (parts.1, parts.2 ++ back) := by
  have arrowless : ¬ ['-', '>'] <:+: back := fun inside =>
    absurd (blank '-' (inside.subset List.mem_cons_self)) (by decide)
  induction line with
  | nil => exact splitArrow_eq_none_iff.mpr arrowless
  | cons char others ih =>
    by_cases leads : ['-', '>'] <+: char :: others
    · obtain ⟨after, rfl, rfl⟩ := arrow_isPrefix_iff.mp leads
      rfl
    · have other : ¬ ['-', '>'] <+: char :: (others ++ back) := by
        rw [arrow_isPrefix_iff]
        rintro ⟨after, rfl, equal⟩
        -- The dash may be the last character of the line, but no blank completes the arrow.
        cases others with
        | nil =>
          rw [List.nil_append] at equal
          exact absurd (blank '>' (equal ▸ List.mem_cons_self)) (by decide)
        | cons next rest =>
          obtain ⟨rfl, -⟩ := List.cons.inj equal
          exact leads (arrow_isPrefix_iff.mpr ⟨rest, rfl, rfl⟩)
      rw [List.cons_append, splitArrow_cons other, splitArrow_cons leads, ih, Option.map_map,
        Option.map_map]
      rfl

end Text

namespace Source

variable {line front back text after : List Char}

/-- Blanks behind a text do not go on with what is taken in for a name. -/
theorem Spans.append_right (blank : ∀ char ∈ back, Text.isBlank char = true)
    (spans : Spans text after) : Spans text (after ++ back) := by
  have boundary : ∀ {p : Char → Bool} {chars : List Char},
      (∀ char, p char = true → Name.isNameChar char = true) →
      (∀ next ∈ chars.head?, p next = false) → ∀ next ∈ (chars ++ back).head?, p next = false := by
    intro p chars ofName ends
    cases chars with
    | nil =>
      have detached : Detached back := fun next head => blank next (List.mem_of_mem_head? head)
      exact detached.boundary ofName
    | cons first others => exact ends
  cases spans with
  | bracketed unclosed => exact .bracketed unclosed _
  | run upper alpha digit letterless digitless =>
    have lettersEnd := boundary Name.isNameChar_of_isAlpha letterless
    rw [List.append_assoc] at lettersEnd
    exact .run upper alpha digit lettersEnd (boundary Name.isNameChar_of_isDigit digitless)

theorem readPiece_append_right (blank : ∀ char ∈ back, Text.isBlank char = true) (first : Char)
    (others : List Char) :
    readPiece first (others ++ back) =
      (readPiece first others).map fun piece => (piece.1, piece.2 ++ back) := by
  rcases begins_cases first others with blankFirst | terminal | ⟨rfl, unclosed⟩ |
    ⟨text, after, spans, begins⟩
  · rw [readPiece_blank blankFirst, readPiece_blank blankFirst]
    rfl
  · rw [readPiece_terminal terminal, readPiece_terminal terminal]
    rfl
  · have stillUnclosed : ']' ∉ others ++ back := by
      intro member
      rcases List.mem_append.mp member with member | member
      · exact unclosed member
      · exact absurd (blank ']' member) (by decide)
    rw [readPiece_unmatched unclosed, readPiece_unmatched stillUnclosed]
    rfl
  · have padded : first :: (others ++ back) = text ++ (after ++ back) := by
      rw [← List.cons_append, begins, List.append_assoc]
    rw [readPiece_of_spans spans begins, readPiece_of_spans (spans.append_right blank) padded]
    cases readName text <;> rfl

theorem readSymbols_blank (blank : ∀ char ∈ back, Text.isBlank char = true) :
    readSymbols back = .ok [] := by
  induction back with
  | nil => rw [readSymbols]
  | cons first others ih =>
    rw [readSymbols_of_readPiece (readPiece_blank (blank first List.mem_cons_self)),
      ih fun char member => blank char (List.mem_cons_of_mem _ member)]
    rfl

theorem readSymbols_append_right (blank : ∀ char ∈ back, Text.isBlank char = true)
    (chars : List Char) : readSymbols (chars ++ back) = readSymbols chars := by
  fun_induction readSymbols chars with
  | case1 => exact readSymbols_blank blank
  | case2 first others fault failed =>
    have padded : readPiece first (others ++ back) = .error fault := by
      rw [readPiece_append_right blank, failed]
      rfl
    exact readSymbols_of_error padded
  | case3 first others symbol? after piece ih =>
    have padded : readPiece first (others ++ back) = .ok (symbol?, after ++ back) := by
      rw [readPiece_append_right blank, piece]
      rfl
    rw [List.cons_append, readSymbols_of_readPiece padded, ih]

theorem isRuleLine_padded (blankFront : ∀ char ∈ front, Text.isBlank char = true)
    (blankBack : ∀ char ∈ back, Text.isBlank char = true) (line : List Char) :
    isRuleLine (front ++ line ++ back) = isRuleLine line := by
  unfold isRuleLine
  rw [Text.trim_append_right blankBack, Text.trim_append_left blankFront]

theorem readRule_padded (blankFront : ∀ char ∈ front, Text.isBlank char = true)
    (blankBack : ∀ char ∈ back, Text.isBlank char = true) (line : List Char) :
    readRule (front ++ line ++ back) = readRule line := by
  unfold readRule
  rw [Text.splitArrow_append_right blankBack, Text.splitArrow_append_left blankFront]
  cases Text.splitArrow line with
  | none => rfl
  | some parts =>
    simp only [Option.map_some, Text.trim_append_left blankFront,
      readSymbols_append_right blankBack]

/-- A blank line or a comment: the first character that is no blank, if there is one, is a
semicolon. -/
def Skipped (line : List Char) : Prop := ∀ first ∈ (line.dropWhile Text.isBlank).head?, first = ';'

theorem Skipped.isRuleLine_eq (skipped : Skipped line) : isRuleLine line = false := by
  have blank : ∀ char ∈ line.takeWhile Text.isBlank, Text.isBlank char = true :=
    fun char => List.mem_takeWhile_imp
  have trimmed : Text.trim line = Text.trim (line.dropWhile Text.isBlank) := by
    nth_rewrite 1 [← List.takeWhile_append_dropWhile (p := Text.isBlank) (l := line)]
    exact Text.trim_append_left blank _
  have boundary := boundary_dropWhile Text.isBlank line
  rw [isRuleLine, trimmed]
  rw [Skipped] at skipped
  cases shown : line.dropWhile Text.isBlank with
  | nil => rfl
  | cons first others =>
    rw [shown] at skipped boundary
    obtain rfl := skipped first rfl
    obtain ⟨behind, equal⟩ := Text.trim_cons (boundary ';' rfl) others
    rw [equal]
    rfl

end Source

end ContextFree
