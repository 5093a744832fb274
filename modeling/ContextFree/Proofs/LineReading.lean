import ContextFree.Proofs.RightHandSide

/-!
# What is read from a line

A line that has an arrow is divided at the first one. It states a rule when there is a name in
front of the arrow, which blanks may surround, and behind it a row of lexemes that are not all
blanks (`States`). Any other line has a first fault (`Faulty`). These are the two results of reading
a line (`readRule_eq_ok_iff`, `readRule_eq_error_iff`).
-/

namespace ContextFree

namespace Text

variable {char : Char} {chars line before after rest : List Char}

/-! ## Arrows -/

/-- The line has its first arrow between the two parts. -/
structure Arrow (line before after : List Char) : Prop where
  eq : line = before ++ '-' :: '>' :: after
  first : ¬ ['-', '>'] <:+: before

theorem arrow_isPrefix_iff :
    ['-', '>'] <+: char :: rest ↔ ∃ after, char = '-' ∧ rest = '>' :: after := by
  rw [List.cons_prefix_cons, eq_comm]
  constructor
  · rintro ⟨dash, after, equal⟩
    exact ⟨after, dash, equal.symm⟩
  · rintro ⟨after, dash, equal⟩
    exact ⟨dash, after, equal.symm⟩

/-- An arrow does not begin with a character unless the rest of it follows. -/
theorem splitArrow_cons (other : ¬ ['-', '>'] <+: char :: rest) :
    splitArrow (char :: rest) =
      (splitArrow rest).map fun parts => (char :: parts.1, parts.2) := by
  rw [splitArrow]
  intro after dash equal
  exact other (arrow_isPrefix_iff.mpr ⟨after, dash, equal⟩)

theorem splitArrow_eq_none_iff : splitArrow line = none ↔ ¬ ['-', '>'] <:+: line := by
  induction line with
  | nil => simp [splitArrow]
  | cons char rest ih =>
    rw [List.infix_cons_iff, not_or]
    by_cases leads : ['-', '>'] <+: char :: rest
    · obtain ⟨after, rfl, rfl⟩ := arrow_isPrefix_iff.mp leads
      simp [splitArrow]
    · rw [splitArrow_cons leads, Option.map_eq_none_iff, ih]
      simp [leads]

theorem Arrow.splitArrow_eq (arrow : Arrow line before after) :
    splitArrow line = some (before, after) := by
  obtain ⟨rfl, first⟩ := arrow
  induction before with
  | nil => rfl
  | cons char others ih =>
    rw [List.infix_cons_iff, not_or] at first
    have other : ¬ ['-', '>'] <+: char :: (others ++ '-' :: '>' :: after) := by
      intro leads
      obtain ⟨behind, rfl, equal⟩ := arrow_isPrefix_iff.mp leads
      cases others with
      | nil => cases equal
      | cons next rest =>
        obtain ⟨rfl, -⟩ := List.cons.inj equal
        exact first.1 (arrow_isPrefix_iff.mpr ⟨rest, rfl, rfl⟩)
    rw [List.cons_append, splitArrow_cons other, ih first.2]
    rfl

theorem arrow_of_splitArrow (split : splitArrow line = some (before, after)) :
    Arrow line before after := by
  induction line generalizing before with
  | nil => cases split
  | cons char rest ih =>
    by_cases leads : ['-', '>'] <+: char :: rest
    · obtain ⟨behind, rfl, rfl⟩ := arrow_isPrefix_iff.mp leads
      cases split
      exact ⟨rfl, by simp⟩
    · rw [splitArrow_cons leads] at split
      obtain ⟨⟨others, behind⟩, found, equal⟩ := Option.map_eq_some_iff.mp split
      cases equal
      obtain ⟨rfl, first⟩ := ih found
      refine ⟨rfl, fun arrow => ?_⟩
      rcases List.infix_cons_iff.mp arrow with earlier | inside
      · exact leads (earlier.trans (List.prefix_append (char :: others) _))
      · exact first inside

theorem splitArrow_eq_some_iff :
    splitArrow line = some (before, after) ↔ Arrow line before after :=
  ⟨arrow_of_splitArrow, Arrow.splitArrow_eq⟩

/-! ## Trimming -/

theorem trim_append_left {front : List Char} (blank : ∀ char ∈ front, isBlank char = true)
    (line : List Char) : trim (front ++ line) = trim line := by
  unfold trim
  rw [List.dropWhile_append_of_pos blank]

theorem trim_append_right {back : List Char} (blank : ∀ char ∈ back, isBlank char = true)
    (line : List Char) : trim (line ++ back) = trim line := by
  unfold trim
  rw [List.dropWhile_append]
  split
  · rename_i gone
    have backGone : back.dropWhile isBlank = [] := List.dropWhile_eq_nil_iff.mpr blank
    rw [List.isEmpty_iff.mp gone, backGone]
  · rw [List.reverse_append,
      List.dropWhile_append_of_pos fun char member => blank char (List.mem_reverse.mp member)]

theorem trim_of_nonblank (nonblank : ∀ char ∈ chars, isBlank char = false) :
    trim chars = chars := by
  have keeps : ∀ {chars : List Char}, (∀ char ∈ chars, isBlank char = false) →
      chars.dropWhile isBlank = chars := by
    intro chars nonblank
    cases chars with
    | nil => rfl
    | cons char rest => simp [nonblank char List.mem_cons_self]
  unfold trim
  rw [keeps nonblank, keeps fun char member => nonblank char (List.mem_reverse.mp member),
    List.reverse_reverse]

/-- Trimming leaves the first character alone if it is no blank. -/
theorem trim_cons (nonblank : isBlank char = false) (rest : List Char) :
    ∃ others, trim (char :: rest) = char :: others := by
  unfold trim
  rw [List.dropWhile_cons_of_neg (by simp [nonblank]), List.reverse_cons, List.dropWhile_append]
  split
  · simp [nonblank]
  · simp

end Text

namespace Source

variable {lhs : String} {alternative : Alternative} {line : List Char}

/-! ## What a line states, and what is wrong with it -/

/-- The line states that `lhs` has an alternative: there is a name, which blanks may surround, the
first arrow, and lexemes of which at least one is no blank. -/
inductive States : List Char → String → Alternative → Prop
  | rule {line before after : List Char} {lexemes : List Lexeme}
      (arrow : Text.Arrow line before after) (valid : Name.isName (Text.trim before) = true)
      (lexes : Lexes after lexemes []) (nonempty : lexemes.filterMap Lexeme.symbol? ≠ []) :
      States line (String.ofList (Text.trim before)) (lexemes.filterMap Lexeme.symbol?)

/-- The first thing that is wrong with a line: there is no arrow, what is in front of the first one
is no name, no lexeme fits somewhere behind it, or there are only blanks behind it. -/
inductive Faulty : List Char → Fault → Prop
  | missingArrow {line : List Char} (absent : ¬ ['-', '>'] <:+: line) : Faulty line .missingArrow
  | leftHandSide {line before after : List Char} (arrow : Text.Arrow line before after)
      (invalid : Name.isName (Text.trim before) = false) :
      Faulty line (.invalidNonterminal (String.ofList (Text.trim before)))
  | rightHandSide {line before after rest : List Char} {lexemes : List Lexeme} {fault : Fault}
      (arrow : Text.Arrow line before after) (valid : Name.isName (Text.trim before) = true)
      (lexes : Lexes after lexemes rest) (stuck : Stuck rest) (misfit : Misfit rest fault) :
      Faulty line fault
  | emptyRightHandSide {line before after : List Char} {lexemes : List Lexeme}
      (arrow : Text.Arrow line before after) (valid : Name.isName (Text.trim before) = true)
      (lexes : Lexes after lexemes []) (blank : lexemes.filterMap Lexeme.symbol? = []) :
      Faulty line .emptyRightHandSide

theorem States.readRule_eq (states : States line lhs alternative) :
    readRule line = .ok (lhs, alternative) := by
  obtain ⟨arrow, valid, lexes, nonempty⟩ := states
  have named := readName_eq_ok_iff.mpr ⟨valid, rfl⟩
  have symbols := readSymbols_eq_ok_iff.mpr ⟨_, lexes, rfl⟩
  simp only [readRule, arrow.splitArrow_eq, named, symbols]
  rw [if_neg (by simpa using nonempty)]

theorem Faulty.readRule_eq {fault : Fault} (faulty : Faulty line fault) :
    readRule line = .error fault := by
  cases faulty with
  | missingArrow absent => simp only [readRule, Text.splitArrow_eq_none_iff.mpr absent]
  | leftHandSide arrow invalid => simp [readRule, arrow.splitArrow_eq, readName, invalid]
  | rightHandSide arrow valid lexes stuck misfit =>
    have named := readName_eq_ok_iff.mpr ⟨valid, rfl⟩
    have failed := readSymbols_eq_error_iff.mpr ⟨_, _, lexes, stuck, misfit⟩
    simp only [readRule, arrow.splitArrow_eq, named, failed]
  | emptyRightHandSide arrow valid lexes blank =>
    have named := readName_eq_ok_iff.mpr ⟨valid, rfl⟩
    have symbols := readSymbols_eq_ok_iff.mpr ⟨_, lexes, blank⟩
    simp [readRule, arrow.splitArrow_eq, named, symbols]

/-- Every line states a rule or has a fault. -/
theorem states_or_faulty (line : List Char) :
    (∃ lhs alternative, States line lhs alternative) ∨ ∃ fault, Faulty line fault := by
  cases split : Text.splitArrow line with
  | none => exact .inr ⟨_, .missingArrow (Text.splitArrow_eq_none_iff.mp split)⟩
  | some parts =>
    obtain ⟨before, after⟩ := parts
    have arrow := Text.splitArrow_eq_some_iff.mp split
    cases valid : Name.isName (Text.trim before) with
    | false => exact .inr ⟨_, .leftHandSide arrow valid⟩
    | true =>
      obtain ⟨lexemes, rest, lexes, rfl | ⟨stuck, fault, misfit⟩⟩ := exists_lexes after
      · by_cases blank : lexemes.filterMap Lexeme.symbol? = []
        · exact .inr ⟨_, .emptyRightHandSide arrow valid lexes blank⟩
        · exact .inl ⟨_, _, .rule arrow valid lexes blank⟩
      · exact .inr ⟨_, .rightHandSide arrow valid lexes stuck misfit⟩

theorem readRule_eq_ok_iff :
    readRule line = .ok (lhs, alternative) ↔ States line lhs alternative := by
  constructor
  · intro read
    rcases states_or_faulty line with ⟨lhs, alternative, states⟩ | ⟨fault, faulty⟩
    · rw [states.readRule_eq] at read
      cases read
      exact states
    · rw [faulty.readRule_eq] at read
      cases read
  · exact States.readRule_eq

theorem readRule_eq_error_iff {fault : Fault} :
    readRule line = .error fault ↔ Faulty line fault := by
  constructor
  · intro failed
    rcases states_or_faulty line with ⟨lhs, alternative, states⟩ | ⟨fault, faulty⟩
    · rw [states.readRule_eq] at failed
      cases failed
    · rw [faulty.readRule_eq] at failed
      cases failed
      exact faulty
  · exact Faulty.readRule_eq

end Source

end ContextFree
