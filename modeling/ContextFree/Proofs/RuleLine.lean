import ContextFree.Proofs.LineReading

/-!
# Rule lines, written and read

A rule can stand on a line when its left-hand side is a name and its right-hand side, which is
not empty, has only symbols that can be told apart in writing (`Writable`). Reading such a rule
as it is printed gives it back (`readRule_ruleChars`), and every rule that is read from a line is
of this kind (`writable_of_readRule`).

The printed symbols have a blank in front of each, so that a symbol ends where the next one's
blank begins. A printed right-hand side is therefore a row of lexemes, a blank and a symbol in
turns.
-/

namespace ContextFree

/-! ## Symbols -/

/-- The symbol can be told from the text that shows it. -/
def Symbol.isWritable : Symbol → Bool
  | .terminal char => Source.isTerminal char
  | .nonterminal name => Name.isNonterminalName name

namespace Source

variable {chars rest after text : List Char} {name : String} {symbol : Symbol}
variable {alternative : Alternative} {lexeme : Lexeme} {lexemes : List Lexeme}

/-- What can follow a printed symbol on its line: nothing, or a blank. -/
def Detached (rest : List Char) : Prop := ∀ next ∈ rest.head?, Text.isBlank next = true

theorem Detached.boundary {p : Char → Bool} (detached : Detached after)
    (ofName : ∀ char, p char = true → Name.isNameChar char = true) :
    ∀ next ∈ after.head?, p next = false := by
  intro next head
  have blank := detached next head
  rw [Bool.eq_false_iff]
  intro passes
  rw [Name.isBlank_of_isNameChar (ofName next passes)] at blank
  cases blank

theorem Detached.spans (detached : Detached after) (valid : Name.isName text = true) :
    Spans text after := by
  rw [Name.isName, Bool.or_eq_true, Name.isBracketed_iff, Name.isBare_iff] at valid
  rcases valid with ⟨inner, rfl, lettersDigits⟩ | ⟨letter, digits, rfl, upper, -, digit⟩
  · have unclosed : ']' ∉ inner := fun member =>
      absurd (Name.isAlphanum_of_isLettersDigits lettersDigits member) (by decide)
    exact .bracketed unclosed after
  · have letterless : ∀ next ∈ (digits ++ after).head?, next.isAlpha = false := by
      cases digits with
      | nil => exact detached.boundary Name.isNameChar_of_isAlpha
      | cons first rest => simp [Name.isAlpha_of_isDigit (digit first List.mem_cons_self)]
    exact .run upper (List.forall_mem_nil _) digit letterless
      (detached.boundary Name.isNameChar_of_isDigit)

/-- A printed symbol is a lexeme, which ends where the blank behind it begins. -/
theorem Detached.exists_lexeme (detached : Detached after) (writable : symbol.isWritable = true) :
    ∃ lexeme : Lexeme, lexeme.chars = symbol.text.toList ∧ lexeme.Fits after ∧
      lexeme.symbol? = some symbol := by
  cases symbol with
  | terminal char =>
    refine ⟨.other char, ?_, .other writable after, rfl⟩
    rw [Symbol.text, String.toList_singleton]
    rfl
  | nonterminal name =>
    have valid : Name.isName name.toList = true := writable
    obtain ⟨lexeme, spelled, fits, stands⟩ := (detached.spans valid).exists_fits valid
    rw [String.ofList_toList] at stands
    exact ⟨lexeme, spelled, fits, stands⟩

/-- Every symbol that is read can be told from its text. -/
theorem isWritable_of_fits (fits : lexeme.Fits rest) (stands : lexeme.symbol? = some symbol) :
    symbol.isWritable = true := by
  cases symbol with
  | terminal char =>
    cases fits with
    | blank | bracketed | bare => cases stands
    | other terminal =>
      cases stands
      exact terminal
  | nonterminal name =>
    obtain ⟨valid, rfl⟩ := readName_eq_ok_iff.mp (fits.spans stands).2
    simpa [Symbol.isWritable, Name.isNonterminalName] using valid

/-! ## Right-hand sides -/

/-- The symbols of an alternative with a blank in front of each. -/
def symbolChars (alternative : Alternative) : List Char :=
  alternative.flatMap fun symbol => ' ' :: symbol.text.toList

theorem detached_symbolChars (alternative : Alternative) : Detached (symbolChars alternative) := by
  cases alternative with
  | nil => simp [Detached, symbolChars]
  | cons symbol rest => simp [Detached, symbolChars, Text.isBlank, Text.blankRanges]

theorem exists_lexes_symbolChars
    (writable : ∀ symbol ∈ alternative, symbol.isWritable = true) :
    ∃ lexemes, Lexes (symbolChars alternative) lexemes [] ∧
      lexemes.filterMap Lexeme.symbol? = alternative := by
  induction alternative with
  | nil => exact ⟨[], .nil [], rfl⟩
  | cons symbol rest ih =>
    obtain ⟨lexemes, lexes, stand⟩ :=
      ih fun other member => writable other (List.mem_cons_of_mem _ member)
    obtain ⟨lexeme, spelled, fits, stands⟩ :=
      (detached_symbolChars rest).exists_lexeme (writable symbol List.mem_cons_self)
    have blank : (Lexeme.blank ' ').Fits (lexeme.chars ++ symbolChars rest) :=
      .blank (by decide) _
    refine ⟨.blank ' ' :: lexeme :: lexemes, ?_, ?_⟩
    · rw [symbolChars, List.flatMap_cons, ← symbolChars, ← spelled]
      exact .cons blank (.cons fits lexes)
    · rw [List.filterMap_cons_none rfl, List.filterMap_cons_some stands, stand]

theorem Lexes.isWritable (lexes : Lexes chars lexemes rest) :
    ∀ symbol ∈ lexemes.filterMap Lexeme.symbol?, symbol.isWritable = true := by
  induction lexes with
  | nil => simp
  | cons fits _ ih =>
    intro symbol member
    obtain ⟨lexeme, listed, stands⟩ := List.mem_filterMap.mp member
    rcases List.mem_cons.mp listed with rfl | listed
    · exact isWritable_of_fits fits stands
    · exact ih symbol (List.mem_filterMap.mpr ⟨lexeme, listed, stands⟩)

/-! ## Rule lines -/

/-- The characters of a printed rule. -/
def ruleChars (lhs : String) (alternative : Alternative) : List Char :=
  lhs.toList ++ ' ' :: '-' :: '>' :: symbolChars alternative

/-- The rule can stand on a line of its own. -/
structure Writable (lhs : String) (alternative : Alternative) : Prop where
  name : Name.isNonterminalName lhs = true
  ne_nil : alternative ≠ []
  symbols : ∀ symbol ∈ alternative, symbol.isWritable = true

variable {lhs : String} {line : List Char}

theorem isRuleLine_ruleChars (name : Name.isNonterminalName lhs = true) :
    isRuleLine (ruleChars lhs alternative) = true := by
  obtain ⟨first, rest, equal, begins⟩ := Name.isName_cons name
  have nonblank := Name.isBlank_of_isNameChar
    (Name.isNameChar_of_isName name (equal ▸ List.mem_cons_self))
  obtain ⟨others, trimmed⟩ := Text.trim_cons nonblank
    (rest ++ ' ' :: '-' :: '>' :: symbolChars alternative)
  have uncommented : first ≠ ';' := by
    rintro rfl
    exact absurd begins (by decide)
  rw [isRuleLine, ruleChars, equal, List.cons_append, trimmed]
  simpa using uncommented

/-- Reading a printed rule gives the rule back. -/
theorem readRule_ruleChars (writable : Writable lhs alternative) :
    readRule (ruleChars lhs alternative) = .ok (lhs, alternative) := by
  have ofName : ∀ char ∈ lhs.toList, Name.isNameChar char = true := fun char =>
    Name.isNameChar_of_isName writable.name
  have dashless : '-' ∉ lhs.toList ++ [' '] := by
    intro member
    rcases List.mem_append.mp member with member | member
    · exact absurd (ofName _ member) (by decide)
    · exact absurd member (by decide)
  have arrow : Text.Arrow (ruleChars lhs alternative) (lhs.toList ++ [' '])
      (symbolChars alternative) :=
    ⟨by simp [ruleChars], fun inside => dashless (inside.subset List.mem_cons_self)⟩
  have trimmed : Text.trim (lhs.toList ++ [' ']) = lhs.toList := by
    rw [Text.trim_append_right (List.forall_mem_singleton.mpr (by decide))]
    exact Text.trim_of_nonblank fun char member => Name.isBlank_of_isNameChar (ofName char member)
  have valid : Name.isName (Text.trim (lhs.toList ++ [' '])) = true := by
    rw [trimmed]
    exact writable.name
  obtain ⟨lexemes, lexes, stand⟩ := exists_lexes_symbolChars writable.symbols
  have states := States.rule arrow valid lexes (by rw [stand]; exact writable.ne_nil)
  rw [trimmed, String.ofList_toList, stand] at states
  exact states.readRule_eq

/-- The only blanks of a printed rule are the spaces between its parts. -/
theorem eq_space_of_mem_ruleChars (writable : Writable lhs alternative) {char : Char}
    (member : char ∈ ruleChars lhs alternative) (blank : Text.isBlank char = true) :
    char = ' ' := by
  have ofNames : ∀ {name : String}, Name.isNonterminalName name = true → char ∉ name.toList := by
    intro name valid occurs
    rw [Name.isBlank_of_isNameChar (Name.isNameChar_of_isName valid occurs)] at blank
    cases blank
  simp only [ruleChars, symbolChars, List.mem_append, List.mem_cons, List.mem_flatMap] at member
  rcases member with inName | rfl | rfl | rfl | ⟨symbol, listed, rfl | inText⟩
  · exact absurd inName (ofNames writable.name)
  · rfl
  · exact absurd blank (by decide)
  · exact absurd blank (by decide)
  · rfl
  · have symbolWritable := writable.symbols symbol listed
    cases symbol with
    | terminal other =>
      rw [Symbol.text, String.toList_singleton, List.mem_singleton] at inText
      subst inText
      simp [Symbol.isWritable, isTerminal, blank] at symbolWritable
    | nonterminal name => exact absurd inText (ofNames symbolWritable)

/-- Whatever is read from a line can stand on one. -/
theorem writable_of_readRule (read : readRule line = .ok (lhs, alternative)) :
    Writable lhs alternative := by
  obtain ⟨arrow, valid, lexes, nonempty⟩ := readRule_eq_ok_iff.mp read
  refine ⟨?_, nonempty, lexes.isWritable⟩
  simpa [Name.isNonterminalName] using valid

end Source

end ContextFree
