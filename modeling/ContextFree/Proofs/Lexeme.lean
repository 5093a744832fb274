import ContextFree.Source.Rule
import Mathlib.Data.List.Basic
import Mathlib.Data.List.TakeWhile

/-!
# Lexemes of a right-hand side

The lexemes of a right-hand side are blanks, names in brackets, bare names and single other
characters. Whether a lexeme fits at a place depends on its own characters and, for a bare name, on
the character behind it. The first piece of a text is read if a lexeme fits there
(`readPiece_eq_ok_iff`); otherwise the fault is an opening bracket that nothing closes, or what is
taken in for a name (`readPiece_eq_error_iff`).
-/

namespace ContextFree

/-! ## Names -/

namespace Name

variable {chars : List Char} {char : Char}

theorem isLettersDigits_iff :
    isLettersDigits chars = true ↔
      ∃ letters digits, chars = letters ++ digits ∧ letters ≠ [] ∧
        (∀ char ∈ letters, char.isAlpha = true) ∧ ∀ char ∈ digits, char.isDigit = true := by
  simp only [isLettersDigits, Bool.and_eq_true, Bool.not_eq_true', List.isEmpty_eq_false_iff,
    List.all_eq_true]
  constructor
  · rintro ⟨nonempty, digit⟩
    exact ⟨_, _, List.takeWhile_append_dropWhile.symm, nonempty,
      fun char => List.mem_takeWhile_imp, digit⟩
  · rintro ⟨letters, digits, rfl, nonempty, alpha, digit⟩
    rw [List.takeWhile_append_of_pos alpha, List.dropWhile_append_of_pos alpha]
    refine ⟨List.append_ne_nil_of_left_ne_nil nonempty _, fun char member => ?_⟩
    exact digit char ((List.dropWhile_sublist _).subset member)

theorem isAlphanum_of_isLettersDigits (lettersDigits : isLettersDigits chars = true)
    (member : char ∈ chars) : char.isAlphanum = true := by
  obtain ⟨letters, digits, rfl, -, alpha, digit⟩ := isLettersDigits_iff.mp lettersDigits
  rcases List.mem_append.mp member with member | member
  · simp [Char.isAlphanum, alpha char member]
  · simp [Char.isAlphanum, digit char member]

theorem isBracketed_iff :
    isBracketed chars = true ↔
      ∃ inner, chars = '[' :: (inner ++ [']']) ∧ isLettersDigits inner = true := by
  constructor
  · intro bracketed
    unfold isBracketed at bracketed
    split at bracketed
    · simp only [Bool.and_eq_true, beq_iff_eq] at bracketed
      obtain ⟨closed, inner⟩ := bracketed
      refine ⟨_, ?_, inner⟩
      rw [List.dropLast_append_getLast? _ closed]
    · cases bracketed
  · rintro ⟨inner, rfl, lettersDigits⟩
    simp [isBracketed, lettersDigits]

theorem isBare_iff :
    isBare chars = true ↔ ∃ letter digits, chars = letter :: digits ∧ letter.isUpper = true ∧
      digits.length ≤ 1 ∧ ∀ char ∈ digits, char.isDigit = true := by
  constructor
  · intro bare
    unfold isBare at bare
    split at bare
    · exact ⟨_, [], rfl, bare, by simp⟩
    · simp only [Bool.and_eq_true] at bare
      exact ⟨_, _, rfl, bare.1, by simpa using bare.2⟩
    · cases bare
  · rintro ⟨letter, digits, rfl, upper, short, digit⟩
    match digits with
    | [] => exact upper
    | [_] => simpa [isBare, upper] using digit
    | _ :: _ :: _ => simp at short

/-- The characters that names are made of. -/
def isNameChar (char : Char) : Bool := char == '[' || char == ']' || char.isAlphanum

theorem isNameChar_of_isAlpha (char : Char) (alpha : char.isAlpha = true) :
    isNameChar char = true := by
  simp [isNameChar, Char.isAlphanum, alpha]

theorem isNameChar_of_isDigit (char : Char) (digit : char.isDigit = true) :
    isNameChar char = true := by
  simp [isNameChar, Char.isAlphanum, digit]

theorem isNameChar_of_isName (name : isName chars = true) (member : char ∈ chars) :
    isNameChar char = true := by
  rw [isName, Bool.or_eq_true, isBracketed_iff, isBare_iff] at name
  rcases name with ⟨inner, rfl, lettersDigits⟩ | ⟨letter, digits, rfl, upper, -, digit⟩
  · simp only [List.mem_cons, List.mem_append, List.not_mem_nil, or_false] at member
    rcases member with rfl | member | rfl
    · rfl
    · simp [isNameChar, isAlphanum_of_isLettersDigits lettersDigits member]
    · rfl
  · rcases List.mem_cons.mp member with rfl | member
    · apply isNameChar_of_isAlpha
      unfold Char.isAlpha
      rw [upper, Bool.true_or]
    · exact isNameChar_of_isDigit char (digit char member)

theorem toNat_of_isNameChar (ofName : isNameChar char = true) :
    48 ≤ char.toNat ∧ char.toNat ≤ 122 := by
  unfold isNameChar Char.isAlphanum Char.isAlpha Char.isUpper Char.isLower Char.isDigit at ofName
  simp only [Bool.or_eq_true, beq_iff_eq, Bool.and_eq_true, decide_eq_true_eq, ge_iff_le,
    UInt32.le_iff_toNat_le, Char.reduceVal, UInt32.reduceToNat] at ofName
  unfold Char.toNat
  rcases ofName with (rfl | rfl) | ofName
  · decide
  · decide
  · omega

theorem isBlank_of_isNameChar (ofName : isNameChar char = true) : Text.isBlank char = false := by
  have bounds := toNat_of_isNameChar ofName
  simp only [Text.isBlank, Text.blankRanges, List.any_cons, List.any_nil, Bool.or_false,
    Bool.or_eq_false_iff, Bool.and_eq_false_iff, decide_eq_false_iff_not]
  omega

/-- A name is not empty, and it begins with a bracket or an upper-case letter. -/
theorem isName_cons (name : isName chars = true) :
    ∃ first rest, chars = first :: rest ∧ (first = '[' ∨ first.isUpper = true) := by
  rw [isName, Bool.or_eq_true, isBracketed_iff, isBare_iff] at name
  rcases name with ⟨inner, rfl, -⟩ | ⟨letter, digits, rfl, upper, -⟩
  · exact ⟨_, _, rfl, .inl rfl⟩
  · exact ⟨_, _, rfl, .inr upper⟩

theorem isAlpha_of_isDigit (digit : char.isDigit = true) : char.isAlpha = false := by
  unfold Char.isDigit at digit
  unfold Char.isAlpha Char.isUpper Char.isLower
  simp only [Bool.and_eq_true, Bool.or_eq_false_iff, Bool.and_eq_false_iff, decide_eq_true_eq,
    decide_eq_false_iff_not, ge_iff_le, UInt32.le_iff_toNat_le, Char.reduceVal,
    UInt32.reduceToNat] at digit ⊢
  omega

end Name

/-! ## Lexemes -/

namespace Source

/-- The character is a terminal wherever it begins a piece of a right-hand side. -/
def isTerminal (char : Char) : Bool :=
  !Text.isBlank char && char != '[' && !char.isUpper

/-- A part of a right-hand side that is read as a whole. -/
inductive Lexeme where
  | blank (char : Char)
  | bracketed (letters digits : List Char)
  | bare (letter : Char) (digit? : Option Char)
  | other (char : Char)
deriving DecidableEq, Repr

namespace Lexeme

/-- The text of a lexeme. -/
def chars : Lexeme → List Char
  | blank char => [char]
  | bracketed letters digits => '[' :: (letters ++ digits ++ [']'])
  | bare letter digit? => letter :: digit?.toList
  | other char => [char]

/-- The symbol that a lexeme stands for, none for a blank. -/
def symbol? : Lexeme → Option Symbol
  | blank _ => none
  | bracketed letters digits =>
    some (.nonterminal (String.ofList (bracketed letters digits).chars))
  | bare letter digit? => some (.nonterminal (String.ofList (bare letter digit?).chars))
  | other char => some (.terminal char)

/-- The lexeme can stand where `rest` follows. A name in brackets has at least one letter and then
digits. A bare name is an upper-case letter, which no letter follows, with at most one digit, which
no digit follows. -/
inductive Fits : Lexeme → List Char → Prop
  | blank {char : Char} (blank : Text.isBlank char = true) (rest : List Char) :
      Fits (.blank char) rest
  | bracketed {letters digits : List Char} (nonempty : letters ≠ [])
      (alpha : ∀ char ∈ letters, char.isAlpha = true)
      (digit : ∀ char ∈ digits, char.isDigit = true) (rest : List Char) :
      Fits (.bracketed letters digits) rest
  | bare {letter : Char} {digit? : Option Char} {rest : List Char}
      (upper : letter.isUpper = true) (digit : ∀ char ∈ digit?, char.isDigit = true)
      (letterless : ∀ next ∈ (digit?.toList ++ rest).head?, next.isAlpha = false)
      (digitless : ∀ next ∈ rest.head?, next.isDigit = false) :
      Fits (.bare letter digit?) rest
  | other {char : Char} (terminal : isTerminal char = true) (rest : List Char) :
      Fits (.other char) rest

theorem chars_ne_nil (lexeme : Lexeme) : lexeme.chars ≠ [] := by
  cases lexeme <;> simp [chars]

end Lexeme

/-- What is taken in for a name, valid or not, where `after` follows: all up to the first closing
bracket, or all letters and then all digits behind an upper-case letter. -/
inductive Spans : List Char → List Char → Prop
  | bracketed {inner : List Char} (unclosed : ']' ∉ inner) (after : List Char) :
      Spans ('[' :: (inner ++ [']'])) after
  | run {letter : Char} {letters digits after : List Char} (upper : letter.isUpper = true)
      (alpha : ∀ char ∈ letters, char.isAlpha = true)
      (digit : ∀ char ∈ digits, char.isDigit = true)
      (letterless : ∀ next ∈ (digits ++ after).head?, next.isAlpha = false)
      (digitless : ∀ next ∈ after.head?, next.isDigit = false) :
      Spans (letter :: (letters ++ digits)) after

variable {first : Char} {others chars text after rest : List Char} {name : String} {fault : Fault}
variable {lexeme : Lexeme} {symbol? : Option Symbol}

/-! ## Reading what stands at the beginning -/

theorem readName_eq_ok_iff :
    readName chars = .ok name ↔ Name.isName chars = true ∧ name = String.ofList chars := by
  unfold readName
  by_cases valid : Name.isName chars = true
  · simp [valid, eq_comm]
  · simp [valid]

/-- The longest run of characters of a class ends before the first one that is not of it. -/
theorem span_of_boundary {p : Char → Bool} (inside : ∀ char ∈ chars, p char = true)
    (boundary : ∀ next ∈ rest.head?, p next = false) :
    (chars ++ rest).takeWhile p = chars ∧ (chars ++ rest).dropWhile p = rest := by
  rw [List.takeWhile_append_of_pos inside, List.dropWhile_append_of_pos inside]
  cases rest with
  | nil => simp
  | cons next behind => simp [boundary next rfl]

theorem boundary_dropWhile (p : Char → Bool) (chars : List Char) :
    ∀ next ∈ (chars.dropWhile p).head?, p next = false := by
  intro next head
  have stops := List.head?_dropWhile_not p chars
  rw [Option.mem_def.mp head] at stops
  simpa using stops

theorem readPiece_blank (blank : Text.isBlank first = true) :
    readPiece first others = .ok (none, others) := by
  simp [readPiece, blank]

theorem readPiece_terminal (terminal : isTerminal first = true) :
    readPiece first others = .ok (some (.terminal first), others) := by
  simp only [isTerminal, Bool.and_eq_true, Bool.not_eq_true', bne_iff_ne] at terminal
  obtain ⟨⟨nonblank, unbracketed⟩, lower⟩ := terminal
  simp [readPiece, nonblank, unbracketed, lower]

theorem readPiece_unmatched (unclosed : ']' ∉ others) :
    readPiece '[' others = .error .unmatchedBracket := by
  have nonblank : Text.isBlank '[' = false := by decide
  have exhausted : others.dropWhile (· != ']') = [] := by
    rw [List.dropWhile_eq_nil_iff]
    intro char member
    rw [bne_iff_ne]
    rintro rfl
    exact unclosed member
  simp [readPiece, nonblank, exhausted]

theorem readPiece_of_spans (spans : Spans text after) (begins : first :: others = text ++ after) :
    readPiece first others =
      (readName text).map fun name => (some (.nonterminal name), after) := by
  cases spans with
  | @bracketed inner unclosed =>
    obtain ⟨rfl, rfl⟩ : first = '[' ∧ others = inner ++ ']' :: after := by simpa using begins
    have inside : ∀ char ∈ inner, (char != ']') = true := by
      intro char member
      rw [bne_iff_ne]
      rintro rfl
      exact unclosed member
    have boundary : ∀ next ∈ (']' :: after).head?, (next != ']') = false := by simp
    have ends := span_of_boundary inside boundary
    have nonblank : Text.isBlank '[' = false := by decide
    unfold readPiece
    rw [ends.1, ends.2]
    simp [nonblank]
  | @run letter letters digits _ upper alpha digit letterless digitless =>
    obtain ⟨rfl, rfl⟩ : first = letter ∧ others = letters ++ (digits ++ after) := by
      simpa using begins
    have lettersEnd := span_of_boundary alpha letterless
    have digitsEnd := span_of_boundary digit digitless
    have alphabetic : first.isAlpha = true := by
      unfold Char.isAlpha
      rw [upper, Bool.true_or]
    have nonblank := Name.isBlank_of_isNameChar (Name.isNameChar_of_isAlpha first alphabetic)
    have unbracketed : first ≠ '[' := by
      rintro rfl
      exact absurd upper (by decide)
    unfold readPiece
    dsimp only
    rw [lettersEnd.1, lettersEnd.2, digitsEnd.1, digitsEnd.2]
    simp [nonblank, unbracketed, upper]

/-- What can stand at the beginning of a text: a blank, a terminal, an opening bracket that
nothing closes, or what is taken in for a name. -/
theorem begins_cases (first : Char) (others : List Char) :
    Text.isBlank first = true ∨ isTerminal first = true ∨ first = '[' ∧ ']' ∉ others ∨
      ∃ text after, Spans text after ∧ first :: others = text ++ after := by
  by_cases blank : Text.isBlank first = true
  · exact .inl blank
  by_cases bracket : first = '['
  · by_cases closed : ']' ∈ others
    · obtain ⟨inner, after, rfl, unclosed⟩ := List.eq_append_cons_of_mem closed
      refine .inr (.inr (.inr ⟨_, after, .bracketed unclosed after, ?_⟩))
      simp [bracket]
    · exact .inr (.inr (.inl ⟨bracket, closed⟩))
  by_cases upper : first.isUpper = true
  · have lettersEnd := boundary_dropWhile Char.isAlpha others
    have digitsEnd := boundary_dropWhile Char.isDigit (others.dropWhile Char.isAlpha)
    have alpha : ∀ char ∈ others.takeWhile Char.isAlpha, char.isAlpha = true :=
      fun char => List.mem_takeWhile_imp
    have digit : ∀ char ∈ (others.dropWhile Char.isAlpha).takeWhile Char.isDigit,
        char.isDigit = true := fun char => List.mem_takeWhile_imp
    refine .inr (.inr (.inr ⟨_, _, .run upper alpha digit ?_ digitsEnd, ?_⟩))
    · rwa [List.takeWhile_append_dropWhile]
    · simp [List.takeWhile_append_dropWhile]
  · refine .inr (.inl ?_)
    simp [isTerminal, blank, bracket, upper]

/-- A lexeme that stands for a nonterminal is what is taken in for its name. -/
theorem Lexeme.Fits.spans (fits : lexeme.Fits after)
    (named : lexeme.symbol? = some (.nonterminal name)) :
    Spans lexeme.chars after ∧ readName lexeme.chars = .ok name := by
  cases fits with
  | blank | other => cases named
  | @bracketed letters digits nonempty alpha digit =>
    cases named
    have lettersDigits : Name.isLettersDigits (letters ++ digits) = true :=
      Name.isLettersDigits_iff.mpr ⟨letters, digits, rfl, nonempty, alpha, digit⟩
    have unclosed : ']' ∉ letters ++ digits := fun member =>
      absurd (Name.isAlphanum_of_isLettersDigits lettersDigits member) (by decide)
    have valid : Name.isName ('[' :: (letters ++ digits ++ [']'])) = true := by
      rw [Name.isName, Bool.or_eq_true]
      exact .inl (Name.isBracketed_iff.mpr ⟨letters ++ digits, rfl, lettersDigits⟩)
    exact ⟨.bracketed unclosed after, readName_eq_ok_iff.mpr ⟨valid, rfl⟩⟩
  | @bare letter digit? _ upper digit letterless digitless =>
    cases named
    have digits : ∀ char ∈ digit?.toList, char.isDigit = true := fun char member =>
      digit char (Option.mem_toList.mp member)
    have valid : Name.isName (letter :: digit?.toList) = true := by
      rw [Name.isName, Bool.or_eq_true]
      refine .inr (Name.isBare_iff.mpr ⟨letter, digit?.toList, rfl, upper, ?_, digits⟩)
      cases digit? <;> simp
    exact ⟨.run upper (List.forall_mem_nil _) digits letterless digitless,
      readName_eq_ok_iff.mpr ⟨valid, rfl⟩⟩

theorem readPiece_of_fits (fits : lexeme.Fits after)
    (begins : first :: others = lexeme.chars ++ after) :
    readPiece first others = .ok (lexeme.symbol?, after) := by
  have ofName : ∀ name, lexeme.symbol? = some (.nonterminal name) →
      readPiece first others = .ok (some (.nonterminal name), after) := by
    intro name named
    obtain ⟨spans, read⟩ := fits.spans named
    rw [readPiece_of_spans spans begins, read]
    rfl
  cases fits with
  | blank blank =>
    obtain ⟨rfl, rfl⟩ := List.cons.inj begins
    exact readPiece_blank blank
  | other terminal =>
    obtain ⟨rfl, rfl⟩ := List.cons.inj begins
    exact readPiece_terminal terminal
  | bracketed | bare => exact ofName _ rfl

/-- A valid name that is taken in is a lexeme. -/
theorem Spans.exists_fits (spans : Spans text after) (valid : Name.isName text = true) :
    ∃ lexeme : Lexeme, lexeme.chars = text ∧ lexeme.Fits after ∧
      lexeme.symbol? = some (.nonterminal (String.ofList text)) := by
  rw [Name.isName, Bool.or_eq_true, Name.isBracketed_iff, Name.isBare_iff] at valid
  cases spans with
  | @bracketed inner unclosed =>
    rcases valid with ⟨inner', equal, lettersDigits⟩ | ⟨letter, digits, equal, upper, -⟩
    · obtain rfl : inner = inner' := by simpa using equal
      obtain ⟨letters, digits, rfl, nonempty, alpha, digit⟩ :=
        Name.isLettersDigits_iff.mp lettersDigits
      exact ⟨.bracketed letters digits, rfl, .bracketed nonempty alpha digit after, rfl⟩
    · obtain ⟨rfl, -⟩ := List.cons.inj equal
      exact absurd upper (by decide)
  | @run letter letters digits _ upper alpha digit letterless digitless =>
    rcases valid with ⟨inner, equal, -⟩ | ⟨letter', digits', equal, -, short, digit'⟩
    · obtain ⟨rfl, -⟩ := List.cons.inj equal
      exact absurd upper (by decide)
    · obtain ⟨rfl, rfl⟩ := List.cons.inj equal
      -- A second letter would have to be a digit.
      have single : letters = [] := by
        rw [List.eq_nil_iff_forall_not_mem]
        intro char member
        have letterless := Name.isAlpha_of_isDigit (digit' char (List.mem_append_left _ member))
        rw [alpha char member] at letterless
        cases letterless
      subst single
      match digits with
      | [] => exact ⟨.bare letter none, rfl, .bare upper (by simp) letterless digitless, rfl⟩
      | [only] =>
        exact ⟨.bare letter (some only), rfl, .bare upper (by simpa using digit) letterless
          digitless, rfl⟩
      | _ :: _ :: _ => simp at short

/-- Reading the first piece finds the lexeme that fits. -/
theorem readPiece_eq_ok_iff :
    readPiece first others = .ok (symbol?, after) ↔
      ∃ lexeme : Lexeme, first :: others = lexeme.chars ++ after ∧ lexeme.Fits after ∧
        lexeme.symbol? = symbol? := by
  constructor
  · intro read
    rcases begins_cases first others with blank | terminal | ⟨rfl, unclosed⟩ |
      ⟨text, behind, spans, begins⟩
    · rw [readPiece_blank blank] at read
      cases read
      exact ⟨.blank first, rfl, .blank blank others, rfl⟩
    · rw [readPiece_terminal terminal] at read
      cases read
      exact ⟨.other first, rfl, .other terminal others, rfl⟩
    · rw [readPiece_unmatched unclosed] at read
      cases read
    · rw [readPiece_of_spans spans begins] at read
      cases named : readName text with
      | error fault =>
        rw [named] at read
        cases read
      | ok name =>
        rw [named] at read
        cases read
        obtain ⟨valid, rfl⟩ := readName_eq_ok_iff.mp named
        obtain ⟨lexeme, rfl, fits, stands⟩ := spans.exists_fits valid
        exact ⟨lexeme, begins, fits, stands⟩
  · rintro ⟨lexeme, begins, fits, rfl⟩
    exact readPiece_of_fits fits begins

/-- No lexeme fits at the beginning of the text. -/
def Stuck (chars : List Char) : Prop :=
  ∀ (lexeme : Lexeme) (after : List Char), lexeme.Fits after → chars ≠ lexeme.chars ++ after

/-- What is wrong at the beginning of a text where no lexeme fits. -/
inductive Misfit : List Char → Fault → Prop
  | unmatched {others : List Char} (unclosed : ']' ∉ others) :
      Misfit ('[' :: others) .unmatchedBracket
  | name {text after : List Char} (spans : Spans text after) :
      Misfit (text ++ after) (.invalidNonterminal (String.ofList text))

theorem readPiece_eq_error_iff :
    readPiece first others = .error fault ↔
      Stuck (first :: others) ∧ Misfit (first :: others) fault := by
  constructor
  · intro failed
    constructor
    · intro lexeme after fits begins
      rw [readPiece_of_fits fits begins] at failed
      cases failed
    · rcases begins_cases first others with blank | terminal | ⟨rfl, unclosed⟩ |
        ⟨text, behind, spans, begins⟩
      · rw [readPiece_blank blank] at failed
        cases failed
      · rw [readPiece_terminal terminal] at failed
        cases failed
      · rw [readPiece_unmatched unclosed] at failed
        cases failed
        exact .unmatched unclosed
      · rw [readPiece_of_spans spans begins, readName] at failed
        split at failed
        · cases failed
        · cases failed
          rw [begins]
          exact .name spans
  · rintro ⟨stuck, misfit⟩
    generalize begins : first :: others = chars at stuck misfit
    cases misfit with
    | unmatched unclosed =>
      cases begins
      exact readPiece_unmatched unclosed
    | @name text after spans =>
      have invalid : Name.isName text ≠ true := by
        intro valid
        obtain ⟨lexeme, rfl, fits, -⟩ := spans.exists_fits valid
        exact stuck lexeme after fits rfl
      rw [readPiece_of_spans spans begins, readName, if_neg invalid]
      rfl

end Source

end ContextFree
