import ContextFree.Proofs.Lexeme

/-!
# Right-hand sides as rows of lexemes

At most one lexeme fits at a place, so that a text is a row of lexemes in one way only, if in any.
The symbols that are read from a right-hand side are those of its lexemes
(`readSymbols_eq_ok_iff`), and reading fails at the place that lexemes lead up to and where none
fits (`readSymbols_eq_error_iff`).
-/

namespace ContextFree.Source

variable {first : Char} {others chars after rest : List Char} {fault : Fault}
variable {lexeme : Lexeme} {lexemes : List Lexeme}

/-- The text begins with the lexemes, one behind the other, and `rest` follows them. -/
inductive Lexes : List Char → List Lexeme → List Char → Prop
  | nil (rest : List Char) : Lexes rest [] rest
  | cons {lexeme : Lexeme} {lexemes : List Lexeme} {after rest : List Char} :
      lexeme.Fits after → Lexes after lexemes rest →
      Lexes (lexeme.chars ++ after) (lexeme :: lexemes) rest

theorem readSymbols_of_readPiece {symbol? : Option Symbol}
    (piece : readPiece first others = .ok (symbol?, after)) :
    readSymbols (first :: others) = (readSymbols after).map (symbol?.toList ++ ·) := by
  rw [readSymbols]
  split
  · rename_i fault failed
    rw [piece] at failed
    cases failed
  · rename_i read equal
    rw [piece] at equal
    cases equal
    rfl

theorem readSymbols_of_error (failed : readPiece first others = .error fault) :
    readSymbols (first :: others) = .error fault := by
  rw [readSymbols]
  split
  · rename_i other equal
    rw [failed] at equal
    cases equal
    rfl
  · rename_i read equal
    rw [failed] at equal
    cases equal

/-- Lexemes are read one after another. -/
theorem readSymbols_of_lexes (lexes : Lexes chars lexemes rest) :
    readSymbols chars = (readSymbols rest).map (lexemes.filterMap Lexeme.symbol? ++ ·) := by
  induction lexes with
  | nil rest => cases readSymbols rest <;> rfl
  | @cons lexeme lexemes after rest fits lexes ih =>
    obtain ⟨first, others, begins⟩ := List.exists_cons_of_ne_nil
      (List.append_ne_nil_of_left_ne_nil lexeme.chars_ne_nil after)
    rw [begins, readSymbols_of_readPiece (readPiece_of_fits fits begins.symm), ih]
    cases readSymbols rest with
    | error fault => rfl
    | ok symbols => cases stands : lexeme.symbol? <;> simp [Except.map, stands]

/-- Every text is a row of lexemes, up to its end or up to a place where no lexeme fits. -/
theorem exists_lexes (chars : List Char) :
    ∃ lexemes rest, Lexes chars lexemes rest ∧
      (rest = [] ∨ Stuck rest ∧ ∃ fault, Misfit rest fault) := by
  fun_induction readSymbols chars with
  | case1 => exact ⟨[], [], .nil [], .inl rfl⟩
  | case2 first others fault failed =>
    obtain ⟨stuck, misfit⟩ := readPiece_eq_error_iff.mp failed
    exact ⟨[], _, .nil _, .inr ⟨stuck, fault, misfit⟩⟩
  | case3 first others symbol? after piece ih =>
    obtain ⟨lexeme, begins, fits, -⟩ := readPiece_eq_ok_iff.mp piece
    obtain ⟨lexemes, rest, lexes, ends⟩ := ih
    rw [begins]
    exact ⟨lexeme :: lexemes, rest, .cons fits lexes, ends⟩

theorem Misfit.ne_nil (misfit : Misfit chars fault) : chars ≠ [] := by
  cases misfit with
  | unmatched => simp
  | name spans => cases spans <;> simp

theorem readSymbols_of_misfit (stuck : Stuck chars) (misfit : Misfit chars fault) :
    readSymbols chars = .error fault := by
  obtain ⟨first, others, rfl⟩ := List.exists_cons_of_ne_nil misfit.ne_nil
  exact readSymbols_of_error (readPiece_eq_error_iff.mpr ⟨stuck, misfit⟩)

/-- A text that can be read is a row of lexemes, and its symbols are theirs. -/
theorem readSymbols_eq_ok_iff {symbols : Alternative} :
    readSymbols chars = .ok symbols ↔
      ∃ lexemes, Lexes chars lexemes [] ∧ lexemes.filterMap Lexeme.symbol? = symbols := by
  have complete : ∀ {lexemes}, Lexes chars lexemes [] →
      readSymbols chars = .ok (lexemes.filterMap Lexeme.symbol?) := by
    intro lexemes lexes
    rw [readSymbols_of_lexes lexes, readSymbols]
    simp [Except.map]
  constructor
  · intro read
    obtain ⟨lexemes, rest, lexes, rfl | ⟨stuck, fault, misfit⟩⟩ := exists_lexes chars
    · rw [complete lexes] at read
      exact ⟨lexemes, lexes, Except.ok.inj read⟩
    · rw [readSymbols_of_lexes lexes, readSymbols_of_misfit stuck misfit] at read
      cases read
  · rintro ⟨lexemes, lexes, rfl⟩
    exact complete lexes

/-- Reading fails at a place that lexemes lead up to and where none fits. -/
theorem readSymbols_eq_error_iff :
    readSymbols chars = .error fault ↔
      ∃ lexemes rest, Lexes chars lexemes rest ∧ Stuck rest ∧ Misfit rest fault := by
  have stops : ∀ {lexemes rest fault}, Lexes chars lexemes rest → Stuck rest →
      Misfit rest fault → readSymbols chars = .error fault := by
    intro lexemes rest fault lexes stuck misfit
    rw [readSymbols_of_lexes lexes, readSymbols_of_misfit stuck misfit]
    rfl
  constructor
  · intro failed
    obtain ⟨lexemes, rest, lexes, rfl | ⟨stuck, other, misfit⟩⟩ := exists_lexes chars
    · rw [readSymbols_eq_ok_iff.mpr ⟨lexemes, lexes, rfl⟩] at failed
      cases failed
    · rw [stops lexes stuck misfit] at failed
      cases failed
      exact ⟨lexemes, rest, lexes, stuck, misfit⟩
  · rintro ⟨lexemes, rest, lexes, stuck, misfit⟩
    exact stops lexes stuck misfit

/-! ## One row only -/

theorem stuck_nil : Stuck [] := by
  intro lexeme after _ begins
  exact lexeme.chars_ne_nil (List.append_eq_nil_iff.mp begins.symm).1

theorem stuck_unmatched (unclosed : ']' ∉ others) : Stuck ('[' :: others) :=
  (readPiece_eq_error_iff.mp (readPiece_unmatched unclosed)).1

/-- The letters of a name in brackets end where its digits begin. -/
theorem letters_eq_of_append_eq {letters digits letters' digits' : List Char}
    (same : letters ++ digits = letters' ++ digits')
    (alpha : ∀ char ∈ letters, char.isAlpha = true) (digit : ∀ char ∈ digits, char.isDigit = true)
    (alpha' : ∀ char ∈ letters', char.isAlpha = true)
    (digit' : ∀ char ∈ digits', char.isDigit = true) : letters = letters' := by
  have boundary : ∀ {digits : List Char}, (∀ char ∈ digits, char.isDigit = true) →
      ∀ next ∈ digits.head?, next.isAlpha = false := fun digit next head =>
    Name.isAlpha_of_isDigit (digit next (List.mem_of_mem_head? head))
  rw [← (span_of_boundary alpha (boundary digit)).1, same]
  exact (span_of_boundary alpha' (boundary digit')).1

/-- A lexeme that fits is known by its text and its symbol. -/
theorem Lexeme.Fits.eq_of_chars_eq {other : Lexeme} (fits : lexeme.Fits after)
    (fits' : other.Fits rest) (sameChars : lexeme.chars = other.chars)
    (sameSymbol : lexeme.symbol? = other.symbol?) : lexeme = other := by
  cases fits with
  | blank =>
    cases fits' with
    | blank => rw [List.singleton_inj.mp sameChars]
    | bracketed | bare | other => cases sameSymbol
  | other =>
    cases fits' with
    | other => rw [List.singleton_inj.mp sameChars]
    | blank | bracketed | bare => cases sameSymbol
  | bracketed _ alpha digit =>
    cases fits' with
    | bracketed _ alpha' digit' =>
      have same := List.append_cancel_right (List.cons.inj sameChars).2
      obtain rfl := letters_eq_of_append_eq same alpha digit alpha' digit'
      rw [List.append_cancel_left same]
    | bare upper =>
      obtain ⟨rfl, -⟩ := List.cons.inj sameChars
      exact absurd upper (by decide)
    | blank | other => cases sameSymbol
  | bare upper =>
    cases fits' with
    | bare =>
      obtain ⟨rfl, sameDigit⟩ := List.cons.inj sameChars
      have same := congrArg List.head? sameDigit
      rw [Option.head?_toList, Option.head?_toList] at same
      rw [same]
    | bracketed =>
      obtain ⟨rfl, -⟩ := List.cons.inj sameChars
      exact absurd upper (by decide)
    | blank | other => cases sameSymbol

/-- At most one lexeme fits at a place. -/
theorem Lexeme.Fits.unique {other : Lexeme} (fits : lexeme.Fits after) (fits' : other.Fits rest)
    (same : lexeme.chars ++ after = other.chars ++ rest) : lexeme = other ∧ after = rest := by
  obtain ⟨first, others, begins⟩ := List.exists_cons_of_ne_nil
    (List.append_ne_nil_of_left_ne_nil lexeme.chars_ne_nil after)
  have read := readPiece_of_fits fits begins.symm
  rw [readPiece_of_fits fits' (begins.symm.trans same)] at read
  obtain ⟨sameSymbol, rfl⟩ := Prod.mk.inj (Except.ok.inj read)
  exact ⟨fits.eq_of_chars_eq fits' (List.append_cancel_right same) sameSymbol.symm, rfl⟩

/-- No row of lexemes goes past a place where none fits. -/
theorem Lexes.isPrefix {others : List Lexeme} {behind : List Char}
    (lexes : Lexes chars lexemes rest) (stuck : Stuck rest) (lexes' : Lexes chars others behind) :
    others <+: lexemes := by
  induction lexes' generalizing lexemes with
  | nil => exact List.nil_prefix
  | @cons lexeme others after behind fits lexes' ih =>
    generalize begins : lexeme.chars ++ after = chars at lexes
    cases lexes with
    | nil => exact absurd begins.symm (stuck lexeme after fits)
    | @cons lexeme' lexemes after' rest fits' lexes =>
      obtain ⟨rfl, rfl⟩ := fits.unique fits' begins
      exact List.cons_prefix_cons.mpr ⟨rfl, ih lexes⟩

/-- The symbols of a right-hand side are those of the lexemes that it is made of, which it is in
one way only. Otherwise reading fails at the first place where no lexeme fits, for an opening
bracket that nothing closes, or for what is taken in for a name there. -/
theorem readSymbols_reads_lexemes (chars : List Char) :
    (∀ symbols, readSymbols chars = .ok symbols ↔
      ∃ lexemes, Lexes chars lexemes [] ∧ lexemes.filterMap Lexeme.symbol? = symbols) ∧
    (∀ first second, Lexes chars first [] → Lexes chars second [] → first = second) ∧
    (∀ fault, readSymbols chars = .error fault ↔
      ∃ lexemes rest, Lexes chars lexemes rest ∧ Stuck rest ∧ Misfit rest fault ∧
        ∀ others behind, Lexes chars others behind → others <+: lexemes) ∧
    (readSymbols chars = .error .unmatchedBracket ↔
      ∃ lexemes others, Lexes chars lexemes ('[' :: others) ∧ ']' ∉ others) := by
  refine ⟨fun symbols => readSymbols_eq_ok_iff, ?_, ?_, ?_⟩
  · intro first second lexes lexes'
    have forth := lexes.isPrefix stuck_nil lexes'
    have back := lexes'.isPrefix stuck_nil lexes
    exact back.eq_of_length_le forth.length_le
  · intro fault
    rw [readSymbols_eq_error_iff]
    constructor
    · rintro ⟨lexemes, rest, lexes, stuck, misfit⟩
      exact ⟨lexemes, rest, lexes, stuck, misfit, fun others behind => lexes.isPrefix stuck⟩
    · rintro ⟨lexemes, rest, lexes, stuck, misfit, -⟩
      exact ⟨lexemes, rest, lexes, stuck, misfit⟩
  · rw [readSymbols_eq_error_iff]
    constructor
    · rintro ⟨lexemes, rest, lexes, stuck, misfit⟩
      cases misfit with
      | unmatched unclosed => exact ⟨lexemes, _, lexes, unclosed⟩
    · rintro ⟨lexemes, others, lexes, unclosed⟩
      exact ⟨lexemes, _, lexes, stuck_unmatched unclosed, .unmatched unclosed⟩

example : readSymbols "E1a]".toList = .ok [.nonterminal "E1", .terminal 'a', .terminal ']'] := by
  decide +kernel

example : readSymbols "x [ab ]".toList = .error (.invalidNonterminal "[ab ]") := by
  decide +kernel

end ContextFree.Source
