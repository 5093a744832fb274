/-!
# Control sequences

What a terminal would show of a text: control characters and the sequences that they begin
are left out, apart from the blank ones. An escape sequence ends with its final character. A
control sequence, which begins with escape and a bracket, ends with its final character too. A
control string runs up to its terminator and hides all that it holds.

Main statements: `withoutControls_eq_self`, text without control characters stays as it is, and
`showsOutside_of_mem_withoutControls`, nothing else is left of any text.
-/

namespace ContextFree.Text

/-- Where in a sequence a text is. -/
inductive ControlState where
  /-- Outside of any sequence. -/
  | outside
  /-- After the escape character. -/
  | escape
  /-- After the escape character and an intermediate character. -/
  | escapeIntermediate
  /-- In a control sequence. -/
  | sequence
  /-- In an operating system command. -/
  | systemCommand
  /-- At the beginning of a device control string. -/
  | deviceEntry
  /-- After a parameter of a device control string. -/
  | deviceParameter
  /-- After an intermediate character of a device control string. -/
  | deviceIntermediate
  /-- In the data of any other control string. -/
  | data
deriving DecidableEq, Repr

/-- The character is a control character of ASCII. -/
def isControl (char : Char) : Bool := char < ' ' || char == '\x7f'

/-- The control character is a blank of ASCII: tab, line feed, form feed, carriage return. -/
def isBlankControl (char : Char) : Bool :=
  char == '\t' || char == '\n' || char == '\x0c' || char == '\r'

/-- The character can stand between the beginning of a sequence and its end. -/
def isIntermediate (char : Char) : Bool := ' ' ≤ char && char ≤ '/'

/-- The character can be part of a parameter. -/
def isParameter (char : Char) : Bool := '0' ≤ char && char ≤ '?'

/-- The character can be part of a parameter at its beginning only. -/
def isPrivateMark (char : Char) : Bool := '<' ≤ char && char ≤ '?'

/-- The character can end a sequence. -/
def isFinal (char : Char) : Bool := '@' ≤ char && char ≤ '~'

/-- The string terminator is the byte `9C`, wherever in the encoding of a character it is. -/
def holdsTerminator (char : Char) : Bool := (String.utf8EncodeChar char).contains 0x9c

namespace ControlState

/-- The state after a character. The escape character begins a new sequence in any state, and
cancel and substitute end any sequence. -/
def next (state : ControlState) (char : Char) : ControlState :=
  if char = '\x1b' then .escape
  else if char = '\x18' ∨ char = '\x1a' then .outside
  else
    match state with
    | outside => .outside
    | escape =>
      if isIntermediate char then .escapeIntermediate
      else if char = '[' then .sequence
      else if char = ']' then .systemCommand
      else if char = 'P' then .deviceEntry
      else if char = 'X' ∨ char = '^' ∨ char = '_' then .data
      else if isParameter char || isFinal char then .outside
      else .escape
    | escapeIntermediate =>
      if isParameter char || isFinal char then .outside else .escapeIntermediate
    | sequence => if isFinal char then .outside else .sequence
    | systemCommand => if char = '\x07' then .outside else .systemCommand
    | deviceEntry =>
      if isFinal char then .data
      else if isParameter char then .deviceParameter
      else if isIntermediate char then .deviceIntermediate
      else .deviceEntry
    | deviceParameter =>
      if isFinal char || isPrivateMark char then .data
      else if isIntermediate char then .deviceIntermediate
      else .deviceParameter
    | deviceIntermediate =>
      if isFinal char || isParameter char then .data else .deviceIntermediate
    | data => if holdsTerminator char then .outside else .data

/-- The character is shown. Outside of a sequence everything is but the control characters that
are not blank. The blank ones are shown in a sequence too, unless it is a control string. -/
def shows (state : ControlState) (char : Char) : Bool :=
  match state with
  | outside => !isControl char || isBlankControl char
  | escape | escapeIntermediate | sequence => isBlankControl char
  | systemCommand | deviceEntry | deviceParameter | deviceIntermediate | data => false

end ControlState

/-- What is shown of a text from a state on. A blank control character suspends the sequence
that it is in: what follows is shown as text, up to the next control character that is not
blank. There the sequence goes on, unless there has been a character beyond ASCII, which
ends it. -/
def shownFrom (state : ControlState) (suspended : Bool) : List Char → List Char
  | [] => []
  | char :: rest =>
    if suspended && ControlState.outside.shows char then
      char ::
        (if char.toNat < 0x80 then shownFrom state true rest else shownFrom .outside false rest)
    else if state.shows char then
      char :: shownFrom (state.next char) (state != .outside) rest
    else shownFrom (state.next char) false rest

/-- What is shown of a text. -/
def withoutControls (chars : List Char) : List Char := shownFrom .outside false chars

theorem ControlState.outside_shows_of_shows {state : ControlState} {char : Char}
    (h : state.shows char) : ControlState.outside.shows char := by
  cases state <;> simp_all [ControlState.shows]

/-- Whatever is left of a text is shown outside of sequences. -/
theorem showsOutside_of_mem_shownFrom {state : ControlState} {suspended : Bool}
    {chars : List Char} {char : Char} (h : char ∈ shownFrom state suspended chars) :
    ControlState.outside.shows char := by
  fun_induction shownFrom state suspended chars <;>
    grind [ControlState.outside_shows_of_shows]

theorem showsOutside_of_mem_withoutControls {chars : List Char} {char : Char}
    (h : char ∈ withoutControls chars) : ControlState.outside.shows char :=
  showsOutside_of_mem_shownFrom h

theorem ControlState.outside_next {char : Char} (h : ControlState.outside.shows char) :
    ControlState.outside.next char = .outside := by
  have escape : char ≠ '\x1b' := by rintro rfl; exact absurd h (by decide)
  simp [ControlState.next, escape]

/-- A text of characters that are all shown stays as it is. -/
theorem withoutControls_eq_self {chars : List Char}
    (h : ∀ char ∈ chars, ControlState.outside.shows char) : withoutControls chars = chars := by
  unfold withoutControls
  induction chars with
  | nil => rfl
  | cons char rest ih =>
    have head := h char (by simp)
    have tail := ih fun other member => h other (by simp [member])
    simp [shownFrom, head, ControlState.outside_next head, tail]

end ContextFree.Text
