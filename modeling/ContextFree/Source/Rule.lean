import ContextFree.Name.Basic
import ContextFree.Source.Fault
import ContextFree.Text.Blank
import ContextFree.Text.Line

/-!
# Rule lines

A rule line is a name, an arrow and a right-hand side. The right-hand side is read piece by
piece: a blank, a name in brackets, a name that begins with an upper-case letter, or any
other character, which is a terminal.
-/

namespace ContextFree.Source

/-- The name that the characters spell. -/
def readName (chars : List Char) : Except Fault String :=
  if Name.isName chars then .ok (String.ofList chars)
  else .error (.invalidNonterminal (String.ofList chars))

/-- The first piece of a right-hand side, which begins with `char`: the symbol that it stands
for, none for a blank, and what follows it. A name in brackets goes on to the next closing
bracket; one that begins with an upper-case letter takes in all letters and then all digits
that follow. -/
def readPiece (char : Char) (rest : List Char) : Except Fault (Option Symbol × List Char) :=
  if Text.isBlank char then .ok (none, rest)
  else if char = '[' then
    match rest.dropWhile (· != ']') with
    | [] => .error .unmatchedBracket
    | _ :: after =>
      (readName ('[' :: rest.takeWhile (· != ']') ++ [']'])).map fun name =>
        (some (.nonterminal name), after)
  else if char.isUpper then
    let letters := rest.takeWhile Char.isAlpha
    let behind := rest.dropWhile Char.isAlpha
    (readName (char :: letters ++ behind.takeWhile Char.isDigit)).map fun name =>
      (some (.nonterminal name), behind.dropWhile Char.isDigit)
  else .ok (some (.terminal char), rest)

theorem length_dropWhile_le (p : Char → Bool) (chars : List Char) :
    (chars.dropWhile p).length ≤ chars.length :=
  (List.dropWhile_sublist p).length_le

/-- What follows a piece is no longer than what followed its first character. -/
theorem length_le_of_readPiece {char : Char} {rest after : List Char} {symbol? : Option Symbol}
    (h : readPiece char rest = .ok (symbol?, after)) : after.length ≤ rest.length := by
  unfold readPiece at h
  split at h
  · cases h
    exact Nat.le_refl _
  · split at h
    · split at h
      · cases h
      · rename_i head tail hdrop
        have hle := length_dropWhile_le (· != ']') rest
        rw [hdrop, List.length_cons] at hle
        cases hname : readName ('[' :: rest.takeWhile (· != ']') ++ [']']) with
        | error fault => rw [hname] at h; cases h
        | ok name => rw [hname] at h; cases h; omega
    · split at h
      · have hletters := length_dropWhile_le Char.isAlpha rest
        have hdigits := length_dropWhile_le Char.isDigit (rest.dropWhile Char.isAlpha)
        dsimp only at h
        cases hname : readName (char :: rest.takeWhile Char.isAlpha ++
            (rest.dropWhile Char.isAlpha).takeWhile Char.isDigit) with
        | error fault => rw [hname] at h; cases h
        | ok name => rw [hname] at h; cases h; omega
      · cases h
        exact Nat.le_refl _

/-- The symbols of a right-hand side, or the fault of its first bad piece. -/
def readSymbols : List Char → Except Fault Alternative
  | [] => .ok []
  | char :: rest =>
    match _ : readPiece char rest with
    | .error fault => .error fault
    | .ok (symbol?, after) => (readSymbols after).map (symbol?.toList ++ ·)
termination_by chars => chars.length
decreasing_by
  have := length_le_of_readPiece (by assumption)
  rw [List.length_cons]
  omega

/-- The left-hand side and the symbols of a rule line, or its first fault: a missing arrow,
then the name, then the right-hand side from left to right, then its being empty. -/
def readRule (line : List Char) : Except Fault (String × Alternative) :=
  match Text.splitArrow line with
  | none => .error .missingArrow
  | some (lhs, rhs) =>
    match readName (Text.trim lhs), readSymbols rhs with
    | .error fault, _ => .error fault
    | .ok _, .error fault => .error fault
    | .ok name, .ok alternative =>
      if alternative.isEmpty then .error .emptyRightHandSide else .ok (name, alternative)

/-- The line holds a rule: it is not blank, and it is no comment, which begins with a
semicolon. -/
def isRuleLine (line : List Char) : Bool :=
  match Text.trim line with
  | [] => false
  | char :: _ => char != ';'

end ContextFree.Source
