/-!
# Lines

A line ends at a line feed, and a carriage return directly before the line feed belongs to
the line end. What follows the last line feed is a line too, unless it is empty.
-/

namespace ContextFree.Text

/-- Drops one carriage return from the front. Lines are collected in reverse, so this is
the end of the line. -/
def dropReturn : List Char → List Char
  | '\r' :: rest => rest
  | chars => chars

/-- The lines of a text, when `line` holds, in reverse, what has been read of the first one. -/
def linesFrom (line : List Char) : List Char → List (List Char)
  | [] => if line.isEmpty then [] else [line.reverse]
  | char :: rest =>
    if char = '\n' then (dropReturn line).reverse :: linesFrom [] rest
    else linesFrom (char :: line) rest

/-- The lines of a text. -/
def lines (chars : List Char) : List (List Char) := linesFrom [] chars

/-- The parts before and after the first arrow. -/
def splitArrow : List Char → Option (List Char × List Char)
  | [] => none
  | char :: rest =>
    match char, rest with
    | '-', '>' :: after => some ([], after)
    | _, _ => (splitArrow rest).map fun parts => (char :: parts.1, parts.2)

/-- The text with every line but the first indented by so many spaces. -/
def indentRest (width : Nat) (chars : List Char) : List Char :=
  chars.flatMap fun char => if char = '\n' then '\n' :: List.replicate width ' ' else [char]

end ContextFree.Text
