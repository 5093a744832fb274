/-!
# Symbols and words

A grammar is written over terminals, which are single characters, and nonterminals, which
are names. A word is the list of its characters.
-/

namespace ContextFree

/-- A word, one terminal per character. -/
abbrev Word := List Char

/-- One symbol of a right-hand side. -/
inductive Symbol where
  | terminal (char : Char)
  | nonterminal (name : String)
deriving DecidableEq, Repr, Inhabited

/-- The right-hand side of one production. -/
abbrev Alternative := List Symbol

namespace Symbol

/-- The name of a nonterminal. -/
def name? : Symbol → Option String
  | terminal _ => none
  | nonterminal name => some name

/-- The character of a terminal. -/
def char? : Symbol → Option Char
  | terminal char => some char
  | nonterminal _ => none

/-- A symbol as it is printed. -/
def text : Symbol → String
  | terminal char => String.singleton char
  | nonterminal name => name

end Symbol

namespace Alternative

/-- The nonterminals of an alternative, from left to right. -/
def names (alternative : Alternative) : List String :=
  alternative.filterMap Symbol.name?

/-- The terminals of an alternative, from left to right. -/
def chars (alternative : Alternative) : List Char :=
  alternative.filterMap Symbol.char?

/-- An alternative as it is printed: its symbols with a blank between two. -/
def text (alternative : Alternative) : String :=
  String.intercalate " " (alternative.map Symbol.text)

/-- Every nonterminal of the alternative is one of `known`. -/
def within (known : List String) (alternative : Alternative) : Bool :=
  (names alternative).all known.contains

end Alternative

end ContextFree
