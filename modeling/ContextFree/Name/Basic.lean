/-!
# Nonterminal names

A name is an upper-case letter, an upper-case letter and a digit, or letters followed by
digits in brackets. Letters and digits are those of ASCII.
-/

namespace ContextFree.Name

/-- At least one letter, then digits, and nothing else. -/
def isLettersDigits (chars : List Char) : Bool :=
  !(chars.takeWhile Char.isAlpha).isEmpty && (chars.dropWhile Char.isAlpha).all Char.isDigit

/-- Letters and then digits, in brackets. -/
def isBracketed : List Char → Bool
  | '[' :: rest => rest.getLast? == some ']' && isLettersDigits rest.dropLast
  | _ => false

/-- An upper-case letter with at most one digit behind it. -/
def isBare : List Char → Bool
  | [letter] => letter.isUpper
  | [letter, digit] => letter.isUpper && digit.isDigit
  | _ => false

/-- The characters form a nonterminal name. -/
def isName (chars : List Char) : Bool := isBracketed chars || isBare chars

/-- The text is a nonterminal name. -/
def isNonterminalName (text : String) : Bool := isName text.toList

end ContextFree.Name
