import ContextFree.File.Error
import ContextFree.File.Path
import ContextFree.Grammar.Basic

/-!
# Faults of a grammar text

A fault is the cause for which a text is refused, and a report is a fault with its place.
-/

namespace ContextFree

/-- Why a grammar text is refused. -/
inductive Fault where
  | missingArrow
  | invalidNonterminal (text : String)
  | unmatchedBracket
  | emptyRightHandSide
  | undefinedNonterminal (name : String)
  | noRules
  | grammar (error : GrammarError)
  | file (error : FileError)
deriving DecidableEq, Repr

namespace Fault

/-- The wording of a fault. -/
def message : Fault → String
  | missingArrow => "Expected `->` between nonterminal and right-hand side"
  | invalidNonterminal text => "`" ++ text ++ "` is not a valid nonterminal"
  | unmatchedBracket => "Unmatched `[`"
  | emptyRightHandSide => "Empty right-hand side, empty productions are not supported"
  | undefinedNonterminal name => "Could not find definition for `" ++ name ++ "`"
  | noRules => "No rules found"
  | grammar error => error.message
  | file error => "File error: " ++ error.text

/-- The two faults have the same cause. The wording of a file error does not count. -/
def same : Fault → Fault → Bool
  | file left, file right => left.kind == right.kind
  | left, right => left == right

end Fault

/-- A line of a file, counted from 1, or the whole file when the line is 0. -/
structure Place where
  file : String
  line : Nat
deriving DecidableEq, Repr

namespace Place

/-- The file as a whole. -/
def whole (file : String) : Place := ⟨file, 0⟩

/-- A place as it is shown: the file as it was written, and the line behind a colon. -/
def text (place : Place) : String :=
  if place.line = 0 then place.file else place.file ++ ":" ++ toString place.line

/-- The two places are the same line of the same path. -/
def same (left right : Place) : Bool :=
  Path.same left.file right.file && left.line == right.line

end Place

/-- A fault and where it was found. -/
structure Report where
  place : Place
  fault : Fault
deriving DecidableEq, Repr

namespace Report

/-- A report as it is shown on a terminal, the place in red and the message in bold. -/
def text (report : Report) : String :=
  "\x1b[31;49;1m[" ++ report.place.text ++ "]\x1b[39;49;1m  " ++ report.fault.message ++ "\x1b[0m"

/-- The two reports give the same cause for the same place. -/
def same (left right : Report) : Bool :=
  left.place.same right.place && left.fault.same right.fault

end Report

end ContextFree
