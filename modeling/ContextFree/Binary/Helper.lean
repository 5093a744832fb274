import ContextFree.Binary.Basic
import ContextFree.NormalForm.Basic

/-!
# Helpers for terminals

Inside a pair a terminal gives way to its helper, a nonterminal that derives this terminal and
nothing else. A rule that does just that already is used, except for the start symbol; the other
helpers are fresh and follow the rules of the grammar.

All helpers are collected before the first one is put in, instead of one by one where a pair needs
it. The names are the same: the terminals are taken in the order in which they are first needed, so
that the fresh names are handed out in that order (`firstOccurrences_unserved`), and a terminal that
is met again has its helper by then in either case (`helperFor_cases`).
-/

namespace ContextFree.BinaryGrammar

/-- The terminals inside a production's pair, from left to right. -/
def pairChars : BinaryProduction → List Char
  | .terminal _ => []
  | .pair left right => left.char?.toList ++ right.char?.toList

/-- The terminals that stand in a pair, in the order in which they first do. -/
def pairedChars (b : BinaryGrammar) : List Char :=
  (b.rules.values.flatten.flatMap pairChars).eraseDups

/-- The first nonterminal, other than the start symbol, whose only production is `char`. -/
def existingHelper? (b : BinaryGrammar) (char : Char) : Option String :=
  (b.rules.entries.find? fun entry =>
    entry.1 != b.start && entry.2 == [BinaryProduction.terminal char]).map Prod.fst

/-- The helpers that are there already, one for each terminal in a pair that has one. -/
def existingHelpers (b : BinaryGrammar) : List (Char × String) :=
  b.pairedChars.filterMap fun char => (b.existingHelper? char).map fun name => (char, name)

/-- Fresh helpers for the terminals in pairs that have none, in order of first need. -/
def freshHelpers (b : BinaryGrammar) (supply : NameSupply) : List (Char × String) × NameSupply :=
  NameSupply.freshFor .helper
    (b.pairedChars.filter fun char => (b.existingHelper? char).isNone) supply

/-- The nonterminal that stands for a symbol in a pair: itself, or the helper. Every terminal
in a pair of the grammar has one, so that the empty name is never used. -/
def sideName (helpers : List (Char × String)) : Symbol → String
  | .nonterminal name => name
  | .terminal char => (helpers.lookup char).getD ""

/-- The production with helpers in place of the terminals in its pair. -/
def isolate (helpers : List (Char × String)) : BinaryProduction → Production
  | .terminal char => .terminal char
  | .pair left right => .pair (sideName helpers left) (sideName helpers right)

/-- The normal form of a binary grammar: its rules with helpers inside the pairs, then the
fresh helpers. -/
def toNormalForm (b : BinaryGrammar) (supply : NameSupply) : NormalForm × NameSupply :=
  let (created, supply) := b.freshHelpers supply
  let helpers := b.existingHelpers ++ created
  let entries := b.rules.entries.map fun entry => (entry.1, entry.2.map (isolate helpers))
  let helperEntries := created.map fun helper => (helper.2, [Production.terminal helper.1])
  (⟨b.start, .ofList (entries ++ helperEntries)⟩, supply)

end ContextFree.BinaryGrammar
