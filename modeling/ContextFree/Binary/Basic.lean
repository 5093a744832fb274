import ContextFree.Grammar.Derivation
import ContextFree.Name.Supply

/-!
# Binary grammars

In a binary grammar a production is a single terminal or a pair of symbols. A longer
alternative is split into a chain of pairs, in which fresh nonterminals, the links, stand for
all but the first symbol that is left.
-/

namespace ContextFree

/-- A production of a binary grammar. -/
inductive BinaryProduction where
  | terminal (char : Char)
  | pair (left right : Symbol)
deriving DecidableEq, Repr, Inhabited

/-- The right-hand side that a production stands for. -/
def BinaryProduction.alternative : BinaryProduction → Alternative
  | terminal char => [.terminal char]
  | pair left right => [left, right]

/-- A start symbol and the productions of each nonterminal. -/
structure BinaryGrammar where
  start : String
  rules : RuleTable (List BinaryProduction)
deriving DecidableEq

/-- The grammar with the same productions. -/
def BinaryGrammar.toGrammar (b : BinaryGrammar) : Grammar :=
  ⟨b.start, b.rules.mapValues fun _ productions =>
    productions.map BinaryProduction.alternative⟩

namespace BinaryGrammar

/-- Links with their only production, in the order in which they were made. -/
abbrev Links := List (String × BinaryProduction)

/-- The pair for an alternative of two or more symbols, and the links it needs. -/
def chain (first second : Symbol) :
    (rest : List Symbol) → NameSupply → BinaryProduction × Links × NameSupply
  | [], supply => (.pair first second, [], supply)
  | third :: rest, supply =>
    let (link, supply) := supply.fresh .link
    let (production, links, supply) := chain second third rest supply
    (.pair first (.nonterminal link), (link, production) :: links, supply)

/-- The productions for a list of alternatives, and the links they need. An empty alternative
and a unit production have no binary form and are passed over. -/
def ofAlternatives :
    List Alternative → NameSupply → List BinaryProduction × Links × NameSupply
  | [], supply => ([], [], supply)
  | alternative :: others, supply =>
    match alternative with
    | [] | [.nonterminal _] => ofAlternatives others supply
    | [.terminal char] =>
      let (productions, links, supply) := ofAlternatives others supply
      (.terminal char :: productions, links, supply)
    | first :: second :: rest =>
      let (production, links, supply) := chain first second rest supply
      let (productions, moreLinks, supply) := ofAlternatives others supply
      (production :: productions, links ++ moreLinks, supply)

/-- The rules for a list of rules, and the links they need. -/
def ofEntries : List (String × List Alternative) → NameSupply →
    List (String × List BinaryProduction) × Links × NameSupply
  | [], supply => ([], [], supply)
  | (lhs, alternatives) :: others, supply =>
    let (productions, links, supply) := ofAlternatives alternatives supply
    let (entries, moreLinks, supply) := ofEntries others supply
    ((lhs, productions) :: entries, links ++ moreLinks, supply)

/-- The binary grammar for a grammar without unit productions: its own nonterminals in their
order, then the links. -/
def ofGrammar (g : Grammar) (supply : NameSupply) : BinaryGrammar × NameSupply :=
  let (entries, links, supply) := ofEntries g.rules.entries supply
  let linkEntries := links.map fun link => (link.1, [link.2])
  (⟨g.start, .ofList (entries ++ linkEntries)⟩, supply)

end BinaryGrammar

end ContextFree
