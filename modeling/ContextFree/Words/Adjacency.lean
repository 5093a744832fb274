import ContextFree.NormalForm.Basic
import ContextFree.Notice

/-!
# Adjacent terminals

Which terminals can begin and end a word, and which can follow one another in it. For each
nonterminal the terminals that can begin and end what it derives are collected, and what can
stand next to it in a derivation; two terminals are adjacent when one ends a nonterminal and
the other can follow it, or one can precede a nonterminal and the other begins it.

All of this is collected in the same way: the productions pass items from one nonterminal to
another, and they are scanned again and again until a scan does not make any list grow.
-/

namespace ContextFree

/-- What can stand next to a nonterminal. -/
inductive Neighbour where
  | beginning
  | terminal (char : Char)
  | ending
deriving DecidableEq, Repr

/-- The character of a neighbour that is a terminal. -/
def Neighbour.char? : Neighbour → Option Char
  | terminal char => some char
  | beginning | ending => none

/-! ## Families of lists -/

/-- A list for each nonterminal. -/
abbrev Family (α : Type) := RuleTable (List α)

/-- The list for a nonterminal, empty for a name that has none. -/
def Family.listOf {α : Type} (family : Family α) (name : String) : List α :=
  (family.get? name).getD []

/-- What a production of `lhs` passes on: for each nonterminal that is given something, the items.
They may depend on what the family has so far. -/
abbrev Flow (α : Type) := (lhs : String) → Production → Family α → List (String × List α)

/-- A family in the course of a scan, and whether it has grown since the scan began. -/
structure Scan (α : Type) where
  family : Family α
  grown : Bool

namespace Scan

variable {α : Type} [BEq α]

/-- The items that the nonterminal does not have yet, each once. -/
def lacking (scan : Scan α) (share : String × List α) : List α :=
  (share.2.filter (!(scan.family.listOf share.1).contains ·)).eraseDups

/-- Adds the items that the nonterminal does not have yet to its list. -/
def receive (scan : Scan α) (share : String × List α) : Scan α :=
  match scan.lacking share with
  | [] => scan
  | new => ⟨scan.family.insert share.1 (scan.family.listOf share.1 ++ new), true⟩

/-- Passes on what one production passes on. -/
def pass (flow : Flow α) (scan : Scan α) (production : String × Production) : Scan α :=
  (flow production.1 production.2 scan.family).foldl receive scan

end Scan

namespace NormalForm

/-- All productions, each with the nonterminal that it belongs to, in definition order. -/
def listing (c : NormalForm) : List (String × Production) :=
  c.rules.entries.flatMap fun entry => entry.2.map (Prod.mk entry.1)

variable {α : Type} [BEq α]

/-- One scan over all productions. What it adds is there for the productions that come later. -/
def scan (c : NormalForm) (flow : Flow α) (family : Family α) : Scan α :=
  c.listing.foldl (Scan.pass flow) ⟨family, false⟩

/-- Scans until the family does not grow any more; `rounds` bounds the number of scans. -/
def saturate (c : NormalForm) (flow : Flow α) : (rounds : Nat) → Family α → Family α
  | 0, family => family
  | rounds + 1, family =>
    let scan := c.scan flow family
    if scan.grown then c.saturate flow rounds scan.family else scan.family

/-- More scans than any family of terminals and of one thing besides has room for items. -/
def maxScans (c : NormalForm) : Nat := c.rules.size * (c.terminals.length + 1) + 1

end NormalForm

/-! ## Terminals at the edges and next to them -/

/-- One of the two sides of a pair or of a word. -/
inductive Side where
  | left
  | right
deriving DecidableEq, Repr

namespace Side

/-- The nonterminal of a pair that stands on the side. -/
def of (side : Side) (first second : String) : String :=
  match side with
  | left => first
  | right => second

/-- The other side. -/
def opposite : Side → Side
  | left => right
  | right => left

/-- What stands next to a word on the side. -/
def marker : Side → Neighbour
  | left => .beginning
  | right => .ending

/-- A nonterminal has its own terminals at its edge, and what one side of a pair has there. -/
def edgeFlow (side : Side) : Flow Char
  | lhs, .terminal char, _ => [(lhs, [char])]
  | lhs, .pair first second, edges => [(lhs, edges.listOf (side.of first second))]

/-- The inner side of a pair has the edge of the outer one next to it, and the outer side has what
the nonterminal of the pair has. -/
def besideFlow (side : Side) (edges : Family Char) : Flow Neighbour
  | _, .terminal _, _ => []
  | lhs, .pair first second, beside =>
    [(side.opposite.of first second, (edges.listOf (side.of first second)).map .terminal),
      (side.of first second, beside.listOf lhs)]

end Side

namespace NormalForm

/-- The terminals at one edge of what a nonterminal derives. -/
def edge (c : NormalForm) (side : Side) : Family Char :=
  c.saturate side.edgeFlow c.maxScans .empty

/-- What can stand next to a nonterminal on one side. The marker stands next to the start symbol. -/
def beside (c : NormalForm) (side : Side) : Family Neighbour :=
  c.saturate (side.besideFlow (c.edge side.opposite)) c.maxScans
    (RuleTable.empty.insert c.start [side.marker])

/-- The terminals that can begin what a nonterminal derives. -/
def first (c : NormalForm) : Family Char := c.edge .left

/-- The terminals that can end what a nonterminal derives. -/
def last (c : NormalForm) : Family Char := c.edge .right

/-- What can follow a nonterminal. -/
def follow (c : NormalForm) : Family Neighbour := c.beside .right

/-- What can precede a nonterminal. -/
def precede (c : NormalForm) : Family Neighbour := c.beside .left

end NormalForm

/-! ## The adjacency of terminals -/

/-- The terminals in use, those that can begin and end a word, and those that can follow each
terminal. All lists ascend. -/
structure Adjacency where
  alphabet : List Char
  initial : List Char
  finals : List Char
  successors : List (Char × List Char)
deriving DecidableEq, Repr

namespace Adjacency

/-- The terminals that can directly follow `char`. -/
def successorsOf (adjacency : Adjacency) (char : Char) : List Char :=
  (adjacency.successors.lookup char).getD []

/-- The number of adjacent pairs. -/
def pairCount (adjacency : Adjacency) : Nat :=
  (adjacency.successors.flatMap Prod.snd).length

/-- The notice on the adjacency of a normal form. -/
def notice (adjacency : Adjacency) : Notice :=
  ⟨.detail, .adjacency, "bigram model has " ++ toString adjacency.pairCount ++
    " bigrams over " ++ toString adjacency.alphabet.length ++ " terminals"⟩

/-- The adjacency of the terminals of a normal form. -/
def ofNormalForm (c : NormalForm) : Adjacency :=
  let first := c.first
  let last := c.last
  let follow := c.follow
  let precede := c.precede
  let after (char : Char) : List Char := Alphabet.ofChars <|
    c.nonterminals.flatMap fun name =>
      (if (last.listOf name).contains char
        then (follow.listOf name).filterMap Neighbour.char? else []) ++
      (if (precede.listOf name).contains (.terminal char) then first.listOf name else [])
  let alphabet := c.terminals
  { alphabet
    initial := Alphabet.ofChars (first.listOf c.start)
    finals := Alphabet.ofChars (last.listOf c.start)
    successors := alphabet.map fun char => (char, after char) }

end Adjacency

end ContextFree
