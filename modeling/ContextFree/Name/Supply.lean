import ContextFree.Grammar.Basic
import ContextFree.Name.Basic

/-!
# Fresh names

A supply hands out nonterminal names that are not in use. It counts upwards, over all origins
together, and passes over the numbers whose name is taken.
-/

namespace ContextFree

/-- What a new nonterminal is for. -/
inductive Origin where
  | start
  | link
  | helper
deriving DecidableEq, Repr

namespace Origin

/-- The word that shows the origin in a name. -/
def label : Origin → String
  | start => "START"
  | link => "BIN"
  | helper => "TERM"

/-- The name with the given number. -/
def name (origin : Origin) (number : Nat) : String :=
  "[" ++ origin.label ++ toString number ++ "]"

end Origin

/-- The names in use, and the next number to try. -/
structure NameSupply where
  counter : Nat
  used : List String
deriving DecidableEq, Repr

namespace NameSupply

/-- The supply for a grammar: its nonterminals are in use. -/
def ofGrammar (g : Grammar) : NameSupply := ⟨1, g.nonterminals⟩

/-- Whether a name is in use. -/
def isUsed (supply : NameSupply) (name : String) : Bool := supply.used.contains name

/-- The first number, from `number` on, whose name is not in use; `tries` bounds the search. -/
def firstUnused (used : List String) (origin : Origin) : (tries number : Nat) → Nat
  | 0, number => number
  | tries + 1, number =>
    if used.contains (origin.name number) then firstUnused used origin tries (number + 1)
    else number

/-- A name that is not in use, and the supply in which it is. One try more than there are
names in use is enough to find it. -/
def fresh (supply : NameSupply) (origin : Origin) : String × NameSupply :=
  let number := firstUnused supply.used origin (supply.used.length + 1) supply.counter
  let name := origin.name number
  (name, ⟨number + 1, name :: supply.used⟩)

/-- One fresh name of the same origin for each element of a list, in order. -/
def freshFor {α : Type} (origin : Origin) : List α → NameSupply → List (α × String) × NameSupply
  | [], supply => ([], supply)
  | item :: items, supply =>
    let (name, supply) := supply.fresh origin
    let (named, supply) := freshFor origin items supply
    ((item, name) :: named, supply)

end NameSupply

end ContextFree
