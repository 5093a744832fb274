import ContextFree.Grammar.Basic
import ContextFree.Reach

/-!
# Grammars without unit productions

A unit production leads from one nonterminal to another and does nothing else. It can be left
out when every nonterminal takes over the other productions that its unit productions lead to.
-/

namespace ContextFree

namespace Alternative

/-- The nonterminal that a unit production leads to. -/
def unitTarget? : Alternative → Option String
  | [.nonterminal name] => some name
  | _ => none

/-- The alternative is a single nonterminal. -/
def isUnit (alternative : Alternative) : Bool := (unitTarget? alternative).isSome

end Alternative

namespace Grammar

/-- The nonterminals that unit productions of `name` lead to. -/
def unitTargets (g : Grammar) (name : String) : List String :=
  (g.alternatives name).filterMap Alternative.unitTarget?

/-- The nonterminals that zero or more unit productions lead to from `name`, in the order of
a breadth-first search. -/
def unitClosure (g : Grammar) (name : String) : List String :=
  reach g.unitTargets (g.rules.size + 1) name

/-- The alternatives that are no unit productions, of `name` itself and of all that unit
productions lead to, each once. -/
def unitFreeAlternatives (g : Grammar) (name : String) : List Alternative :=
  (((g.unitClosure name).flatMap g.alternatives).filter (!Alternative.isUnit ·)).eraseDups

/-- The grammar without unit productions. -/
def unitFree (g : Grammar) : Grammar :=
  ⟨g.start, g.rules.mapValues fun name _ => g.unitFreeAlternatives name⟩

end Grammar

end ContextFree
