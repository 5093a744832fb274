import ContextFree.Name.Supply

/-!
# A start symbol of its own

A fresh start symbol whose only production is the old one stands on no right-hand side.
-/

namespace ContextFree.Grammar

/-- The grammar with a fresh start symbol in front, which leads to the old one. -/
def isolateStart (g : Grammar) (supply : NameSupply) : Grammar × NameSupply :=
  let (start, supply) := supply.fresh .start
  let first := (start, [[Symbol.nonterminal g.start]])
  (⟨start, .ofList (first :: g.rules.entries)⟩, supply)

end ContextFree.Grammar
