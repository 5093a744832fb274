import ContextFree.Binary.Helper
import ContextFree.Grammar.StartRule
import ContextFree.Grammar.UnitFree
import ContextFree.Grammar.Useful
import ContextFree.Random.Keystream

/-!
# Conversion to normal form

A grammar is brought into normal form in five steps: a start symbol of its own, no unit
productions, no useless symbols, no alternative of more than two symbols, and no terminal in
a pair. A conversion keeps the grammar after each step.
-/

namespace ContextFree

/-- A conversion, step by step. The source is where the random source has got to. -/
structure Conversion (σ : Type) where
  isolated : Grammar
  unitFree : Grammar
  pruning : Pruning σ
  binary : BinaryGrammar
  normalForm : NormalForm
  supply : NameSupply
  source : σ

namespace Grammar

variable {σ : Type} [RandomSource σ]

/-- Converts a grammar into normal form. The random source is drawn from only when the start
symbol derives nothing and another nonterminal has to stand in for it. -/
def convert (g : Grammar) (source : σ) : Conversion σ :=
  let (isolated, supply) := g.isolateStart (.ofGrammar g)
  let unitFree := isolated.unitFree
  let pruning := unitFree.prune source
  let (binary, supply) := BinaryGrammar.ofGrammar pruning.useful supply
  let (normalForm, supply) := binary.toNormalForm supply
  ⟨isolated, unitFree, pruning, binary, normalForm, supply, pruning.source⟩

/-- The seed of the source that a conversion without one uses. -/
def defaultSeed : UInt64 := 0x5eed

/-- The conversion with a fixed random source. -/
def convertFixed (g : Grammar) : Conversion Keystream := g.convert (Keystream.ofSeed defaultSeed)

/-- The normal form of a grammar. -/
def normalize (g : Grammar) : NormalForm := g.convertFixed.normalForm

end Grammar

/-- The notices on a conversion, in the order of its steps. -/
def Conversion.notices {σ : Type} (conversion : Conversion σ) : List Notice :=
  let useful := conversion.pruning.useful
  let normalForm := conversion.normalForm
  let detail (message : String) : Notice := ⟨.detail, .conversion, message⟩
  [detail ("start isolated as `" ++ conversion.isolated.start ++ "`"),
   detail ("unit productions removed, " ++
     toString conversion.unitFree.productionCount ++ " productions")] ++
  conversion.pruning.notices conversion.unitFree ++
  [detail ("useless symbols removed, " ++ toString useful.rules.size ++ " nonterminals, " ++
     toString useful.productionCount ++ " productions"),
   detail ("binarized, " ++ toString conversion.binary.rules.size ++ " nonterminals"),
   detail ("terminals isolated, " ++ toString normalForm.rules.size ++ " nonterminals, " ++
     toString normalForm.productionCount ++ " productions")]

end ContextFree
