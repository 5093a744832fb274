import ContextFree.Grammar.Basic
import ContextFree.Notice
import ContextFree.Random.Source
import ContextFree.Reach

/-!
# Grammars without useless symbols

A nonterminal is generating when it derives a word, and useful when it is generating and can be
reached from the start symbol through alternatives whose nonterminals are all generating. A
start symbol that is not generating has a generating nonterminal put in its place, if there
is one.

The generating nonterminals are collected in rounds. A round goes by what the round before it has
found, and not by what it has found itself so far, so that there may be more rounds than there
would be scans that take up each nonterminal where they find it. Either way these are the
nonterminals that derive a word, and they are listed in definition order and not as they are found
(`TakenUp.filter_eq_generating`).
-/

namespace ContextFree

namespace Grammar

/-- The nonterminals with an alternative that needs none but the `known` ones. -/
def generatingOver (g : Grammar) (known : List String) : List String :=
  (g.rules.entries.filter fun entry => entry.2.any (Alternative.within known)).map Prod.fst

/-- The nonterminals found to be generating after a number of rounds. It is over with the
first round that finds nothing new. -/
def generatingAfter (g : Grammar) : (rounds : Nat) → (known : List String) → List String
  | 0, known => known
  | rounds + 1, known =>
    let found := g.generatingOver known
    if found = known then known else g.generatingAfter rounds found

/-- The generating nonterminals, in definition order. -/
def generating (g : Grammar) : List String := g.generatingAfter g.rules.size []

/-- The nonterminals on the right-hand sides of `name`. -/
def referenced (g : Grammar) (name : String) : List String :=
  (g.alternatives name).flatMap Alternative.names

/-- The nonterminals that can be reached from `start` through right-hand sides. -/
def reachable (g : Grammar) (start : String) : List String :=
  reach g.referenced (g.rules.size + 1) start

/-- The grammar with the nonterminals of `keep` only, and with the alternatives that need none
but these. -/
def restrict (g : Grammar) (keep : List String) (start : String) : Grammar :=
  let kept := g.rules.filterNames keep.contains
  ⟨start, kept.mapValues fun _ alternatives => alternatives.filter (Alternative.within keep)⟩

/-- The grammar whose start symbol, its only nonterminal, has no productions. -/
def emptyFrom (start : String) : Grammar := ⟨start, .ofList [(start, [])]⟩

end Grammar

/-- What becomes of the start symbol. -/
inductive StartFate where
  /-- It is generating and stays. -/
  | kept
  /-- It is not, and a generating nonterminal stands in for it. -/
  | replaced (substitute : String)
  /-- No nonterminal is generating. -/
  | emptyLanguage
deriving DecidableEq, Repr

/-- The steps to a grammar without useless symbols: the generating nonterminals, the grammar
restricted to these, what can be reached in it, and the result. -/
structure Pruning (σ : Type) where
  fate : StartFate
  generating : List String
  generative : Grammar
  reachable : List String
  useful : Grammar
  source : σ

namespace Grammar

variable {σ : Type} [RandomSource σ]

/-- What becomes of the start symbol. The source is drawn from only for a substitute. -/
def startFate (g : Grammar) (generating : List String) (source : σ) : StartFate × σ :=
  if generating.contains g.start then (.kept, source)
  else if generating.isEmpty then (.emptyLanguage, source)
  else
    let (index, source) := RandomSource.below64 generating.length source
    match generating[index]? with
    | some substitute => (.replaced substitute, source)
    | none => (.emptyLanguage, source)

/-- Restricts the grammar to what is generating and then to what can be reached from `start`. -/
def pruneFrom (g : Grammar) (fate : StartFate) (generating : List String) (start : String)
    (source : σ) : Pruning σ :=
  let generative := g.restrict generating start
  let reachable := generative.reachable start
  let useful := generative.restrict (generating.filter reachable.contains) start
  ⟨fate, generating, generative, reachable, useful, source⟩

/-- Removes the useless symbols. -/
def prune (g : Grammar) (source : σ) : Pruning σ :=
  let generating := g.generating
  match g.startFate generating source with
  | (.kept, source) => g.pruneFrom .kept generating g.start source
  | (.replaced substitute, source) =>
    g.pruneFrom (.replaced substitute) generating substitute source
  | (.emptyLanguage, source) =>
    let nothing := emptyFrom g.start
    ⟨.emptyLanguage, generating, nothing, [g.start], nothing, source⟩

end Grammar

/-- The notices on the removal of useless symbols from `g`. -/
def Pruning.notices {σ : Type} (g : Grammar) (pruning : Pruning σ) : List Notice :=
  let summary : Notice := ⟨.detail, .pruning,
    toString pruning.generating.length ++ " generating and " ++
    toString pruning.reachable.length ++ " reachable of " ++
    toString g.rules.size ++ " nonterminals"⟩
  match pruning.fate with
  | .kept => [summary]
  | .replaced substitute =>
    [⟨.warning, .pruning, "start symbol `" ++ g.start ++
      "` derives no terminal string, substituting `" ++ substitute ++ "`"⟩, summary]
  | .emptyLanguage =>
    [⟨.warning, .pruning,
      "no nonterminal derives a terminal string, the language is empty"⟩]

end ContextFree
