import ContextFree.Words.Search
import ContextFree.Words.Walk

/-!
# Strategies

The two ways to find candidate words, and what either of them gives.
-/

namespace ContextFree

/-- How candidate words are found. -/
inductive Strategy where
  | search (options : SearchOptions)
  | walks (options : WalkOptions)
deriving DecidableEq, Repr

/-- Candidate words, the notices on how they were found, and the source after it. -/
structure Candidates (σ : Type) where
  words : List Word
  notices : List Notice
  source : σ

/-- Finds candidate words for a normal form. -/
def NormalForm.generate {σ : Type} [RandomSource σ] (c : NormalForm) (strategy : Strategy)
    (source : σ) : Candidates σ :=
  match strategy with
  | .search options =>
    let search := c.search options source
    ⟨search.words.toList, [search.notice], search.source⟩
  | .walks options =>
    let adjacency := Adjacency.ofNormalForm c
    let sampling := adjacency.sample options source
    ⟨sampling.words.toList, [adjacency.notice, sampling.notice], sampling.source⟩

end ContextFree
