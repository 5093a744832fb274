import ContextFree.Random.Source
import ContextFree.Words.Adjacency
import ContextFree.Words.Distinct

/-!
# Random walks over adjacent terminals

A walk begins with a terminal that can begin a word and goes on to a random successor, or now
and then to any terminal. At a terminal that can end a word it stops every other time, and what
has been walked is collected when it goes on. Such words look like those of the language without
necessarily belonging to it.
-/

namespace ContextFree

/-- How to walk. -/
structure WalkOptions where
  /-- How many distinct words to collect. -/
  count : Nat := 10
  /-- Words are cut off at this many terminals. -/
  maxLength : Nat := 20
  /-- The chance, in percent, of stepping to any terminal instead of a successor. -/
  noisePercent : Nat := 3
  /-- How many walks to begin. -/
  attemptLimit : Nat := 1000
deriving DecidableEq, Repr

/-- How far sampling has come. -/
structure Sampling (σ : Type) where
  words : DistinctWords
  attempts : Nat
  source : σ

namespace Adjacency

variable {σ : Type} [RandomSource σ]

/-- The terminal after `current`, if there is any to step to. -/
def step (adjacency : Adjacency) (options : WalkOptions) (current : Char) (source : σ) :
    Option Char × σ :=
  let (percent, source) := RandomSource.below32 100 source
  if percent < options.noisePercent then RandomSource.choose adjacency.alphabet source
  else RandomSource.choose (adjacency.successorsOf current) source

/-- Goes on with a walk that has come to `current` by `word`, with room for so many terminals
more. The words are those collected so far. -/
def walk (adjacency : Adjacency) (options : WalkOptions) :
    (room : Nat) → (current : Char) → (word : Word) → DistinctWords → σ → DistinctWords × σ
  | 0, _, word, words, source => (words.offer options.count word, source)
  | room + 1, current, word, words, source =>
    match adjacency.step options current source with
    | (none, source) => (words.offer options.count word, source)
    | (some next, source) =>
      let word := word ++ [next]
      if adjacency.finals.contains next then
        match RandomSource.flip source with
        | (true, source) =>
          adjacency.walk options room next word (words.offer options.count word) source
        | (false, source) => (words.offer options.count word, source)
      else adjacency.walk options room next word words source

/-- Begins walks until there are enough words, no terminal to begin with, or no attempts
left. -/
def sampleFrom (adjacency : Adjacency) (options : WalkOptions) :
    (attemptsLeft : Nat) → Sampling σ → Sampling σ
  | 0, sampling => sampling
  | attemptsLeft + 1, sampling =>
    if sampling.words.size < options.count then
      match RandomSource.choose adjacency.initial sampling.source with
      | (none, source) => { sampling with attempts := sampling.attempts + 1, source }
      | (some char, source) =>
        let (words, source) :=
          adjacency.walk options (options.maxLength - 1) char [char] sampling.words source
        adjacency.sampleFrom options attemptsLeft ⟨words, sampling.attempts + 1, source⟩
    else sampling

/-- Collects words by random walks. -/
def sample (adjacency : Adjacency) (options : WalkOptions) (source : σ) : Sampling σ :=
  adjacency.sampleFrom options options.attemptLimit ⟨.empty, 0, source⟩

end Adjacency

/-- The notice on a sampling. -/
def Sampling.notice {σ : Type} (sampling : Sampling σ) : Notice :=
  ⟨.detail, .adjacency, "bigram sampling took " ++ toString sampling.attempts ++
    " attempts for " ++ toString sampling.words.size ++ " words"⟩

end ContextFree
