import ContextFree.NormalForm.Basic
import ContextFree.Notice
import ContextFree.Queue
import ContextFree.Random.Source
import ContextFree.Words.Distinct

/-!
# Breadth-first search for words

Leftmost derivations are followed breadth first from the start symbol, so that words come out
by length. With a wanted length, a form that has outgrown it is dropped, or filled up with
random terminals as a candidate that need not belong to the language.
-/

namespace ContextFree

/-- What to search for. -/
structure SearchOptions where
  /-- How many distinct words to collect. -/
  count : Nat := 10
  /-- The length that words must have, if any. -/
  wordLength : Option Nat := none
  /-- Drop the forms that have outgrown the length. -/
  alwaysPositive : Bool := false
  /-- How many forms to look at. -/
  stepLimit : Nat := 100000
deriving DecidableEq, Repr

/-- A form of a leftmost derivation: terminals up to `position`, nonterminals from there on. -/
structure Form where
  symbols : List Symbol
  position : Nat
deriving DecidableEq, Repr

namespace Form

/-- The form that a derivation begins with. -/
def initial (c : NormalForm) : Form := ⟨[.nonterminal c.start], 0⟩

/-- The form has no nonterminal left. -/
def isWord (form : Form) : Bool := form.position == form.symbols.length

/-- The terminals of the form. -/
def word (form : Form) : Word := Alternative.chars form.symbols

/-- The nonterminal to be replaced next. -/
def leftmost? (form : Form) : Option String := form.symbols[form.position]?.bind Symbol.name?

/-- The form after its leftmost nonterminal has been replaced by a production. -/
def expand (form : Form) (production : Production) : Form :=
  let symbols := form.symbols.take form.position ++ production.alternative ++
    form.symbols.drop (form.position + 1)
  match production with
  | .terminal _ => ⟨symbols, form.position + 1⟩
  | .pair _ _ => ⟨symbols, form.position⟩

end Form

/-- The form is longer than the words searched for. -/
def SearchOptions.outgrown (options : SearchOptions) (form : Form) : Bool :=
  options.wordLength.any (· < form.symbols.length)

/-- The form has the length of the words searched for. -/
def SearchOptions.fits (options : SearchOptions) (form : Form) : Bool :=
  options.wordLength.all (· == form.symbols.length)

/-- How far a search has come. -/
structure Search (σ : Type) where
  words : DistinctWords
  queue : Queue Form
  steps : Nat
  source : σ

namespace Search

variable {σ : Type} [RandomSource σ]

/-- Fills every nonterminal with a random terminal; none when there is no terminal to fill it
with. -/
def fill (alphabet : List Char) : List Symbol → σ → Option Word × σ
  | [], source => (some [], source)
  | .terminal char :: rest, source =>
    let (word?, source) := fill alphabet rest source
    (word?.map (char :: ·), source)
  | .nonterminal _ :: rest, source =>
    match RandomSource.choose alphabet source with
    | (none, source) => (none, source)
    | (some char, source) =>
      let (word?, source) := fill alphabet rest source
      (word?.map (char :: ·), source)

/-- Queues a form that has been derived or, if it has outgrown the length, collects a random
candidate in its place. -/
def follow (alphabet : List Char) (options : SearchOptions) (search : Search σ) (form : Form) :
    Search σ :=
  if options.outgrown form then
    if !options.alwaysPositive && search.words.size < options.count then
      match fill alphabet form.symbols search.source with
      | (some word, source) => { search with words := search.words.add word, source }
      | (none, source) => { search with source }
    else search
  else { search with queue := search.queue.push form }

/-- Looks at one form: a word is collected if it has the wanted length, and any other form is
expanded by every production of its leftmost nonterminal. -/
def visit (c : NormalForm) (alphabet : List Char) (options : SearchOptions) (search : Search σ)
    (form : Form) : Search σ :=
  if form.isWord then
    if options.fits form then { search with words := search.words.add form.word } else search
  else
    match form.leftmost? with
    | some name =>
      (c.productions name).foldl
        (fun search production => search.follow alphabet options (form.expand production)) search
    | none => search

/-- Looks at forms until there are enough words, no forms, or no steps left. -/
def run (c : NormalForm) (alphabet : List Char) (options : SearchOptions) :
    (stepsLeft : Nat) → Search σ → Search σ
  | 0, search => search
  | stepsLeft + 1, search =>
    if search.words.size < options.count then
      match search.queue.pop? with
      | none => search
      | some (form, queue) =>
        let search := { search with queue, steps := search.steps + 1 }
        run c alphabet options stepsLeft (search.visit c alphabet options form)
    else search

end Search

namespace NormalForm

variable {σ : Type} [RandomSource σ]

/-- Searches for words of the normal form. -/
def search (c : NormalForm) (options : SearchOptions) (source : σ) : Search σ :=
  Search.run c c.terminals options options.stepLimit
    ⟨.empty, .single (Form.initial c), 0, source⟩

end NormalForm

/-- The notice on a search. -/
def Search.notice {σ : Type} (search : Search σ) : Notice :=
  ⟨.detail, .search, "breadth-first generation took " ++ toString search.steps ++ " steps for " ++
    toString search.words.size ++ " words"⟩

end ContextFree
