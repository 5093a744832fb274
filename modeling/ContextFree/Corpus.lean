import ContextFree.Recognizer

/-!
# Corpora

A corpus is a list of words with labels, 1 for a word of the language and 0 for any other. As
text it has one line for each word.
-/

namespace ContextFree

/-- A word and whether it belongs to the language. -/
structure LabeledWord where
  word : Word
  accepted : Bool
deriving DecidableEq, Repr

namespace LabeledWord

/-- The label of a word. -/
def label (entry : LabeledWord) : Char := if entry.accepted then '1' else '0'

/-- The line of a corpus: the word, a blank and the label. -/
def line (entry : LabeledWord) : String :=
  String.ofList (entry.word ++ [' ', entry.label, '\n'])

end LabeledWord

namespace Corpus

/-- Labels words, in their order. -/
def labelWords (r : Recognizer) (words : List Word) : List LabeledWord :=
  words.map fun word => ⟨word, r.recognise word⟩

/-- A corpus as text. -/
def format (entries : List LabeledWord) : String :=
  String.join (entries.map LabeledWord.line)

end Corpus

end ContextFree
