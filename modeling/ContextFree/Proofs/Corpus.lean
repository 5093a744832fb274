import ContextFree.Corpus
import ContextFree.Proofs.Candidates
import ContextFree.Proofs.ConversionText
import Mathlib.Data.List.Forall2

/-!
# Corpora read back

A corpus says what it was made from: its lines give the words and their labels. A label has no
space, so that the last one in a line is that in front of the label, whatever the word is. That
a line is one line depends on the word: it has only terminals of a grammar that has been read from
a text, and none of these is blank.
-/

namespace ContextFree

/-! ## Terminals that have been read -/

/-- No terminal of a normal form is blank if its grammar has been read from a text. -/
theorem Grammar.isBlank_of_mem_terminals_convert {σ : Type} [RandomSource σ] {text : String}
    {g : Grammar} (accepted : read text = .ok g) (source : σ) {char : Char}
    (member : char ∈ (g.convert source).normalForm.terminals) : Text.isBlank char = false := by
  obtain ⟨wellFormed, printable⟩ := printable_of_read accepted
  obtain ⟨lhs, member⟩ := NormalForm.mem_terminals_iff.mp member
  obtain ⟨name, generates⟩ := wellFormed.exists_generates_of_mem_convert member
  have terminal := printable.terminals char (wellFormed.mem_terminals_of_convert generates member)
  simp only [Source.isTerminal, Bool.and_eq_true, Bool.not_eq_true'] at terminal
  exact terminal.1.1

namespace Corpus

/-! ## Lines -/

/-- The parts of a line before and after its last space. -/
def cutLast? : List Char → Option (List Char × List Char)
  | [] => none
  | char :: rest =>
    match cutLast? rest with
    | some (front, back) => some (char :: front, back)
    | none => if char = ' ' then some ([], rest) else none

theorem cutLast?_eq_none {chars : List Char} (unbroken : ' ' ∉ chars) : cutLast? chars = none := by
  induction chars with
  | nil => rfl
  | cons char rest ih =>
    rw [List.mem_cons, not_or] at unbroken
    rw [cutLast?, ih unbroken.2, if_neg (Ne.symm unbroken.1)]

/-- A line is cut at a space with none behind it. -/
theorem cutLast?_append (front : List Char) {back : List Char} (unbroken : ' ' ∉ back) :
    cutLast? (front ++ ' ' :: back) = some (front, back) := by
  induction front with
  | nil => rw [List.nil_append, cutLast?, cutLast?_eq_none unbroken, if_pos rfl]
  | cons char rest ih => rw [List.cons_append, cutLast?, ih]

end Corpus

namespace LabeledWord

/-- The line of a corpus without its end. -/
def chars (entry : LabeledWord) : List Char := entry.word ++ [' ', entry.label]

theorem label_cases (entry : LabeledWord) :
    entry.label = '1' ∧ entry.accepted = true ∨ entry.label = '0' ∧ entry.accepted = false := by
  cases accepted : entry.accepted <;> simp [label, accepted]

theorem isBlank_label (entry : LabeledWord) : Text.isBlank entry.label = false := by
  rcases entry.label_cases with ⟨equal, -⟩ | ⟨equal, -⟩ <;> rw [equal] <;> decide

theorem toList_line (entry : LabeledWord) : entry.line.toList = entry.chars ++ ['\n'] := by
  simp [line, chars]

/-- A line gives back the word and the label. -/
theorem cutLast?_chars (entry : LabeledWord) :
    Corpus.cutLast? entry.chars = some (entry.word, [entry.label]) := by
  apply Corpus.cutLast?_append
  intro occurs
  have blank := entry.isBlank_label
  rw [← List.mem_singleton.mp occurs] at blank
  exact absurd blank (by decide)

/-- The space is the only blank of a line. -/
theorem notMem_chars {entry : LabeledWord} {char : Char} (blank : Text.isBlank char = true)
    (other : char ≠ ' ') (solid : ∀ char ∈ entry.word, Text.isBlank char = false) :
    char ∉ entry.chars := by
  simp only [chars, List.mem_append, List.mem_cons, List.not_mem_nil, or_false, not_or]
  refine ⟨fun occurs => ?_, other, fun equal => ?_⟩
  · rw [solid char occurs] at blank
    cases blank
  · rw [equal, entry.isBlank_label] at blank
    cases blank

end LabeledWord

namespace Corpus

theorem toList_format (entries : List LabeledWord) :
    (format entries).toList = (entries.map LabeledWord.chars).flatMap (· ++ ['\n']) := by
  simp [format, String.toList_join, List.flatMap_map, LabeledWord.toList_line]

/-- The lines of a corpus are those of its words, as long as no word has a line end inside. -/
theorem lines_format {entries : List LabeledWord}
    (solid : ∀ entry ∈ entries, ∀ char ∈ entry.word, Text.isBlank char = false) :
    Text.lines (format entries).toList = entries.map LabeledWord.chars := by
  rw [toList_format, Text.lines_flatMap]
  intro line listed
  obtain ⟨entry, member, rfl⟩ := List.mem_map.mp listed
  have known := solid entry member
  exact ⟨LabeledWord.notMem_chars (by decide) (by decide) known,
    LabeledWord.notMem_chars (by decide) (by decide) known⟩

/-- The corpus for a grammar that has been read from a text has one line for each candidate. Cut
at its last space, the line gives back the candidate and a label, which says whether the normal
form derives it. Where the start symbol of the grammar derives a word, the grammar derives the same
words. -/
theorem generated_corpus_reads_back {σ : Type} [RandomSource σ] {text : String} {g : Grammar}
    (accepted : Grammar.read text = .ok g) {c : NormalForm} (normal : g.normalize = c)
    (strategy : Strategy) (source : σ) {words : List Word}
    (generated : (c.generate strategy source).words = words) {corpus : List Char}
    (formatted : (format (labelWords (.ofNormalForm c) words)).toList = corpus) :
    corpus = (Text.lines corpus).flatMap (· ++ ['\n']) ∧
      (∀ line ∈ Text.lines corpus, '\n' ∉ line) ∧
      List.Forall₂ (fun word line => ∃ label, cutLast? line = some (word, [label]) ∧
        (label = '1' ∧ c.Accepts word ∨ label = '0' ∧ ¬ c.Accepts word))
        words (Text.lines corpus) ∧
      (g.Generates g.start → ∀ word, c.Accepts word ↔ g.Accepts word) := by
  have wellFormed := (Grammar.printable_of_read accepted).1
  subst normal generated formatted
  have solid : ∀ entry ∈ labelWords (.ofNormalForm g.normalize)
      (g.normalize.generate strategy source).words,
      ∀ char ∈ entry.word, Text.isBlank char = false := by
    intro entry listed char occurs
    obtain ⟨word, member, rfl⟩ := List.mem_map.mp listed
    apply Grammar.isBlank_of_mem_terminals_convert accepted (Keystream.ofSeed Grammar.defaultSeed)
    exact (wellFormed.wellFormed_convert _).subset_terminals_of_mem_generate member occurs
  rw [lines_format solid]
  refine ⟨toList_format _, ?_, ?_, ?_⟩
  · intro line listed
    obtain ⟨entry, member, rfl⟩ := List.mem_map.mp listed
    exact LabeledWord.notMem_chars (by decide) (by decide) (solid entry member)
  · rw [labelWords, List.map_map, List.forall₂_map_right_iff, List.forall₂_same]
    intro word member
    refine ⟨_, LabeledWord.cutLast?_chars _, ?_⟩
    rw [← Recognizer.recognise_eq_true_iff, Bool.not_eq_true]
    exact LabeledWord.label_cases _
  · intro generates word
    exact wellFormed.accepts_convert_iff_accepts generates _

/-- With a wanted length of 2 a longer form is filled up to `aaa`, which gets the label 0. -/
theorem generated_corpus_reads_back_repeating :
    Grammar.read "S -> a B\nS -> A B\nS -> A c B\nA -> a\nB -> b\n" = .ok Grammar.repeating ∧
      Grammar.repeating.Generates Grammar.repeating.start ∧
      (Grammar.repeating.normalize.generate (.search { wordLength := some 2 })
        (Script.mk [])).words = [['a', 'a', 'a'], ['a', 'b']] ∧
      (format (labelWords (.ofNormalForm Grammar.repeating.normalize)
        [['a', 'a', 'a'], ['a', 'b']])).toList = "aaa 0\nab 1\n".toList ∧
      List.Forall₂ (fun word line => ∃ label, cutLast? line = some (word, [label]) ∧
        (label = '1' ∧ Grammar.repeating.Accepts word ∨
          label = '0' ∧ ¬ Grammar.repeating.Accepts word))
        [['a', 'a', 'a'], ['a', 'b']] ["aaa 0".toList, "ab 1".toList] := by
  have accepted : Grammar.read "S -> a B\nS -> A B\nS -> A c B\nA -> a\nB -> b\n" =
      .ok Grammar.repeating := by decide +kernel
  have generates : Grammar.repeating.Generates Grammar.repeating.start := by decide
  have generated : (Grammar.repeating.normalize.generate (.search { wordLength := some 2 })
      (Script.mk [])).words = [['a', 'a', 'a'], ['a', 'b']] := by decide +kernel
  have formatted : (format (labelWords (.ofNormalForm Grammar.repeating.normalize)
      [['a', 'a', 'a'], ['a', 'b']])).toList = "aaa 0\nab 1\n".toList := by decide +kernel
  obtain ⟨-, -, labelled, same⟩ :=
    generated_corpus_reads_back accepted rfl _ (Script.mk []) generated formatted
  have lines : Text.lines "aaa 0\nab 1\n".toList = ["aaa 0".toList, "ab 1".toList] := by decide
  rw [lines] at labelled
  simp only [same generates] at labelled
  exact ⟨accepted, generates, generated, formatted, labelled⟩

end Corpus

end ContextFree
