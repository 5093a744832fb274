import ContextFree.Proofs.Recognizer
import ContextFree.Proofs.Search

/-!
# Searches without random candidates

A quiet search makes no candidates up: it drops the forms that have outgrown the length, or there
is no length to outgrow. One look at a form then either collects the word that the form spells, if
it has the wanted length, or queues the expansions that are not too long
(`visit_cases_of_quiet`). So all that is found are words of the language, they have the wanted
length, and the random source is left alone. That there are never more words than asked for holds
of any search.
-/

namespace ContextFree

/-! ## Lengths -/

namespace SearchOptions

variable {options : SearchOptions} {form : Form} {word : Word}

theorem outgrown_iff_lt {length : Nat} (fixed : options.wordLength = some length) :
    options.outgrown form = true ↔ length < form.symbols.length := by
  simp [outgrown, fixed]

theorem fits_ofParts_nil_iff :
    options.fits (.ofParts word []) = true ↔
      ∀ length, options.wordLength = some length → word.length = length := by
  cases wanted : options.wordLength with
  | none => simp [fits, wanted]
  | some length =>
    simp only [fits, wanted, Option.all_some, beq_iff_eq, Form.length_symbols_ofParts,
      List.length_nil, Nat.add_zero, Option.some.injEq, forall_eq']
    exact eq_comm

end SearchOptions

namespace Search

variable {σ : Type} [RandomSource σ] {c : NormalForm} {alphabet : List Char}
variable {options : SearchOptions} {search : Search σ} {form : Form} {name : String}

/-! ## The number of words -/

theorem size_words_follow_le (bound : search.words.size ≤ options.count) :
    (search.follow alphabet options form).words.size ≤ options.count := by
  rcases words_follow_cases alphabet options search form with same | ⟨word, -, -, wanted, -, added⟩
  · rw [same]
    exact bound
  · rw [added]
    exact Nat.le_trans (DistinctWords.size_add_le _ _) wanted

theorem size_words_visit_le (wanted : search.words.size < options.count) :
    (search.visit c alphabet options form).words.size ≤ options.count := by
  rcases visit_cases search form with idle | collected | ⟨name, -, followed⟩
  · rw [idle]
    exact Nat.le_of_lt wanted
  · rw [collected]
    exact Nat.le_trans (DistinctWords.size_add_le _ _) wanted
  · rw [followed]
    exact List.foldlRecOn (motive := fun after : Search σ => after.words.size ≤ options.count) _ _
      (Nat.le_of_lt wanted) fun _ bound _ _ => size_words_follow_le bound

/-- A search never finds more words than asked for. -/
theorem size_words_search_le (c : NormalForm) (options : SearchOptions) (source : σ) :
    (c.search options source).words.size ≤ options.count :=
  run_induction_of_wanted (motive := fun search => search.words.size ≤ options.count)
    (fun _ _ _ _ wanted _ => size_words_visit_le wanted) options.stepLimit (Nat.zero_le _)

/-! ## One quiet look at a form -/

theorem source_follow_of_quiet (quiet : options.Quiet) (search : Search σ) (form : Form) :
    (search.follow alphabet options form).source = search.source := by
  unfold follow
  rcases quiet with positive | unbounded
  · simp only [positive, Bool.not_true, Bool.false_and, Bool.false_eq_true, if_false]
    split <;> rfl
  · simp [SearchOptions.outgrown, unbounded]

theorem source_visit_of_quiet (quiet : options.Quiet) (search : Search σ) (form : Form) :
    (search.visit c alphabet options form).source = search.source := by
  rcases visit_cases search form with idle | collected | ⟨name, -, followed⟩
  · rw [idle]
  · rw [collected]
  · rw [followed]
    exact List.foldlRecOn (motive := fun after : Search σ => after.source = search.source) _ _ rfl
      fun after unread form _ => (source_follow_of_quiet quiet after form).trans unread

/-- The expansions that are queued in place of a form. -/
def successors (c : NormalForm) (options : SearchOptions) (form : Form) (name : String) :
    List Form :=
  ((c.productions name).map form.expand).filter (!options.outgrown ·)

theorem mem_successors_iff {other : Form} :
    other ∈ successors c options form name ↔
      (∃ production ∈ c.productions name, other = form.expand production) ∧
        options.outgrown other = false := by
  rw [successors, List.mem_filter, List.mem_map, Bool.not_eq_true']
  simp only [eq_comm]

/-- A quiet look at a form that spells a word collects it if it has the wanted length. For any
other form the queue gets its successors. -/
theorem visit_cases_of_quiet (quiet : options.Quiet) (leftmost : form.Leftmost)
    (search : Search σ) :
    (form = .ofParts form.word [] ∧
      (search.visit c alphabet options form).words =
        (if options.fits form then search.words.add form.word else search.words) ∧
      (search.visit c alphabet options form).queue.toList = search.queue.toList) ∨
    ∃ name, form.leftmost? = some name ∧
      (search.visit c alphabet options form).words = search.words ∧
      (search.visit c alphabet options form).queue.toList =
        search.queue.toList ++ successors c options form name := by
  rcases leftmost.cases with ⟨finished, spelled⟩ | ⟨unfinished, name, found⟩
  · refine .inl ⟨spelled, ?_⟩
    rw [visit_of_isWord finished]
    split <;> exact ⟨rfl, rfl⟩
  · refine .inr ⟨name, found, ?_⟩
    rw [visit_of_leftmost? unfinished found]
    exact ⟨words_foldl_follow_of_quiet quiet _ _, toList_queue_foldl_follow _ _⟩

/-! ## Quiet runs -/

/-- What has been found are words of the language and of the wanted length, and the queue leads to
words of the language only. -/
structure Positive (c : NormalForm) (options : SearchOptions) (words : DistinctWords)
    (queue : List Form) : Prop extends Sound c words queue where
  lengths : ∀ word ∈ words.toList, ∀ length, options.wordLength = some length →
    word.length = length

theorem positive_start (c : NormalForm) (options : SearchOptions) :
    Positive c options .empty [Form.initial c] where
  toSound := (enumerates_start c).toSound
  lengths word found := by simp at found

theorem Positive.visit (quiet : options.Quiet)
    (positive : Positive c options search.words (form :: search.queue.toList)) :
    Positive c options (search.visit c alphabet options form).words
      (search.visit c alphabet options form).queue.toList where
  toSound := positive.toSound.visit quiet
  lengths word collected := by
    have leftmost := positive.leftmost form List.mem_cons_self
    rcases visit_cases_of_quiet quiet leftmost search with ⟨spelled, words, -⟩ | ⟨name, -, words, -⟩
    · rw [words] at collected
      by_cases fits : options.fits form = true
      · rw [if_pos fits] at collected
        rcases DistinctWords.mem_toList_add.mp collected with known | rfl
        · exact positive.lengths word known
        · rw [spelled] at fits
          exact SearchOptions.fits_ofParts_nil_iff.mp fits
      · rw [if_neg fits] at collected
        exact positive.lengths word collected
    · rw [words] at collected
      exact positive.lengths word collected

theorem positive_search (c : NormalForm) (quiet : options.Quiet) (source : σ) :
    Positive c options (c.search options source).words
      (c.search options source).queue.toList :=
  run_induction_of_parts (fun _ _ positive => positive.visit quiet) options.stepLimit
    (positive_start c options)

theorem source_search_of_quiet (c : NormalForm) (quiet : options.Quiet) (source : σ) :
    (c.search options source).source = source :=
  run_induction (motive := fun search => search.source = source)
    (fun _ _ _ unread _ => (source_visit_of_quiet quiet _ _).trans unread) options.stepLimit rfl

end Search

namespace NormalForm

variable {σ : Type} [RandomSource σ]

/-- A search that drops what outgrows the length, or has none, finds distinct words that the
recognizer accepts, all of the wanted length and no more than asked for, and it draws nothing. -/
theorem search_finds_accepted_words (c : NormalForm) (options : SearchOptions)
    (quiet : options.alwaysPositive = true ∨ options.wordLength = none) (source : σ)
    {words : List Word} (found : (c.search options source).words.toList = words) :
    (∀ word ∈ words, (Recognizer.ofNormalForm c).recognise word = true ∧
      ∀ length, options.wordLength = some length → word.length = length) ∧
    words.Nodup ∧ words.length ≤ options.count ∧ (c.search options source).source = source := by
  have positive := Search.positive_search c quiet source
  subst found
  refine ⟨fun word member => ⟨?_, positive.lengths word member⟩, DistinctWords.nodup_toList _, ?_,
    Search.source_search_of_quiet c quiet source⟩
  · exact (Recognizer.recognise_eq_true_iff c word).mpr (positive.accepts word member)
  · rw [← DistinctWords.size_eq_length]
    exact Search.size_words_search_le c options source

theorem search_finds_accepted_words_anyWord :
    (anyWord.search { count := 3, wordLength := some 2, alwaysPositive := true }
      (Script.mk [7])).words.toList = [['a', 'a'], ['a', 'b'], ['b', 'a']] ∧
    (Recognizer.ofNormalForm anyWord).recognise ['b', 'a'] = true ∧
    (anyWord.search { count := 3, wordLength := some 2, alwaysPositive := true }
      (Script.mk [7])).source = Script.mk [7] := by
  have found : (anyWord.search { count := 3, wordLength := some 2, alwaysPositive := true }
      (Script.mk [7])).words.toList = [['a', 'a'], ['a', 'b'], ['b', 'a']] := by decide +kernel
  obtain ⟨accepted, -, -, unread⟩ := search_finds_accepted_words anyWord
    { count := 3, wordLength := some 2, alwaysPositive := true } (.inl rfl) (Script.mk [7]) found
  exact ⟨found, (accepted _ (by simp)).1, unread⟩

end NormalForm

end ContextFree
