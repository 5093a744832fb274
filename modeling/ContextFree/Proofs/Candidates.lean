import ContextFree.Proofs.RoundTrip
import ContextFree.Proofs.Search
import ContextFree.Proofs.Walk
import ContextFree.Words.Strategy

/-!
# Candidate words

Candidates need not belong to the language, but they are spelled in the terminals of the normal
form. What a search collects has its characters from productions or, where a form is filled up at
random, from the terminals in use. What a walk collects goes from one terminal to the next.
-/

namespace ContextFree

namespace Search

variable {σ : Type} [RandomSource σ] {c : NormalForm} {alphabet : List Char}
variable {options : SearchOptions} {search : Search σ} {form : Form} {word : Word}

theorem fill_terminal (char : Char) (rest : List Symbol) (source : σ) :
    (fill alphabet (.terminal char :: rest) source).1 =
      (fill alphabet rest source).1.map (char :: ·) := rfl

theorem fill_nonterminal (name : String) (rest : List Symbol) (source : σ) :
    (fill alphabet (.nonterminal name :: rest) source).1 =
      (RandomSource.choose alphabet source).1.bind fun char =>
        (fill alphabet rest (RandomSource.choose alphabet source).2).1.map (char :: ·) := by
  rw [fill]
  rcases RandomSource.choose alphabet source with ⟨_ | char, after⟩ <;> rfl

/-- A form that has been filled up keeps its terminals and has all others from the alphabet. -/
theorem mem_of_fill {symbols : List Symbol} {source : σ} {char : Char}
    (filled : (fill alphabet symbols source).1 = some word) (occurs : char ∈ word) :
    .terminal char ∈ symbols ∨ char ∈ alphabet := by
  induction symbols generalizing source word with
  | nil =>
    cases filled
    cases occurs
  | cons symbol rest ih =>
    cases symbol with
    | terminal first =>
      rw [fill_terminal] at filled
      obtain ⟨tail, filledRest, rfl⟩ := Option.map_eq_some_iff.mp filled
      rcases List.mem_cons.mp occurs with rfl | behind
      · exact .inl List.mem_cons_self
      · exact (ih filledRest behind).imp (List.mem_cons_of_mem _) id
    | nonterminal name =>
      rw [fill_nonterminal] at filled
      obtain ⟨first, chosen, filled⟩ := Option.bind_eq_some_iff.mp filled
      obtain ⟨tail, filledRest, rfl⟩ := Option.map_eq_some_iff.mp filled
      rcases List.mem_cons.mp occurs with rfl | behind
      · exact .inr (RandomSource.mem_of_choose chosen)
      · exact (ih filledRest behind).imp (List.mem_cons_of_mem _) id

theorem mem_words_follow (member : word ∈ (search.follow alphabet options form).words.toList) :
    word ∈ search.words.toList ∨ options.outgrown form = true ∧
      ∃ source : σ, (fill alphabet form.symbols source).1 = some word := by
  rcases words_follow_cases alphabet options search form with
    same | ⟨other, outgrown, -, -, filled, added⟩
  · rw [same] at member
    exact .inl member
  · rw [added] at member
    rcases DistinctWords.mem_toList_add.mp member with known | rfl
    · exact .inl known
    · exact .inr ⟨outgrown, search.source, filled⟩

/-- A word that has been collected in the place of derived forms is one of them that has outgrown
the length, filled up. -/
theorem mem_words_foldl_follow {forms : List Form}
    (member : word ∈ (forms.foldl (follow alphabet options) search).words.toList) :
    word ∈ search.words.toList ∨ ∃ form ∈ forms, options.outgrown form = true ∧
      ∃ source : σ, (fill alphabet form.symbols source).1 = some word := by
  induction forms generalizing search with
  | nil => exact .inl member
  | cons form rest ih =>
    rcases ih member with before | ⟨other, listed, filled⟩
    · refine (mem_words_follow before).imp id fun filled => ?_
      exact ⟨form, List.mem_cons_self, filled⟩
    · exact .inr ⟨other, List.mem_cons_of_mem _ listed, filled⟩

/-- What has been collected after a look at a form was there before, or it is the word of the
form, or one of its expansions has been filled up. -/
theorem mem_words_visit
    (member : word ∈ (search.visit c alphabet options form).words.toList) :
    word ∈ search.words.toList ∨ word = form.word ∨
      ∃ name, form.leftmost? = some name ∧ ∃ production ∈ c.productions name,
        ∃ source : σ, (fill alphabet (form.expand production).symbols source).1 = some word := by
  rcases visit_cases search form with idle | collected | ⟨name, found, followed⟩
  · rw [idle] at member
    exact .inl member
  · rw [collected] at member
    exact (DistinctWords.mem_toList_add.mp member).imp id .inl
  · rw [followed] at member
    refine (mem_words_foldl_follow member).imp id fun filled => .inr ⟨name, found, ?_⟩
    obtain ⟨other, derived, -, filled⟩ := filled
    obtain ⟨production, listed, rfl⟩ := List.mem_map.mp derived
    exact ⟨production, listed, filled⟩

/-- The forms and the words are spelled in the alphabet. -/
structure Spelled (alphabet : List Char) (words : DistinctWords) (queue : List Form) : Prop where
  forms : ∀ form ∈ queue, ∀ char, .terminal char ∈ form.symbols → char ∈ alphabet
  words : ∀ word ∈ words.toList, word ⊆ alphabet

theorem Spelled.visit (spelled : Spelled c.terminals search.words (form :: search.queue.toList)) :
    Spelled c.terminals (search.visit c c.terminals options form).words
      (search.visit c c.terminals options form).queue.toList := by
  -- An expansion may be queued or filled up, and is spelled in the alphabet either way.
  have expanded : ∀ name, ∀ production ∈ c.productions name, ∀ char,
      .terminal char ∈ (form.expand production).symbols → char ∈ c.terminals := by
    intro name production listed char occurs
    rcases Form.mem_symbols_expand occurs with before | rfl
    · exact spelled.forms form List.mem_cons_self char before
    · exact NormalForm.mem_terminals_iff.mpr ⟨name, listed⟩
  refine ⟨fun other member => ?_, fun word collected char occurs => ?_⟩
  · rcases mem_queue_visit member with old | ⟨name, -, production, listed, rfl⟩
    · exact spelled.forms other (List.mem_cons_of_mem _ old)
    · exact expanded name production listed
  · rcases mem_words_visit collected with known | rfl | ⟨name, -, production, listed, _, filled⟩
    · exact spelled.words word known occurs
    · exact spelled.forms form List.mem_cons_self char (Grammar.mem_chars_iff.mp occurs)
    · exact (mem_of_fill filled occurs).elim (expanded name production listed char) id

theorem spelled_search (c : NormalForm) (options : SearchOptions) (source : σ) :
    Spelled c.terminals (c.search options source).words
      (c.search options source).queue.toList := by
  refine run_induction_of_parts (fun _ _ spelled => spelled.visit) options.stepLimit ?_
  refine ⟨fun form member char occurs => ?_, fun word found => ?_⟩
  · rw [List.mem_singleton.mp member] at occurs
    simp [Form.initial] at occurs
  · simp at found

end Search

/-- Candidates are spelled in the terminals of the normal form, whatever the strategy is. -/
theorem NormalForm.WellFormed.subset_terminals_of_mem_generate {σ : Type} [RandomSource σ]
    {c : NormalForm} (wellFormed : c.WellFormed) {strategy : Strategy} {source : σ} {word : Word}
    (member : word ∈ (c.generate strategy source).words) : word ⊆ c.terminals := by
  cases strategy with
  | search options => exact (Search.spelled_search c options source).words word member
  | walks options =>
    obtain ⟨last, collected⟩ := Adjacency.exists_collected_of_mem_sample member
    exact collected.traced.subset_terminals wellFormed

end ContextFree
