import ContextFree.Proofs.Candidates
import ContextFree.Proofs.PositiveSearch

/-!
# Searches with random candidates

A search for the words of one length may fill up the forms that have outgrown it with random
terminals. An expansion is longer than the form by one symbol at most, so that all such candidates
have one terminal too many, and they are told from the words of the language by their length
(`Separates`).

Candidates take places among the words that are asked for, but they have no part in anything else.
As long as there is room for more words, the search has the same forms ahead of it as one that
makes no candidates up, and of the wanted length it has found the same words (`Mirrors`).
-/

namespace ContextFree

theorem Form.Leftmost.length_expand_le {form : Form} {name : String} (leftmost : form.Leftmost)
    (found : form.leftmost? = some name) (production : Production) :
    (form.expand production).symbols.length ≤ form.symbols.length + 1 := by
  obtain ⟨done, rest, rfl⟩ := leftmost.exists_eq_ofParts found
  cases production with
  | terminal char =>
    rw [expand_ofParts_terminal]
    simp only [length_symbols_ofParts, List.length_append, List.length_cons, List.length_nil]
    omega
  | pair left right =>
    rw [expand_ofParts_pair]
    simp only [length_symbols_ofParts, List.length_cons]
    omega

namespace DistinctWords

variable {first second : DistinctWords} {kept : Word → Bool} {word : Word}

/-- Words that are left out of account may be added. -/
theorem filter_toList_add_of_not (ignored : kept word = false) :
    (first.add word).toList.filter kept = first.toList.filter kept := by
  rw [toList_add]
  by_cases known : word ∈ first.toList
  · rw [if_pos known]
  · rw [if_neg known, List.filter_append]
    simp [ignored]

/-- All others are new to both collections or to none. -/
theorem filter_toList_add (same : first.toList.filter kept = second.toList)
    (counts : kept word = true) :
    (first.add word).toList.filter kept = (second.add word).toList := by
  have known : word ∈ second.toList ↔ word ∈ first.toList := by
    rw [← same, List.mem_filter]
    simp [counts]
  rw [toList_add, toList_add]
  by_cases old : word ∈ first.toList
  · rw [if_pos old, if_pos (known.mpr old), same]
  · rw [if_neg old, if_neg (fun found => old (known.mp found)), List.filter_append, same]
    simp [counts]

end DistinctWords

namespace Search

variable {σ τ : Type} [RandomSource σ] [RandomSource τ] {c : NormalForm} {alphabet : List Char}
variable {options : SearchOptions} {search mixed : Search σ} {quiet : Search τ} {form : Form}
variable {length : Nat}

theorem length_of_fill {symbols : List Symbol} {source : σ} {word : Word}
    (filled : (fill alphabet symbols source).1 = some word) : word.length = symbols.length := by
  induction symbols generalizing source word with
  | nil =>
    cases filled
    rfl
  | cons symbol rest ih =>
    cases symbol with
    | terminal first =>
      rw [fill_terminal] at filled
      obtain ⟨tail, filledRest, rfl⟩ := Option.map_eq_some_iff.mp filled
      rw [List.length_cons, List.length_cons, ih filledRest]
    | nonterminal name =>
      rw [fill_nonterminal] at filled
      obtain ⟨first, -, filled⟩ := Option.bind_eq_some_iff.mp filled
      obtain ⟨tail, filledRest, rfl⟩ := Option.map_eq_some_iff.mp filled
      rw [List.length_cons, List.length_cons, ih filledRest]

/-! ## Candidates are told by their length -/

/-- No form in the queue has outgrown the length, and what has been found are words of the
language that have the length, and words that have one terminal more. -/
structure Separates (c : NormalForm) (length : Nat) (words : DistinctWords) (queue : List Form) :
    Prop where
  leftmost : ∀ form ∈ queue, form.Leftmost
  leads : ∀ form ∈ queue, ∀ word, form.Leads c word → c.Accepts word
  within : ∀ form ∈ queue, form.symbols.length ≤ length
  words : ∀ word ∈ words.toList,
    (word.length = length ∧ c.Accepts word) ∨ word.length = length + 1

theorem separates_start (c : NormalForm) (positive : 1 ≤ length) :
    Separates c length .empty [Form.initial c] where
  leftmost := (enumerates_start c).leftmost
  leads := (enumerates_start c).leads
  within form member := by
    rw [List.mem_singleton.mp member]
    exact positive
  words word found := by simp at found

theorem Separates.visit (fixed : options.wordLength = some length)
    (separates : Separates c length search.words (form :: search.queue.toList)) :
    Separates c length (search.visit c alphabet options form).words
      (search.visit c alphabet options form).queue.toList where
  leftmost := leftmost_visit separates.leftmost
  leads := leads_visit separates.leads
  within other member := by
    rcases outgrown_of_mem_queue_visit member with old | within
    · exact separates.within other (List.mem_cons_of_mem _ old)
    · apply Nat.le_of_not_lt
      intro outgrown
      rw [(SearchOptions.outgrown_iff_lt fixed).mpr outgrown] at within
      cases within
  words word collected := by
    have leftmost := separates.leftmost form List.mem_cons_self
    rcases leftmost.cases with ⟨finished, spelled⟩ | ⟨unfinished, name, found⟩
    · rw [visit_of_isWord finished] at collected
      by_cases fits : options.fits form = true
      · rw [if_pos fits] at collected
        rcases DistinctWords.mem_toList_add.mp collected with known | rfl
        · exact separates.words word known
        · refine .inl ⟨?_, ?_⟩
          · rw [spelled] at fits
            exact SearchOptions.fits_ofParts_nil_iff.mp fits length fixed
          · apply separates.leads form List.mem_cons_self
            rw [spelled, Form.leads_ofParts_nil_iff, Form.word_ofParts]
      · rw [if_neg fits] at collected
        exact separates.words word collected
    · rw [visit_of_leftmost? unfinished found] at collected
      rcases mem_words_foldl_follow collected with known | ⟨other, derived, outgrown, _, filled⟩
      · exact separates.words word known
      · -- The form itself was within the length, and the expansion that has outgrown it is longer
        -- by one symbol.
        obtain ⟨production, -, rfl⟩ := List.mem_map.mp derived
        have above := (SearchOptions.outgrown_iff_lt fixed).mp outgrown
        have below := leftmost.length_expand_le found production
        have within := separates.within form List.mem_cons_self
        rw [length_of_fill filled]
        exact .inr (by omega)

theorem separates_search (c : NormalForm) (positive : 1 ≤ length)
    (fixed : options.wordLength = some length) (source : σ) :
    Separates c length (c.search options source).words
      (c.search options source).queue.toList :=
  run_induction_of_parts (fun _ _ separates => separates.visit fixed) options.stepLimit
    (separates_start c positive)

/-! ## Candidates disturb nothing -/

/-- The two searches have the same forms ahead of them, and the second has found what the first
has found of the length. -/
structure Mirrors (length : Nat) (mixed : Search σ) (quiet : Search τ) : Prop where
  queue : mixed.queue = quiet.queue
  words : mixed.words.toList.filter (·.length == length) = quiet.words.toList

theorem Mirrors.follow (fixed : options.wordLength = some length)
    (mirrors : Mirrors length mixed quiet) (form : Form) :
    Mirrors length (mixed.follow alphabet options form)
      (quiet.follow alphabet { options with alwaysPositive := true } form) where
  queue := by
    rw [queue_follow, queue_follow, mirrors.queue]
    rfl
  words := by
    have dropping : { options with alwaysPositive := true }.Quiet := .inl rfl
    rw [words_follow_of_quiet dropping, ← mirrors.words]
    rcases words_follow_cases alphabet options mixed form with
      same | ⟨word, outgrown, -, -, filled, added⟩
    · rw [same]
    · have longer := (SearchOptions.outgrown_iff_lt fixed).mp outgrown
      rw [added, DistinctWords.filter_toList_add_of_not]
      rw [length_of_fill filled, beq_eq_false_iff_ne]
      omega

theorem Mirrors.foldl_follow (fixed : options.wordLength = some length)
    (mirrors : Mirrors length mixed quiet) (forms : List Form) :
    Mirrors length (forms.foldl (Search.follow alphabet options) mixed)
      (forms.foldl (Search.follow alphabet { options with alwaysPositive := true }) quiet) := by
  induction forms generalizing mixed quiet with
  | nil => exact mirrors
  | cons form rest ih => exact ih (mirrors.follow fixed form)

theorem Mirrors.visit (fixed : options.wordLength = some length) (leftmost : form.Leftmost)
    (mirrors : Mirrors length mixed quiet) :
    Mirrors length (mixed.visit c alphabet options form)
      (quiet.visit c alphabet { options with alwaysPositive := true } form) := by
  rcases leftmost.cases with ⟨finished, spelled⟩ | ⟨unfinished, name, found⟩
  · rw [visit_of_isWord finished, visit_of_isWord finished]
    show Mirrors length _ (if options.fits form then _ else quiet)
    by_cases fits : options.fits form = true
    · rw [if_pos fits, if_pos fits]
      refine ⟨mirrors.queue, DistinctWords.filter_toList_add mirrors.words ?_⟩
      rw [spelled] at fits
      exact beq_iff_eq.mpr (SearchOptions.fits_ofParts_nil_iff.mp fits length fixed)
    · rw [if_neg fits, if_neg fits]
      exact mirrors
  · rw [visit_of_leftmost? unfinished found, visit_of_leftmost? unfinished found]
    exact mirrors.foldl_follow fixed _

/-- As long as the search with candidates has room for more words, so has the other one, and they
go on with the same form. -/
theorem Mirrors.run (fixed : options.wordLength = some length)
    (leftmost : ∀ form ∈ mixed.queue.toList, form.Leftmost)
    (mirrors : Mirrors length mixed quiet) (stepsLeft : Nat)
    (short : (run c alphabet options stepsLeft mixed).words.size < options.count) :
    Mirrors length (run c alphabet options stepsLeft mixed)
      (run c alphabet { options with alwaysPositive := true } stepsLeft quiet) := by
  induction stepsLeft generalizing mixed quiet with
  | zero => exact mirrors
  | succ stepsLeft ih =>
    have wanted : mixed.words.size < options.count :=
      Nat.lt_of_le_of_lt (DistinctWords.size_le_of_isPrefix (toList_isPrefix_run _ mixed)) short
    have wantedToo : quiet.words.size < options.count := by
      rw [DistinctWords.size_eq_length] at wanted ⊢
      rw [← mirrors.words]
      exact Nat.lt_of_le_of_lt (List.length_filter_le _ _) wanted
    simp only [Search.run, wanted, wantedToo, if_true, ← mirrors.queue] at short ⊢
    cases popped : mixed.queue.pop? with
    | none => exact mirrors
    | some first =>
      obtain ⟨form, queue⟩ := first
      rw [popped] at short
      rw [Queue.toList_of_pop? popped] at leftmost
      exact ih (leftmost_visit leftmost)
        (Mirrors.visit fixed (leftmost form List.mem_cons_self) ⟨rfl, mirrors.words⟩) short

end Search

/-- A search that makes candidates up for a length finds words of the language that have the
length, and candidates of the terminals in use that have one terminal more. If it has found fewer
words than asked for, then those of the length are, in their order, what the search without
candidates finds. -/
theorem NormalForm.search_keeps_candidates_apart {σ τ : Type} [RandomSource σ] [RandomSource τ]
    (c : NormalForm) (options : SearchOptions) {length : Nat} (positive : 1 ≤ length)
    (fixed : options.wordLength = some length) (source : σ) (other : τ) :
    (∀ word ∈ (c.search options source).words.toList, word ⊆ c.terminals ∧
      ((word.length = length ∧ (Recognizer.ofNormalForm c).recognise word = true) ∨
        word.length = length + 1)) ∧
    ((c.search options source).words.toList.length < options.count →
      (c.search options source).words.toList.filter (·.length == length) =
        (c.search { options with alwaysPositive := true } other).words.toList) := by
  refine ⟨fun word member => ⟨?_, ?_⟩, fun short => ?_⟩
  · exact (Search.spelled_search c options source).words word member
  · rw [Recognizer.recognise_eq_true_iff]
    exact (Search.separates_search c positive fixed source).words word member
  · rw [← DistinctWords.size_eq_length] at short
    have start : Search.Mirrors length
        (⟨.empty, .single (Form.initial c), 0, source⟩ : Search σ)
        (⟨.empty, .single (Form.initial c), 0, other⟩ : Search τ) := ⟨rfl, rfl⟩
    have leftmost : ∀ form ∈ (Queue.single (Form.initial c)).toList, form.Leftmost :=
      (Search.enumerates_start c).leftmost
    exact (start.run fixed leftmost options.stepLimit short).words

/-- The candidates `aaa` and `baa` come first, and the words of two terminals after them. -/
theorem NormalForm.search_keeps_candidates_apart_anyWord :
    (anyWord.search { count := 9, wordLength := some 2, stepLimit := 30 }
      (Script.mk [7, 4026531840])).words.toList =
        [['a', 'a', 'a'], ['b', 'a', 'a'], ['a', 'a'], ['a', 'b'], ['b', 'a'], ['b', 'b']] ∧
    ['b', 'a', 'a'] ⊆ anyWord.terminals ∧
    (Recognizer.ofNormalForm anyWord).recognise ['b', 'a'] = true ∧
    (anyWord.search { count := 9, wordLength := some 2, alwaysPositive := true, stepLimit := 30 }
      (Script.mk [])).words.toList = [['a', 'a'], ['a', 'b'], ['b', 'a'], ['b', 'b']] := by
  have found : (anyWord.search { count := 9, wordLength := some 2, stepLimit := 30 }
      (Script.mk [7, 4026531840])).words.toList =
        [['a', 'a', 'a'], ['b', 'a', 'a'], ['a', 'a'], ['a', 'b'], ['b', 'a'], ['b', 'b']] := by
    decide +kernel
  obtain ⟨apart, same⟩ := search_keeps_candidates_apart anyWord
    { count := 9, wordLength := some 2, stepLimit := 30 } (by decide : 1 ≤ 2) rfl
    (Script.mk [7, 4026531840]) (Script.mk [])
  rw [found] at apart same
  refine ⟨found, (apart ['b', 'a', 'a'] (by simp)).1, ?_, (same (by decide)).symm⟩
  rcases (apart ['b', 'a'] (by simp)).2 with ⟨-, recognised⟩ | longer
  · exact recognised
  · cases longer

end ContextFree
