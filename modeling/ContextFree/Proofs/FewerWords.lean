import ContextFree.Proofs.PositiveSearch
import ContextFree.Proofs.Walk
import ContextFree.Words.Strategy

/-!
# Asking for fewer words

Two runs of a strategy from the same source ask for different numbers of words. They are at the
same place, with the same forms ahead of them and the same values drawn, until the one that asks
for fewer has all of them (`Lockstep`). From then on it collects nothing, whatever it still draws,
and the other one adds its further words at the end. So who asks for fewer words gets the first
ones, and who allows fewer steps or attempts gets some of the first ones.
-/

namespace ContextFree

/-! ## Limits -/

/-- The options with another number of words and of steps. -/
def SearchOptions.limitedTo (options : SearchOptions) (count limit : Nat) : SearchOptions :=
  { options with count, stepLimit := limit }

/-- The options with another number of words and of attempts. -/
def WalkOptions.limitedTo (options : WalkOptions) (count limit : Nat) : WalkOptions :=
  { options with count, attemptLimit := limit }

@[simp]
theorem SearchOptions.count_limitedTo (options : SearchOptions) (count limit : Nat) :
    (options.limitedTo count limit).count = count := rfl

@[simp]
theorem WalkOptions.count_limitedTo (options : WalkOptions) (count limit : Nat) :
    (options.limitedTo count limit).count = count := rfl

/-- The strategy with another number of words, and of steps or attempts. -/
def Strategy.limitedTo (strategy : Strategy) (count limit : Nat) : Strategy :=
  match strategy with
  | .search options => .search (options.limitedTo count limit)
  | .walks options => .walks (options.limitedTo count limit)

/-! ## Lockstep -/

/-- The first of two states that collect words wants `count` of them and the second wants no fewer.
They are equal, or the first one has all its words and these were found first by the second. -/
inductive Lockstep {α : Type} (words : α → DistinctWords) (count : Nat) (first second : α) : Prop
  | together : first = second → Lockstep words count first second
  | done : count ≤ (words first).size → (words first).toList <+: (words second).toList →
      Lockstep words count first second

namespace Lockstep

variable {α : Type} {words : α → DistinctWords} {count : Nat} {first second : α}

/-- The states are equal as long as the first one wants more words. -/
theorem cases (lockstep : Lockstep words count first second) :
    (first = second ∧ (words first).size < count) ∨
      (count ≤ (words first).size ∧ (words first).toList <+: (words second).toList) := by
  cases lockstep with
  | together same =>
    subst same
    by_cases wanted : (words first).size < count
    · exact .inl ⟨rfl, wanted⟩
    · exact .inr ⟨Nat.le_of_not_lt wanted, List.prefix_rfl⟩
  | done full begun => exact .inr ⟨full, begun⟩

/-- Two ways to go on keep the lockstep if they agree while words are wanted, the first adds
nothing when it has all, and the second adds words at the end. -/
theorem next {f g : α → α} (lockstep : Lockstep words count first second)
    (agree : ∀ state, (words state).size < count → f state = g state)
    (idle : ∀ state, count ≤ (words state).size → words (f state) = words state)
    (grow : ∀ state, (words state).toList <+: (words (g state)).toList) :
    Lockstep words count (f first) (g second) := by
  rcases lockstep.cases with ⟨same, wanted⟩ | ⟨full, begun⟩
  · rw [← same]
    exact .together (agree first wanted)
  · have unchanged := idle first full
    apply Lockstep.done
    · rw [unchanged]
      exact full
    · rw [unchanged]
      exact begun.trans (grow second)

/-- The words of the first state are the first words of the second. -/
theorem eq_take (lockstep : Lockstep words count first second)
    (bound : (words first).size ≤ count) :
    (words first).toList = (words second).toList.take count := by
  rw [DistinctWords.size_eq_length] at bound
  cases lockstep with
  | together same =>
    subst same
    exact (List.take_of_length_le bound).symm
  | done full begun =>
    rw [DistinctWords.size_eq_length] at full
    rw [← Nat.le_antisymm bound full]
    exact List.prefix_iff_eq_take.mp begun

end Lockstep

variable {σ : Type} [RandomSource σ] {fewer more lower higher : Nat}

/-! ## Searches -/

namespace Search

variable {c : NormalForm} {alphabet : List Char} {options : SearchOptions}
variable {first second : Search σ}

theorem run_of_full (full : options.count ≤ first.words.size) (stepsLeft : Nat) :
    run c alphabet options stepsLeft first = first := by
  cases stepsLeft with
  | zero => rfl
  | succ stepsLeft => rw [run, if_neg (Nat.not_lt_of_le full)]

/-- A run with more steps goes on where the one with fewer steps ended. -/
theorem toList_isPrefix_run_of_le (within : lower ≤ higher) (search : Search σ) :
    (run c alphabet options lower search).words.toList <+:
      (run c alphabet options higher search).words.toList := by
  induction lower generalizing higher search with
  | zero => exact toList_isPrefix_run higher search
  | succ lower ih =>
    obtain ⟨higher, rfl⟩ := Nat.exists_eq_add_of_lt within
    rw [run, run]
    by_cases wanted : search.words.size < options.count
    · rw [if_pos wanted, if_pos wanted]
      cases search.queue.pop? with
      | none => exact List.prefix_rfl
      | some popped => exact ih (Nat.le_add_right _ _) _
    · simp [wanted]

section Lockstep

variable (enough : fewer ≤ more)
include enough

theorem lockstep_follow (lockstep : Lockstep Search.words fewer first second) (form : Form) :
    Lockstep Search.words fewer (first.follow alphabet (options.limitedTo fewer lower) form)
      (second.follow alphabet (options.limitedTo more higher) form) := by
  refine lockstep.next
    (f := fun search => search.follow alphabet (options.limitedTo fewer lower) form)
    (g := fun search => search.follow alphabet (options.limitedTo more higher) form) ?_ ?_ ?_
  · intro search wanted
    have wantedToo : search.words.size < more := Nat.lt_of_lt_of_le wanted enough
    simp [follow, SearchOptions.limitedTo, SearchOptions.outgrown, wanted, wantedToo]
  · intro search full
    rcases words_follow_cases alphabet (options.limitedTo fewer lower) search form with
      same | ⟨word, -, -, wanted, -, -⟩
    · exact same
    · exact absurd wanted (Nat.not_lt_of_le full)
  · intro search
    exact toList_isPrefix_follow search form

theorem lockstep_foldl_follow (lockstep : Lockstep Search.words fewer first second)
    (forms : List Form) :
    Lockstep Search.words fewer
      (forms.foldl (follow alphabet (options.limitedTo fewer lower)) first)
      (forms.foldl (follow alphabet (options.limitedTo more higher)) second) := by
  induction forms generalizing first second with
  | nil => exact lockstep
  | cons form rest ih => exact ih (lockstep_follow enough lockstep form)

theorem lockstep_visit (search : Search σ) (form : Form) :
    Lockstep Search.words fewer (search.visit c alphabet (options.limitedTo fewer lower) form)
      (search.visit c alphabet (options.limitedTo more higher) form) := by
  by_cases finished : form.isWord = true
  · rw [visit_of_isWord finished, visit_of_isWord finished]
    exact .together rfl
  · have unfinished := Bool.eq_false_iff.mpr finished
    cases found : form.leftmost? with
    | none => exact .together (by simp [visit, unfinished, found])
    | some name =>
      rw [visit_of_leftmost? unfinished found, visit_of_leftmost? unfinished found]
      exact lockstep_foldl_follow enough (.together rfl) _

/-- Searches that are allowed the same number of steps stay in lockstep. -/
theorem lockstep_run (lockstep : Lockstep Search.words fewer first second) (stepsLeft : Nat) :
    Lockstep Search.words fewer
      (run c alphabet (options.limitedTo fewer lower) stepsLeft first)
      (run c alphabet (options.limitedTo more higher) stepsLeft second) := by
  induction stepsLeft generalizing first second with
  | zero => exact lockstep
  | succ stepsLeft ih =>
    rcases lockstep.cases with ⟨rfl, wanted⟩ | ⟨full, begun⟩
    · have wantedToo : first.words.size < more := Nat.lt_of_lt_of_le wanted enough
      simp only [run, SearchOptions.count_limitedTo, wanted, wantedToo, if_true]
      cases first.queue.pop? with
      | none => exact .together rfl
      | some popped => exact ih (lockstep_visit enough _ popped.1)
    · rw [run_of_full full]
      exact .done full (begun.trans (toList_isPrefix_run _ second))

end Lockstep

end Search

/-! ## Walks -/

namespace Adjacency

variable {adjacency : Adjacency} {options : WalkOptions}

theorem sampleFrom_of_full {sampling : Sampling σ} (full : options.count ≤ sampling.words.size)
    (attemptsLeft : Nat) : adjacency.sampleFrom options attemptsLeft sampling = sampling := by
  cases attemptsLeft with
  | zero => rfl
  | succ attemptsLeft => rw [sampleFrom, if_neg (Nat.not_lt_of_le full)]

/-- A sampling with more attempts goes on where the one with fewer attempts ended. -/
theorem toList_isPrefix_sampleFrom_of_le (within : lower ≤ higher) (sampling : Sampling σ) :
    (adjacency.sampleFrom options lower sampling).words.toList <+:
      (adjacency.sampleFrom options higher sampling).words.toList := by
  induction lower generalizing higher sampling with
  | zero => exact toList_isPrefix_sampleFrom higher sampling
  | succ lower ih =>
    obtain ⟨higher, rfl⟩ := Nat.exists_eq_add_of_lt within
    rw [sampleFrom, sampleFrom]
    by_cases wanted : sampling.words.size < options.count
    · rw [if_pos wanted, if_pos wanted]
      rcases RandomSource.choose adjacency.initial sampling.source with ⟨_ | char, after⟩
      · exact List.prefix_rfl
      · exact ih (Nat.le_add_right _ _) _
    · simp [wanted]

section Lockstep

variable (enough : fewer ≤ more)
include enough

theorem lockstep_offer {first second : DistinctWords} (lockstep : Lockstep id fewer first second)
    (word : Word) : Lockstep id fewer (first.offer fewer word) (second.offer more word) := by
  refine lockstep.next (f := fun words => words.offer fewer word)
    (g := fun words => words.offer more word) ?_ ?_ ?_
  · intro words (wanted : words.size < fewer)
    rw [DistinctWords.offer_of_lt wanted,
      DistinctWords.offer_of_lt (Nat.lt_of_lt_of_le wanted enough)]
  · intro words full
    exact DistinctWords.offer_of_le full
  · intro words
    exact words.toList_isPrefix_offer more word

/-- The words make no difference to where a walk goes and to what it draws. -/
theorem lockstep_walk (adjacency : Adjacency) (options : WalkOptions) (lower higher : Nat)
    {first second : DistinctWords} (lockstep : Lockstep id fewer first second)
    (room : Nat) (current : Char) (word : Word) (source : σ) :
    Lockstep id fewer
        (adjacency.walk (options.limitedTo fewer lower) room current word first source).1
        (adjacency.walk (options.limitedTo more higher) room current word second source).1 ∧
      (adjacency.walk (options.limitedTo fewer lower) room current word first source).2 =
        (adjacency.walk (options.limitedTo more higher) room current word second source).2 := by
  induction room generalizing current word first second source with
  | zero => exact ⟨lockstep_offer enough lockstep word, rfl⟩
  | succ room ih =>
    have sameStep : ∀ count limit, adjacency.step (options.limitedTo count limit) current source =
        adjacency.step options current source := fun _ _ => rfl
    rw [walk, walk, sameStep, sameStep]
    rcases adjacency.step options current source with ⟨_ | next, after⟩
    · exact ⟨lockstep_offer enough lockstep word, rfl⟩
    · dsimp only
      have offered := lockstep_offer enough lockstep (word ++ [next])
      by_cases final : adjacency.finals.contains next = true
      · rw [if_pos final, if_pos final]
        rcases RandomSource.flip after with ⟨_ | _, later⟩
        · exact ⟨offered, rfl⟩
        · exact ih offered next (word ++ [next]) later
      · rw [if_neg final, if_neg final]
        exact ih lockstep next (word ++ [next]) after

/-- Samplings that are allowed the same number of attempts stay in lockstep. -/
theorem lockstep_sampleFrom {first second : Sampling σ}
    (lockstep : Lockstep Sampling.words fewer first second) (attemptsLeft : Nat) :
    Lockstep Sampling.words fewer
      (adjacency.sampleFrom (options.limitedTo fewer lower) attemptsLeft first)
      (adjacency.sampleFrom (options.limitedTo more higher) attemptsLeft second) := by
  induction attemptsLeft generalizing first second with
  | zero => exact lockstep
  | succ attemptsLeft ih =>
    rcases lockstep.cases with ⟨rfl, wanted⟩ | ⟨full, begun⟩
    · have wantedToo : first.words.size < more := Nat.lt_of_lt_of_le wanted enough
      simp only [sampleFrom, WalkOptions.count_limitedTo, wanted, wantedToo, if_true]
      rcases RandomSource.choose adjacency.initial first.source with ⟨_ | char, after⟩
      · exact .together rfl
      · obtain ⟨walked, drawn⟩ := lockstep_walk enough adjacency options lower higher
          (.together (Eq.refl first.words)) (options.maxLength - 1) char [char] after
        cases walked with
        | together same => exact ih (.together (congrArg₂ (Sampling.mk · _ ·) same drawn))
        | done full begun => exact ih (.done full begun)
    · rw [sampleFrom_of_full full]
      exact .done full (begun.trans (toList_isPrefix_sampleFrom _ second))

end Lockstep

end Adjacency

/-- With fewer words asked for and fewer steps or attempts allowed, the words that are found are
the first of those that would be found otherwise. If only fewer words are asked for, they are as
many of the first ones as asked for. -/
theorem NormalForm.generate_limitedTo_isPrefix (c : NormalForm) (strategy : Strategy) (source : σ)
    (enough : fewer ≤ more) (within : lower ≤ higher) :
    (c.generate (strategy.limitedTo fewer lower) source).words <+:
        (c.generate (strategy.limitedTo more higher) source).words ∧
      (c.generate (strategy.limitedTo fewer lower) source).words =
        (c.generate (strategy.limitedTo more lower) source).words.take fewer := by
  cases strategy with
  | search options =>
    have first : ∀ limit, (c.search (options.limitedTo fewer lower) source).words.toList =
        (Search.run c c.terminals (options.limitedTo more limit) lower
          ⟨.empty, .single (Form.initial c), 0, source⟩).words.toList.take fewer := fun limit =>
      (Search.lockstep_run enough (.together rfl) lower).eq_take
        (Search.size_words_search_le c (options.limitedTo fewer lower) source)
    refine ⟨?_, first lower⟩
    show (c.search (options.limitedTo fewer lower) source).words.toList <+: _
    rw [first higher]
    exact (List.take_prefix _ _).trans (Search.toList_isPrefix_run_of_le within _)
  | walks options =>
    have first : ∀ limit,
        ((Adjacency.ofNormalForm c).sample (options.limitedTo fewer lower) source).words.toList =
        ((Adjacency.ofNormalForm c).sampleFrom (options.limitedTo more limit) lower
          ⟨.empty, 0, source⟩).words.toList.take fewer := fun limit =>
      (Adjacency.lockstep_sampleFrom enough (.together rfl) lower).eq_take
        (Adjacency.size_words_sample_le _ (options.limitedTo fewer lower) source)
    refine ⟨?_, first lower⟩
    show ((Adjacency.ofNormalForm c).sample (options.limitedTo fewer lower)
      source).words.toList <+: _
    rw [first higher]
    exact (List.take_prefix _ _).trans (Adjacency.toList_isPrefix_sampleFrom_of_le within _)

/-- A search with random candidates, and walks that collect a word on the way. -/
theorem NormalForm.generate_limitedTo_isPrefix_anyWord :
    2 ≤ 4 ∧ 9 ≤ 30 ∧
    (anyWord.generate ((Strategy.search { wordLength := some 2 }).limitedTo 4 30)
      (Script.mk [7, 4026531840])).words =
        [['a', 'a', 'a'], ['b', 'a', 'a'], ['a', 'a'], ['a', 'b']] ∧
    (anyWord.generate ((Strategy.search { wordLength := some 2 }).limitedTo 2 9)
      (Script.mk [7, 4026531840])).words <+:
        [['a', 'a', 'a'], ['b', 'a', 'a'], ['a', 'a'], ['a', 'b']] ∧
    (anyWord.generate ((Strategy.walks { maxLength := 3 }).limitedTo 4 9)
      (Script.mk [])).words = [['a', 'a'], ['a', 'a', 'a']] ∧
    (anyWord.generate ((Strategy.walks { maxLength := 3 }).limitedTo 1 9)
      (Script.mk [])).words = [['a', 'a'], ['a', 'a', 'a']].take 1 := by
  have searched : (anyWord.generate ((Strategy.search { wordLength := some 2 }).limitedTo 4 30)
      (Script.mk [7, 4026531840])).words =
        [['a', 'a', 'a'], ['b', 'a', 'a'], ['a', 'a'], ['a', 'b']] := by decide +kernel
  have walked : (anyWord.generate ((Strategy.walks { maxLength := 3 }).limitedTo 4 9)
      (Script.mk [])).words = [['a', 'a'], ['a', 'a', 'a']] := by decide +kernel
  refine ⟨by decide, by decide, searched, ?_, walked, ?_⟩
  · rw [← searched]
    exact (generate_limitedTo_isPrefix anyWord (.search { wordLength := some 2 })
      (Script.mk [7, 4026531840]) (by decide : 2 ≤ 4) (by decide : 9 ≤ 30)).1
  · rw [← walked]
    exact (generate_limitedTo_isPrefix anyWord (.walks { maxLength := 3 }) (Script.mk [])
      (by decide : 1 ≤ 4) (Nat.le_refl 9)).2

end ContextFree
