import ContextFree.Proofs.Adjacency
import ContextFree.Words.Walk

/-!
# Words of random walks

A walk goes from a terminal that can begin a word to one that can come next, and so on (`Traced`).
It collects what it has come by where it may stop (`Collected`): at the limit on the length, at a
terminal that can end a word, or where there is nothing to step to. All that sampling does to the
words is to offer such words to them one after another, so that whatever every offer keeps holds
when it is done (`sampleFrom_induction`).

Without noise a walk that cannot go on has come to the end of a word if all nonterminals are
useful. The terminal that it has come to is seen in some word of the language, and it would have a
successor if it was not the last one there.
-/

namespace ContextFree

/-- The number of terminals at which words are cut off. A walk has at least the terminal that it
begins with, whatever the options say. -/
def WalkOptions.longest (options : WalkOptions) : Nat := max 1 options.maxLength

namespace Adjacency

open Grammar (overgrown)

variable {σ : Type} [RandomSource σ] {adjacency : Adjacency} {options : WalkOptions}
variable {current next last : Char} {word other : Word} {words : DistinctWords} {source : σ}

/-! ## Traces of walks -/

/-- The terminal can come after another one in a walk. -/
def Leads (adjacency : Adjacency) (options : WalkOptions) (current next : Char) : Prop :=
  next ∈ adjacency.successorsOf current ∨ 0 < options.noisePercent ∧ next ∈ adjacency.alphabet

/-- A walk can have come to the terminal by the word. -/
inductive Traced (adjacency : Adjacency) (options : WalkOptions) : Word → Char → Prop
  | start {char : Char} : char ∈ adjacency.initial → Traced adjacency options [char] char
  | step {word : Word} {current next : Char} : Traced adjacency options word current →
      adjacency.Leads options current next → Traced adjacency options (word ++ [next]) next

theorem leads_of_step (stepped : (adjacency.step options current source).1 = some next) :
    adjacency.Leads options current next := by
  unfold step at stepped
  dsimp only at stepped
  split at stepped
  · next noisy => exact .inr ⟨Nat.zero_lt_of_lt noisy, RandomSource.mem_of_choose stepped⟩
  · exact .inl (RandomSource.mem_of_choose stepped)

theorem step_of_quiet (quiet : options.noisePercent = 0) (current : Char) (source : σ) :
    adjacency.step options current source =
      RandomSource.choose (adjacency.successorsOf current) (RandomSource.below32 100 source).2 := by
  unfold step
  dsimp only
  rw [quiet, if_neg (Nat.not_lt_zero _)]

theorem successorsOf_eq_nil_of_step (quiet : options.noisePercent = 0)
    (stuck : (adjacency.step options current source).1 = none) :
    adjacency.successorsOf current = [] := by
  rw [step_of_quiet quiet] at stuck
  exact RandomSource.choose_eq_none_iff.mp stuck

theorem Traced.getLast? (traced : adjacency.Traced options word last) :
    word.getLast? = some last := by
  cases traced with
  | start => rfl
  | step => exact List.getLast?_concat

theorem Traced.ne_nil (traced : adjacency.Traced options word last) : word ≠ [] := by
  intro empty
  have ends := traced.getLast?
  rw [empty] at ends
  cases ends

theorem Traced.head? (traced : adjacency.Traced options word last) :
    ∃ char ∈ adjacency.initial, word.head? = some char := by
  induction traced with
  | start begins => exact ⟨_, begins, rfl⟩
  | step _ _ ih =>
    obtain ⟨char, begins, first⟩ := ih
    refine ⟨char, begins, ?_⟩
    rw [List.head?_append, first, Option.some_or]

/-- Without noise, neighbours in a walk are adjacent. -/
theorem Traced.mem_successorsOf (quiet : options.noisePercent = 0)
    (traced : adjacency.Traced options word last) {x y : Char} (beside : [x, y] <:+: word) :
    y ∈ adjacency.successorsOf x := by
  induction traced with
  | start => simp [List.infix_cons_iff] at beside
  | step traced leads ih =>
    rcases NormalForm.pair_infix_append beside with before | behind | ⟨ends, begins⟩
    · exact ih before
    · simp [List.infix_cons_iff] at behind
    · cases traced.getLast?.symm.trans ends
      cases begins
      rcases leads with follows | ⟨noisy, -⟩
      · exact follows
      · omega

/-! ## What is collected -/

/-- A walk that has come to `last` by the word may collect it: it has no room for more, or it has
stepped to a terminal that can end a word, or there may be nothing to step to. -/
structure Collected (adjacency : Adjacency) (options : WalkOptions) (word : Word) (last : Char) :
    Prop where
  traced : adjacency.Traced options word last
  length_le : word.length ≤ options.longest
  ends : word.length = options.longest ∨ (1 < word.length ∧ last ∈ adjacency.finals) ∨
    (options.noisePercent = 0 → adjacency.successorsOf last = [])

section Induction

variable {motive : DistinctWords → Prop}
variable (offer : ∀ words word last, motive words → adjacency.Collected options word last →
  motive (words.offer options.count word))
include offer

/-- What every offer of a word that may be collected keeps, is kept by a walk. -/
theorem Traced.walk_induction {room : Nat} (traced : adjacency.Traced options word current)
    (left : word.length + room = options.longest) (start : motive words) :
    motive (adjacency.walk options room current word words source).1 := by
  induction room generalizing current word words source with
  | zero => exact offer _ _ _ start ⟨traced, by omega, .inl left⟩
  | succ room ih =>
    rw [walk]
    split
    · next stuck =>
      refine offer _ _ _ start ⟨traced, by omega, .inr (.inr fun quiet => ?_)⟩
      exact successorsOf_eq_nil_of_step quiet (congrArg Prod.fst stuck)
    · next next after stepped =>
      have further := traced.step (leads_of_step (congrArg Prod.fst stepped))
      have longer : (word ++ [next]).length = word.length + 1 := List.length_append
      -- Where a word can end it is collected whether the walk goes on or not, in the first case
      -- before the rest of the walk.
      split
      · next final =>
        have before : 0 < word.length := List.length_pos_iff.mpr traced.ne_nil
        have collected : adjacency.Collected options (word ++ [next]) next :=
          ⟨further, by omega, .inr (.inl ⟨by omega, List.contains_iff_mem.mp final⟩)⟩
        split
        · exact ih further (by omega) (offer _ _ _ start collected)
        · exact offer _ _ _ start collected
      · exact ih further (by omega) start

/-- What every offer of a word that may be collected keeps, is kept by a sampling. -/
theorem sampleFrom_induction (attemptsLeft : Nat) {sampling : Sampling σ}
    (start : motive sampling.words) :
    motive (adjacency.sampleFrom options attemptsLeft sampling).words := by
  induction attemptsLeft generalizing sampling with
  | zero => exact start
  | succ attemptsLeft ih =>
    rw [sampleFrom]
    split
    · split
      · exact start
      · next char after chosen =>
        have started : adjacency.Traced options [char] char :=
          .start (RandomSource.mem_of_choose (congrArg Prod.fst chosen))
        have left : [char].length + (options.maxLength - 1) = options.longest := by
          rw [List.length_singleton, WalkOptions.longest]
          omega
        exact ih (started.walk_induction offer left start)
    · exact start

end Induction

theorem Traced.toList_isPrefix_walk {room : Nat} (traced : adjacency.Traced options word current)
    (left : word.length + room = options.longest) :
    words.toList <+: (adjacency.walk options room current word words source).1.toList :=
  traced.walk_induction (motive := fun after => words.toList <+: after.toList)
    (fun after other _ before _ => before.trans (after.toList_isPrefix_offer _ other)) left
    List.prefix_rfl

theorem toList_isPrefix_sampleFrom (attemptsLeft : Nat) (sampling : Sampling σ) :
    sampling.words.toList <+:
      (adjacency.sampleFrom options attemptsLeft sampling).words.toList :=
  sampleFrom_induction (motive := fun after => sampling.words.toList <+: after.toList)
    (fun after other _ before _ => before.trans (after.toList_isPrefix_offer _ other)) attemptsLeft
    List.prefix_rfl

theorem size_words_sample_le (adjacency : Adjacency) (options : WalkOptions) (source : σ) :
    (adjacency.sample options source).words.size ≤ options.count :=
  sampleFrom_induction (motive := fun words => words.size ≤ options.count)
    (fun _ _ _ bound _ => DistinctWords.size_offer_le_of_le bound) options.attemptLimit
    (Nat.zero_le _)

/-- Every word sampled may be collected by some walk. -/
theorem exists_collected_of_mem_sample
    (member : word ∈ (adjacency.sample options source).words.toList) :
    ∃ last, adjacency.Collected options word last := by
  have all : ∀ word ∈ (adjacency.sample options source).words.toList,
      ∃ last, adjacency.Collected options word last := by
    refine sampleFrom_induction (motive := fun words => ∀ word ∈ words.toList,
      ∃ last, adjacency.Collected options word last) ?_ options.attemptLimit fun word found => ?_
    · intro words other last known collected word found
      rcases DistinctWords.mem_toList_offer found with old | rfl
      · exact known word old
      · exact ⟨last, collected⟩
    · simp at found
  exact all word member

/-! ## Walks and the language -/

variable {c : NormalForm}

theorem Traced.subset_terminals (wellFormed : c.WellFormed)
    (traced : (ofNormalForm c).Traced options word last) : word ⊆ c.terminals := by
  induction traced with
  | start begins =>
    have known := NormalForm.mem_terminals_of_mem_edge (mem_initial_iff.mp begins)
    simpa using known
  | @step word current next _ leads ih =>
    have known : next ∈ c.terminals := by
      rcases leads with follows | ⟨-, known⟩
      · obtain ⟨name, -, ⟨-, follows⟩ | ⟨-, begins⟩⟩ :=
          (mem_successorsOf_iff wellFormed).mp follows
        · exact wellFormed.mem_terminals_of_mem_beside follows
        · exact NormalForm.mem_terminals_of_mem_edge begins
      · exact known
    exact List.append_subset.mpr ⟨ih, by simpa using known⟩

/-- Without noise, a walk only comes to terminals that are seen in words of the language. -/
theorem Exact.exists_accepts_of_traced (precise : adjacency.Exact c)
    (quiet : options.noisePercent = 0) (traced : adjacency.Traced options word last) :
    ∃ accepted, c.Accepts accepted ∧ last ∈ accepted := by
  cases traced with
  | start begins =>
    obtain ⟨accepted, accepts, first⟩ := (precise.initial last).mp begins
    exact ⟨accepted, accepts, List.mem_of_mem_head? first⟩
  | step _ leads =>
    rcases leads with follows | ⟨noisy, -⟩
    · obtain ⟨accepted, accepts, beside⟩ := (precise.successors _ last).mp follows
      exact ⟨accepted, accepts, beside.subset (by simp)⟩
    · omega

/-- A walk without noise that cannot go on has come to a terminal that can end a word. -/
theorem Exact.mem_finals_of_traced (precise : adjacency.Exact c)
    (quiet : options.noisePercent = 0) (traced : adjacency.Traced options word last)
    (stuck : adjacency.successorsOf last = []) : last ∈ adjacency.finals := by
  obtain ⟨accepted, accepts, occurs⟩ := precise.exists_accepts_of_traced quiet traced
  obtain ⟨front, back, rfl⟩ := List.append_of_mem occurs
  cases back with
  | nil => exact (precise.finals last).mpr ⟨_, accepts, by simp⟩
  | cons char rest =>
    have follows : char ∈ adjacency.successorsOf last :=
      (precise.successors last char).mpr ⟨_, accepts, front, rest, by simp⟩
    rw [stuck] at follows
    cases follows

theorem initial_eq_nil (empty : c.productions c.start = []) :
    (ofNormalForm c).initial = [] := by
  refine List.eq_nil_iff_forall_not_mem.mpr fun char begins => ?_
  rw [mem_initial_iff, NormalForm.mem_first_iff, empty] at begins
  rcases begins with own | ⟨left, right, listed, -⟩
  · cases own
  · cases listed

/-- Sampling gives distinct words, no more than asked for, that walks over the terminals have come
by: they begin as words of the language can and are cut off at the limit. Without noise they go
from one terminal to an adjacent one, and where all nonterminals are useful they end as words of
the language can unless they were cut off. Where the start symbol has no productions there are
none. -/
theorem sample_collects_walks {start : String} {rules : RuleTable (List Production)}
    (accepted : NormalForm.ofRules start rules = .ok c) (options : WalkOptions) (source : σ)
    {words : List Word}
    (sampled : ((ofNormalForm c).sample options source).words.toList = words) :
    words.Nodup ∧ words.length ≤ options.count ∧
    (∀ word ∈ words, word ≠ [] ∧ word.length ≤ max 1 options.maxLength ∧ word ⊆ c.terminals ∧
      ∃ char ∈ (ofNormalForm c).initial, word.head? = some char) ∧
    (options.noisePercent = 0 →
      (∀ word ∈ words, ∀ x y, [x, y] <:+: word → y ∈ (ofNormalForm c).successorsOf x) ∧
      (c.Trim → ∀ word ∈ words, word.length = max 1 options.maxLength ∨
        ∃ char ∈ (ofNormalForm c).finals, word.getLast? = some char)) ∧
    (c.productions c.start = [] → words = []) := by
  have wellFormed := (NormalForm.ofRules_eq_ok_iff.mp accepted).2
  have collected : ∀ word ∈ words, ∃ last, (ofNormalForm c).Collected options word last := by
    intro word member
    rw [← sampled] at member
    exact exists_collected_of_mem_sample member
  refine ⟨?_, ?_, ?_, ?_, ?_⟩
  · rw [← sampled]
    exact DistinctWords.nodup_toList _
  · rw [← sampled, ← DistinctWords.size_eq_length]
    exact size_words_sample_le _ options source
  · intro word member
    obtain ⟨last, traced, short, -⟩ := collected word member
    exact ⟨traced.ne_nil, short, traced.subset_terminals wellFormed, traced.head?⟩
  · intro quiet
    refine ⟨fun word member x y beside => ?_, fun trim word member => ?_⟩
    · obtain ⟨last, traced, -, -⟩ := collected word member
      exact traced.mem_successorsOf quiet beside
    · obtain ⟨last, traced, -, long | ⟨-, final⟩ | stuck⟩ := collected word member
      · exact .inl long
      · exact .inr ⟨last, final, traced.getLast?⟩
      · have precise := exact_ofNormalForm trim wellFormed
        exact .inr ⟨last, precise.mem_finals_of_traced quiet traced (stuck quiet), traced.getLast?⟩
  · intro empty
    refine List.eq_nil_iff_forall_not_mem.mpr fun word member => ?_
    obtain ⟨last, traced, -, -⟩ := collected word member
    obtain ⟨char, begins, -⟩ := traced.head?
    rw [initial_eq_nil empty] at begins
    cases begins

/-- A start symbol without productions. -/
def barren : NormalForm := ⟨"S", ⟨[("S", [])], by decide⟩⟩

/-- The word `acba` was cut off, and `ac` ends as words of the language can. -/
theorem sample_collects_walks_overgrown :
    (∃ c, (overgrown.convert (Script.mk [])).normalForm = c ∧
      NormalForm.ofRules c.start c.rules = .ok c ∧ c.Trim ∧
      ((ofNormalForm c).sample { count := 2, maxLength := 4, noisePercent := 0 }
        (Script.mk [0, 0, 2147483648])).words.toList = [['a', 'c'], ['a', 'c', 'b', 'a']] ∧
      'b' ∈ (ofNormalForm c).successorsOf 'c' ∧
      ∃ char ∈ (ofNormalForm c).finals, ['a', 'c'].getLast? = some char) ∧
    NormalForm.ofRules barren.start barren.rules = .ok barren ∧
      ∀ source : Script, ((ofNormalForm barren).sample {} source).words.toList = [] := by
  have accepted : Grammar.ofRules overgrown.start overgrown.rules = .ok overgrown := by decide
  have wellFormed := Grammar.wellFormed_of_ofRules accepted
  have generates : overgrown.Generates overgrown.start := by decide
  have trim := wellFormed.trim_convert generates (Script.mk [])
  have again := NormalForm.ofRules_eq_ok_iff.mpr
    ⟨rfl, wellFormed.wellFormed_convert (Script.mk [])⟩
  have sampled : ((ofNormalForm (overgrown.convert (Script.mk [])).normalForm).sample
      { count := 2, maxLength := 4, noisePercent := 0 }
      (Script.mk [0, 0, 2147483648])).words.toList = [['a', 'c'], ['a', 'c', 'b', 'a']] := by
    decide +kernel
  obtain ⟨-, -, -, walked, -⟩ := sample_collects_walks again _ _ sampled
  obtain ⟨adjacent, ended⟩ := walked rfl
  refine ⟨⟨_, rfl, again, trim, sampled, ?_, ?_⟩, by decide, fun source => ?_⟩
  · exact adjacent ['a', 'c', 'b', 'a'] (by simp) 'c' 'b' ⟨['a'], ['a'], rfl⟩
  · rcases ended trim ['a', 'c'] (by simp) with long | final
    · cases long
    · exact final
  · have checked : NormalForm.ofRules barren.start barren.rules = .ok barren := by decide
    obtain ⟨-, -, -, -, none⟩ := sample_collects_walks checked {} source rfl
    exact none rfl

end Adjacency

end ContextFree
