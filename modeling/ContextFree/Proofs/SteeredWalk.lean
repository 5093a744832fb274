import ContextFree.Proofs.ConversionLanguage
import ContextFree.Proofs.Draw
import ContextFree.Proofs.Walk
import Mathlib.Data.Fintype.Card

/-!
# Words that walks can reach

Random values can be written down in advance so that a walk goes where it should. A walk without
noise that follows a word of the language finds each of its terminals among the successors of the
one before, and collects the word when it has come to its end.

A walk asks whether a word can end only after a step. So a word of a single terminal is collected
where the walk cannot take a step, and nowhere else.
-/

namespace ContextFree

namespace Adjacency

open Grammar (overgrown)

variable {adjacency : Adjacency} {options : WalkOptions} {current next first last : Char}
variable {word rest : Word} {words : DistinctWords} {c : NormalForm}

/-- The lists of the adjacency are not too long for each element to be chosen. -/
structure Drawable (adjacency : Adjacency) : Prop where
  initial : adjacency.initial.length ≤ 1 <<< 32
  successors : ∀ char, (adjacency.successorsOf char).length ≤ 1 <<< 32

theorem length_ofChars_le (chars : List Char) : (Alphabet.ofChars chars).length ≤ 1 <<< 32 := by
  have distinct : ((Alphabet.ofChars chars).map Char.ordinal).Nodup :=
    (Alphabet.nodup_ofChars chars).map fun _ _ => Char.ordinal_inj.mp
  calc (Alphabet.ofChars chars).length
      = ((Alphabet.ofChars chars).map Char.ordinal).length := (List.length_map _).symm
    _ ≤ Fintype.card (Fin Char.numCodePoints) := distinct.length_le_card
    _ = Char.numCodePoints := Fintype.card_fin _
    _ ≤ 1 <<< 32 := by decide

theorem drawable_ofNormalForm (c : NormalForm) : (ofNormalForm c).Drawable where
  initial := length_ofChars_le _
  successors char := by
    rw [successorsOf, ofNormalForm, lookup_map_key]
    by_cases known : char ∈ c.terminals
    · rw [if_pos known, Option.getD_some]
      exact length_ofChars_le _
    · rw [if_neg known]
      exact Nat.zero_le _

/-! ## Steered walks -/

/-- The words that a walk has when it has stepped to a terminal and goes on. -/
def passing (adjacency : Adjacency) (options : WalkOptions) (word : Word) (next : Char)
    (words : DistinctWords) : DistinctWords :=
  if adjacency.finals.contains next then words.offer options.count (word ++ [next]) else words

theorem size_passing_le : (adjacency.passing options word next words).size ≤ words.size + 1 := by
  unfold passing
  split
  · exact DistinctWords.size_offer_le _ _ _
  · exact Nat.le_succ _

theorem mem_passing (final : next ∈ adjacency.finals) (wanted : words.size < options.count) :
    word ++ [next] ∈ (adjacency.passing options word next words).toList := by
  rw [passing, if_pos (List.contains_iff_mem.mpr final), DistinctWords.offer_of_lt wanted]
  exact DistinctWords.mem_toList_add.mpr (.inr rfl)

section Step

variable {σ : Type} [RandomSource σ] {source after later : σ} {room : Nat}

theorem walk_of_step (stepped : adjacency.step options current source = (some next, after))
    (inner : adjacency.finals.contains next = false) :
    adjacency.walk options (room + 1) current word words source =
      adjacency.walk options room next (word ++ [next]) words after := by
  rw [walk, stepped]
  simp only [inner, Bool.false_eq_true, if_false]

theorem walk_of_heads (stepped : adjacency.step options current source = (some next, after))
    (final : adjacency.finals.contains next = true)
    (heads : RandomSource.flip after = (true, later)) :
    adjacency.walk options (room + 1) current word words source =
      adjacency.walk options room next (word ++ [next])
        (words.offer options.count (word ++ [next])) later := by
  rw [walk, stepped]
  simp only [final, if_true, heads]

/-- A walk that cannot take a step collects the word that it has come by. -/
theorem mem_walk_of_stuck (quiet : options.noisePercent = 0)
    (stuck : room = 0 ∨ adjacency.successorsOf current = [])
    (wanted : words.size < options.count) (source : σ) :
    word ∈ (adjacency.walk options room current word words source).1.toList := by
  have collected : word ∈ (words.offer options.count word).toList := by
    rw [DistinctWords.offer_of_lt wanted]
    exact DistinctWords.mem_toList_add.mpr (.inr rfl)
  cases room with
  | zero => exact collected
  | succ room =>
    rcases stuck with full | deadEnd
    · cases full
    · have standing : adjacency.step options current source =
          (none, (RandomSource.below32 100 source).2) := by
        rw [step_of_quiet quiet, deadEnd]
        rfl
      rw [walk, standing]
      exact collected

end Step

section Steered

variable (quiet : options.noisePercent = 0) (drawable : adjacency.Drawable)
include quiet drawable

/-- There are values for which a walk goes on to a given successor, and further from there. -/
theorem exists_walk_eq (follows : next ∈ adjacency.successorsOf current) :
    ∃ front, ∀ room word words values,
      adjacency.walk options (room + 1) current word words (Script.mk (front ++ values)) =
        adjacency.walk options room next (word ++ [next])
          (adjacency.passing options word next words) (Script.mk values) := by
  obtain ⟨percent, drawn⟩ := RandomSource.exists_below32_eq (by decide : 0 < 100) (by decide)
  obtain ⟨value, chosen⟩ :=
    RandomSource.exists_choose_eq follows (drawable.successors current)
  have stepped : ∀ values, adjacency.step options current
      (Script.mk (percent :: value :: values)) = (some next, Script.mk values) := by
    intro values
    rw [step_of_quiet quiet, drawn, chosen]
  by_cases final : adjacency.finals.contains next = true
  · refine ⟨[percent, value, 0, 0], fun room word words values => ?_⟩
    rw [passing, if_pos final]
    exact walk_of_heads (stepped (0 :: 0 :: values)) final (RandomSource.flip_zeros values)
  · refine ⟨[percent, value], fun room word words values => ?_⟩
    rw [passing, if_neg final]
    exact walk_of_step (stepped values) (Bool.eq_false_iff.mpr final)

/-- There are values for which a walk goes through the rest of a word to a terminal that can end
it, and collects the word there. -/
theorem exists_mem_walk {room : Nat} (traced : adjacency.Traced options word current)
    (left : word.length + room = options.longest) (ends : rest.getLast? = some last)
    (final : last ∈ adjacency.finals)
    (adjacent : ∀ x y, [x, y] <:+: current :: rest → y ∈ adjacency.successorsOf x)
    (short : rest.length ≤ room) (few : words.size + rest.length ≤ options.count) :
    ∃ values, word ++ rest ∈
      (adjacency.walk options room current word words (Script.mk values)).1.toList := by
  induction rest generalizing room current word words with
  | nil => cases ends
  | cons next others ih =>
    have follows : next ∈ adjacency.successorsOf current :=
      adjacent current next ⟨[], others, rfl⟩
    obtain ⟨front, walks⟩ := exists_walk_eq quiet drawable follows
    have further : adjacency.Traced options (word ++ [next]) next := traced.step (.inl follows)
    have longer : (word ++ [next]).length = word.length + 1 := List.length_append
    rw [List.length_cons] at short few
    obtain ⟨room, rfl⟩ : ∃ smaller, room = smaller + 1 := ⟨room - 1, by omega⟩
    cases others with
    | nil =>
      obtain rfl : next = last := by simpa using ends
      refine ⟨front ++ [], ?_⟩
      rw [walks]
      exact (further.toList_isPrefix_walk (by omega)).subset (mem_passing final (by omega))
    | cons second others =>
      have grown : (adjacency.passing options word next words).size ≤ words.size + 1 :=
        size_passing_le
      obtain ⟨values, member⟩ : ∃ values, word ++ [next] ++ second :: others ∈
          (adjacency.walk options room next (word ++ [next])
            (adjacency.passing options word next words) (Script.mk values)).1.toList :=
        ih further (by omega) (by simpa using ends)
          (fun x y beside => adjacent x y (List.infix_cons beside)) (by omega) (by omega)
      refine ⟨front ++ values, ?_⟩
      rw [walks]
      simpa using member

end Steered

/-- What a walk can collect can be sampled, if the walk may be begun. -/
theorem exists_mem_sample (drawable : adjacency.Drawable) (begins : first ∈ adjacency.initial)
    (wanted : 0 < options.count) (tried : 0 < options.attemptLimit)
    (walked : ∃ values, word ∈ (adjacency.walk options (options.maxLength - 1) first [first] .empty
      (Script.mk values)).1.toList) :
    ∃ values, word ∈ (adjacency.sample options (Script.mk values)).words.toList := by
  obtain ⟨values, member⟩ := walked
  obtain ⟨value, chosen⟩ := RandomSource.exists_choose_eq begins drawable.initial
  obtain ⟨attemptsLeft, limit⟩ := Nat.exists_eq_succ_of_ne_zero (Nat.ne_of_gt tried)
  refine ⟨value :: values, ?_⟩
  have room : DistinctWords.empty.size < options.count := wanted
  rw [sample, limit, sampleFrom, if_pos room, chosen]
  exact (toList_isPrefix_sampleFrom attemptsLeft _).subset member

/-! ## Words of the language -/

/-- A word of the language can be sampled, unless it is a single terminal from which a walk goes
on. -/
theorem exists_mem_sample_of_accepts (wellFormed : c.WellFormed) (accepts : c.Accepts word)
    (long : word.length ≤ options.maxLength) (many : word.length ≤ options.count)
    (quiet : options.noisePercent = 0) (tried : 1 ≤ options.attemptLimit)
    (stops : 1 < word.length ∨ options.maxLength = 1 ∨
      ∀ char ∈ word, (ofNormalForm c).successorsOf char = []) :
    ∃ values, word ∈ ((ofNormalForm c).sample options (Script.mk values)).words.toList := by
  have covers := covers_ofNormalForm wellFormed
  have drawable := drawable_ofNormalForm c
  cases word with
  | nil => exact absurd rfl accepts.ne_nil
  | cons first rest =>
    have begins : first ∈ (ofNormalForm c).initial := covers.initial _ accepts first rfl
    rw [List.length_cons] at long many
    apply exists_mem_sample drawable begins (by omega) tried
    cases rest with
    | nil =>
      have wanted : DistinctWords.empty.size < options.count := many
      refine ⟨[], mem_walk_of_stuck quiet ?_ wanted _⟩
      rcases stops with longer | cut | deadEnd
      · exact absurd longer (Nat.lt_irrefl _)
      · exact .inl (by omega)
      · exact .inr (deadEnd first List.mem_cons_self)
    | cons second others =>
      obtain ⟨last, ends⟩ : ∃ last, (second :: others).getLast? = some last :=
        ⟨_, List.getLast?_eq_some_getLast (List.cons_ne_nil second others)⟩
      have final : last ∈ (ofNormalForm c).finals :=
        covers.finals _ accepts last (by rw [List.getLast?_cons_cons, ends])
      have left : [first].length + (options.maxLength - 1) = options.longest := by
        rw [List.length_singleton, WalkOptions.longest]
        omega
      refine exists_mem_walk quiet drawable (.start begins) left ends final
        (covers.successors _ accepts) (by omega) ?_
      show 0 + (second :: others).length ≤ options.count
      omega

/-- A walk that can go on does not collect the terminal that it has begun with. -/
theorem notMem_sample_singleton {σ : Type} [RandomSource σ] {char : Char}
    (quiet : options.noisePercent = 0) (room : 1 < options.maxLength)
    (goesOn : adjacency.successorsOf char ≠ []) (source : σ) :
    [char] ∉ (adjacency.sample options source).words.toList := by
  intro member
  obtain ⟨last, traced, -, ends⟩ := exists_collected_of_mem_sample member
  cases traced.getLast?
  rcases ends with full | ⟨stepped, -⟩ | deadEnd
  · rw [List.length_singleton, WalkOptions.longest] at full
    omega
  · exact absurd stepped (Nat.lt_irrefl _)
  · exact goesOn (deadEnd quiet)

/-- With enough room and without noise, the words of the language that can be sampled are those of
two terminals or more, and single terminals where a walk is cut off or cannot go on. -/
theorem sample_reaches_accepted_words {start : String} {rules : RuleTable (List Alternative)}
    {g : Grammar} (accepted : Grammar.ofRules start rules = .ok g)
    (recognised : (Recognizer.ofNormalForm g.normalize).recognise word = true)
    (long : word.length ≤ options.maxLength) (many : word.length ≤ options.count)
    (quiet : options.noisePercent = 0) (tried : 1 ≤ options.attemptLimit) :
    (∃ values,
      word ∈ ((ofNormalForm g.normalize).sample options (Script.mk values)).words.toList) ↔
      (1 < word.length ∨ options.maxLength = 1 ∨
        ∀ char ∈ word, (ofNormalForm g.normalize).successorsOf char = []) := by
  have wellFormed : g.normalize.WellFormed :=
    (Grammar.wellFormed_of_ofRules accepted).wellFormed_convert _
  have accepts := (Recognizer.recognise_eq_true_iff g.normalize word).mp recognised
  refine ⟨fun ⟨values, member⟩ => ?_,
    exists_mem_sample_of_accepts wellFormed accepts long many quiet tried⟩
  cases word with
  | nil => exact absurd rfl accepts.ne_nil
  | cons char rest =>
    cases rest with
    | cons second others => exact .inl (by simp)
    | nil =>
      refine .inr ?_
      by_cases cut : options.maxLength = 1
      · exact .inl cut
      · refine .inr fun other occurs => ?_
        rw [List.mem_singleton.mp occurs]
        by_contra goesOn
        rw [List.length_singleton] at long
        exact notMem_sample_singleton quiet (by omega) goesOn _ member

/-- On the way to `acbc` the walk collects `ac`. A single `c` needs a walk that is cut off. -/
theorem sample_reaches_accepted_words_overgrown :
    Grammar.ofRules overgrown.start overgrown.rules = .ok overgrown ∧
      (Recognizer.ofNormalForm overgrown.normalize).recognise ['a', 'c', 'b', 'c'] = true ∧
      (∃ values, ['a', 'c', 'b', 'c'] ∈ ((ofNormalForm overgrown.normalize).sample
        { count := 4, noisePercent := 0, attemptLimit := 1 } (Script.mk values)).words.toList) ∧
      (Recognizer.ofNormalForm overgrown.normalize).recognise ['c'] = true ∧
      ∃ values, ['c'] ∈ ((ofNormalForm overgrown.normalize).sample
        { count := 1, maxLength := 1, noisePercent := 0 } (Script.mk values)).words.toList := by
  have accepted : Grammar.ofRules overgrown.start overgrown.rules = .ok overgrown := by decide
  have longer :
      (Recognizer.ofNormalForm overgrown.normalize).recognise ['a', 'c', 'b', 'c'] = true := by
    decide +kernel
  have single : (Recognizer.ofNormalForm overgrown.normalize).recognise ['c'] = true := by
    decide +kernel
  refine ⟨accepted, longer, ?_, single, ?_⟩
  · exact (sample_reaches_accepted_words accepted longer (by decide) (by decide) rfl
      (by decide)).mpr (.inl (by decide))
  · exact (sample_reaches_accepted_words accepted single (by decide) (by decide) rfl
      (by decide)).mpr (.inr (.inl rfl))

/-- An `a`, and a `b` behind it if one likes. -/
def trailing : Grammar :=
  ⟨"S", ⟨[("S", [[.terminal 'a'], [.terminal 'a', .terminal 'b']])], by decide⟩⟩

/-- A walk that has begun with `a` goes on to `b`, so that `a` is not sampled for any values,
though it is a word of the language. -/
theorem sample_misses_single_terminal :
    Grammar.ofRules trailing.start trailing.rules = .ok trailing ∧
      trailing.Generates trailing.start ∧
      (Recognizer.ofNormalForm trailing.normalize).recognise ['a'] = true ∧
      ¬ ∃ values, ['a'] ∈ ((ofNormalForm trailing.normalize).sample
        { count := 10, maxLength := 20, noisePercent := 0, attemptLimit := 1000 }
        (Script.mk values)).words.toList := by
  refine ⟨by decide, by decide, by decide +kernel, ?_⟩
  rintro ⟨values, member⟩
  have goesOn : (ofNormalForm trailing.normalize).successorsOf 'a' = ['b'] := by decide +kernel
  refine notMem_sample_singleton rfl (by decide) ?_ _ member
  rw [goesOn]
  exact List.cons_ne_nil _ _

end Adjacency

end ContextFree
