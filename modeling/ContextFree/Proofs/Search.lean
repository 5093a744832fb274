import ContextFree.Proofs.Form

/-!
# Words in order of length

A search looks at forms in the order of their ranks: the ranks in the queue ascend and differ by
one at most, since the expansions of the first form are queued behind all others. A form that
leads to a word does not outrank it, so that nothing shorter than a word found is still to come
(`Enumerates`). No word is lost on the way, since every word of the language has been found or is
led to by a form in the queue.
-/

namespace ContextFree

/-- No random candidates are collected. -/
def SearchOptions.Quiet (options : SearchOptions) : Prop :=
  options.alwaysPositive = true ∨ options.wordLength = none

namespace Search

variable {σ : Type} [RandomSource σ] {c : NormalForm} {alphabet : List Char}
variable {options : SearchOptions} {search : Search σ} {form : Form} {name : String}

/-! ## One look at a form -/

theorem queue_follow (search : Search σ) (form : Form) :
    (search.follow alphabet options form).queue =
      if options.outgrown form then search.queue else search.queue.push form := by
  unfold follow
  by_cases outgrown : options.outgrown form = true
  · simp only [outgrown, if_true]
    split
    · split <;> rfl
    · rfl
  · simp only [outgrown, Bool.false_eq_true, if_false]

theorem toList_queue_follow (search : Search σ) (form : Form) :
    (search.follow alphabet options form).queue.toList =
      search.queue.toList ++ if options.outgrown form then [] else [form] := by
  rw [queue_follow]
  by_cases outgrown : options.outgrown form = true <;> simp [outgrown]

/-- The words stay as they are, unless the form has outgrown the length and is filled up where
another word is wanted. -/
theorem words_follow_cases (alphabet : List Char) (options : SearchOptions) (search : Search σ)
    (form : Form) :
    (search.follow alphabet options form).words = search.words ∨
      ∃ word, options.outgrown form = true ∧ options.alwaysPositive = false ∧
        search.words.size < options.count ∧
        (fill alphabet form.symbols search.source).1 = some word ∧
        (search.follow alphabet options form).words = search.words.add word := by
  unfold follow
  split
  · next outgrown =>
    split
    · next room =>
      rw [Bool.and_eq_true, Bool.not_eq_true', decide_eq_true_iff] at room
      split
      · next word after filled =>
        exact .inr ⟨word, outgrown, room.1, room.2, congrArg Prod.fst filled, rfl⟩
      · exact .inl rfl
    · exact .inl rfl
  · exact .inl rfl

/-- The forms that have not outgrown the length are queued in order. -/
theorem toList_queue_foldl_follow (search : Search σ) (forms : List Form) :
    (forms.foldl (follow alphabet options) search).queue.toList =
      search.queue.toList ++ forms.filter (!options.outgrown ·) := by
  induction forms generalizing search with
  | nil => simp
  | cons form rest ih =>
    rw [List.foldl_cons, ih, toList_queue_follow, List.append_assoc, List.filter_cons]
    by_cases outgrown : options.outgrown form = true <;> simp [outgrown]

theorem words_follow_of_quiet (quiet : options.Quiet) (search : Search σ) (form : Form) :
    (search.follow alphabet options form).words = search.words := by
  rcases words_follow_cases alphabet options search form with
    same | ⟨word, outgrown, mixed, -, -, -⟩
  · exact same
  · rcases quiet with positive | unbounded
    · rw [positive] at mixed
      cases mixed
    · simp [SearchOptions.outgrown, unbounded] at outgrown

theorem words_foldl_follow_of_quiet (quiet : options.Quiet) (search : Search σ)
    (forms : List Form) : (forms.foldl (follow alphabet options) search).words = search.words := by
  induction forms generalizing search with
  | nil => rfl
  | cons form rest ih => rw [List.foldl_cons, ih, words_follow_of_quiet quiet]

theorem visit_of_isWord (finished : form.isWord = true) :
    search.visit c alphabet options form =
      if options.fits form then { search with words := search.words.add form.word }
      else search := by
  rw [visit, if_pos finished]

theorem visit_of_leftmost? (unfinished : form.isWord = false)
    (found : form.leftmost? = some name) :
    search.visit c alphabet options form =
      ((c.productions name).map form.expand).foldl (follow alphabet options) search := by
  simp [visit, unfinished, found, List.foldl_map]

/-- A look at a form does nothing, collects its word, or follows its expansions. -/
theorem visit_cases (search : Search σ) (form : Form) :
    search.visit c alphabet options form = search ∨
      search.visit c alphabet options form =
        { search with words := search.words.add form.word } ∨
      ∃ name, form.leftmost? = some name ∧ search.visit c alphabet options form =
        ((c.productions name).map form.expand).foldl (follow alphabet options) search := by
  by_cases finished : form.isWord = true
  · rw [visit_of_isWord finished]
    by_cases fits : options.fits form = true
    · rw [if_pos fits]
      exact .inr (.inl rfl)
    · rw [if_neg fits]
      exact .inl rfl
  · have unfinished := Bool.eq_false_iff.mpr finished
    cases found : form.leftmost? with
    | none => simp [visit, unfinished, found]
    | some name => exact .inr (.inr ⟨name, rfl, visit_of_leftmost? unfinished found⟩)

/-- What is in the queue after a look at a form was there before, or it is an expansion. -/
theorem mem_queue_visit {other : Form}
    (member : other ∈ (search.visit c alphabet options form).queue.toList) :
    other ∈ search.queue.toList ∨ ∃ name, form.leftmost? = some name ∧
      ∃ production ∈ c.productions name, other = form.expand production := by
  rcases visit_cases search form with idle | collected | ⟨name, found, followed⟩
  · rw [idle] at member
    exact .inl member
  · rw [collected] at member
    exact .inl member
  · rw [followed, toList_queue_foldl_follow] at member
    refine (List.mem_append.mp member).imp id fun new => ⟨name, found, ?_⟩
    obtain ⟨production, listed, rfl⟩ := List.mem_map.mp (List.mem_filter.mp new).1
    exact ⟨production, listed, rfl⟩

/-- A form that is in the queue after a look at another one was there before, or it has not
outgrown the length. -/
theorem outgrown_of_mem_queue_visit {other : Form}
    (member : other ∈ (search.visit c alphabet options form).queue.toList) :
    other ∈ search.queue.toList ∨ options.outgrown other = false := by
  rcases visit_cases search form with idle | collected | ⟨name, -, followed⟩
  · rw [idle] at member
    exact .inl member
  · rw [collected] at member
    exact .inl member
  · rw [followed, toList_queue_foldl_follow] at member
    refine (List.mem_append.mp member).imp id fun new => ?_
    simpa using (List.mem_filter.mp new).2

/-- What every look at a form keeps, while more words are wanted, is kept by a run. -/
theorem run_induction_of_wanted {motive : Search σ → Prop}
    (step : ∀ (search : Search σ) (form : Form) (queue : Queue Form), motive search →
      search.words.size < options.count → search.queue.pop? = some (form, queue) →
      motive (visit c alphabet options { search with queue, steps := search.steps + 1 } form))
    (stepsLeft : Nat) (start : motive search) :
    motive (run c alphabet options stepsLeft search) := by
  induction stepsLeft generalizing search with
  | zero => exact start
  | succ stepsLeft ih =>
    rw [run]
    by_cases wanted : search.words.size < options.count
    · rw [if_pos wanted]
      cases popped : search.queue.pop? with
      | none => exact start
      | some first =>
        obtain ⟨form, queue⟩ := first
        exact ih (step search form queue start wanted popped)
    · rw [if_neg wanted]
      exact start

/-- What every look at a form keeps is kept by a run. -/
theorem run_induction {motive : Search σ → Prop}
    (step : ∀ (search : Search σ) (form : Form) (queue : Queue Form), motive search →
      search.queue.pop? = some (form, queue) →
      motive (visit c alphabet options { search with queue, steps := search.steps + 1 } form))
    (stepsLeft : Nat) (start : motive search) :
    motive (run c alphabet options stepsLeft search) :=
  run_induction_of_wanted (fun search form queue kept _ popped =>
    step search form queue kept popped) stepsLeft start

/-- The same for what is known of the words and the queue, where the form that is looked at has
been the first in the queue. -/
theorem run_induction_of_parts {motive : DistinctWords → List Form → Prop}
    (step : ∀ (search : Search σ) (form : Form),
      motive search.words (form :: search.queue.toList) →
      motive (search.visit c alphabet options form).words
        (search.visit c alphabet options form).queue.toList)
    (stepsLeft : Nat) (start : motive search.words search.queue.toList) :
    motive (run c alphabet options stepsLeft search).words
      (run c alphabet options stepsLeft search).queue.toList := by
  refine run_induction (motive := fun search => motive search.words search.queue.toList) ?_
    stepsLeft start
  intro search form queue kept popped
  apply step
  rw [← Queue.toList_of_pop? popped]
  exact kept

/-- The forms that a look at a form leaves in the queue have two parts, as the form has. -/
theorem leftmost_visit (leftmost : ∀ other ∈ form :: search.queue.toList, other.Leftmost) :
    ∀ other ∈ (search.visit c alphabet options form).queue.toList, other.Leftmost := by
  intro other member
  rcases mem_queue_visit member with old | ⟨name, found, production, -, rfl⟩
  · exact leftmost other (List.mem_cons_of_mem _ old)
  · exact (leftmost form List.mem_cons_self).expand found production

/-- If the form leads to words of the language only, so do the forms that a look at it leaves in
the queue. -/
theorem leads_visit
    (leads : ∀ other ∈ form :: search.queue.toList, ∀ word, other.Leads c word →
      c.Accepts word) :
    ∀ other ∈ (search.visit c alphabet options form).queue.toList, ∀ word, other.Leads c word →
      c.Accepts word := by
  intro other member word leadsOther
  rcases mem_queue_visit member with old | ⟨name, found, production, listed, rfl⟩
  · exact leads other (List.mem_cons_of_mem _ old) word leadsOther
  · apply leads form List.mem_cons_self
    exact (Form.leads_iff_expand found).mpr ⟨production, listed, leadsOther⟩

/-! ## Words are added at the end -/

theorem toList_isPrefix_follow (search : Search σ) (form : Form) :
    search.words.toList <+: (search.follow alphabet options form).words.toList := by
  rcases words_follow_cases alphabet options search form with same | ⟨word, -, -, -, -, added⟩
  · simp [same]
  · rw [added]
    exact search.words.toList_isPrefix_add word

theorem toList_isPrefix_foldl_follow (search : Search σ) (forms : List Form) :
    search.words.toList <+: (forms.foldl (follow alphabet options) search).words.toList := by
  induction forms generalizing search with
  | nil => exact List.prefix_rfl
  | cons form rest ih => exact (toList_isPrefix_follow search form).trans (ih _)

theorem toList_isPrefix_visit (search : Search σ) (form : Form) :
    search.words.toList <+: (search.visit c alphabet options form).words.toList := by
  rcases visit_cases search form with idle | collected | ⟨name, -, followed⟩
  · exact ⟨[], by rw [idle, List.append_nil]⟩
  · rw [collected]
    exact search.words.toList_isPrefix_add form.word
  · rw [followed]
    exact toList_isPrefix_foldl_follow search _

theorem toList_isPrefix_run (stepsLeft : Nat) (search : Search σ) :
    search.words.toList <+: (run c alphabet options stepsLeft search).words.toList :=
  run_induction (motive := fun after => search.words.toList <+: after.words.toList)
    (fun after form queue before _ => before.trans
      (toList_isPrefix_visit { after with queue, steps := after.steps + 1 } form))
    stepsLeft List.prefix_rfl

/-! ## Only words of the language -/

/-- The forms in the queue lead to words of the language only, and only such words have been
found. -/
structure Sound (c : NormalForm) (words : DistinctWords) (queue : List Form) : Prop where
  leftmost : ∀ form ∈ queue, form.Leftmost
  leads : ∀ form ∈ queue, ∀ word, form.Leads c word → c.Accepts word
  accepts : ∀ word ∈ words.toList, c.Accepts word

theorem Sound.visit (quiet : options.Quiet)
    (sound : Sound c search.words (form :: search.queue.toList)) :
    Sound c (search.visit c alphabet options form).words
      (search.visit c alphabet options form).queue.toList where
  leftmost := leftmost_visit sound.leftmost
  leads := leads_visit sound.leads
  accepts word collected := by
    rcases (sound.leftmost form List.mem_cons_self).cases with
      ⟨finished, spelled⟩ | ⟨unfinished, name, found⟩
    · rw [visit_of_isWord finished] at collected
      by_cases fits : options.fits form = true
      · rw [if_pos fits] at collected
        rcases DistinctWords.mem_toList_add.mp collected with known | rfl
        · exact sound.accepts word known
        · apply sound.leads form List.mem_cons_self
          rw [spelled, Form.leads_ofParts_nil_iff, Form.word_ofParts]
      · rw [if_neg fits] at collected
        exact sound.accepts word collected
    · rw [visit_of_leftmost? unfinished found, words_foldl_follow_of_quiet quiet] at collected
      exact sound.accepts word collected

/-! ## All of them, by length -/

/-- The queue is in order and leads to all words of the language that have not been found, and
the words found are no longer than those. -/
structure Enumerates (c : NormalForm) (words : DistinctWords) (queue : List Form) : Prop
    extends Sound c words queue where
  ascending : queue.Pairwise fun first second => first.rank ≤ second.rank
  close : ∀ first ∈ queue, ∀ second ∈ queue, second.rank ≤ first.rank + 1
  sorted : words.toList.Pairwise fun first second => first.length ≤ second.length
  ahead : ∀ word ∈ words.toList, ∀ form ∈ queue, 2 * word.length ≤ form.rank
  covered : ∀ word, c.Accepts word → word ∈ words.toList ∨ ∃ form ∈ queue, form.Leads c word

theorem enumerates_start (c : NormalForm) : Enumerates c .empty [Form.initial c] where
  leftmost form member := List.mem_singleton.mp member ▸ Form.leftmost_initial c
  leads form member word leads := by
    rw [List.mem_singleton.mp member, Form.leads_initial_iff] at leads
    exact leads
  accepts word found := by simp at found
  ascending := List.pairwise_singleton _ _
  close first inQueue second inQueueToo := by
    rw [List.mem_singleton.mp inQueue, List.mem_singleton.mp inQueueToo]
    omega
  sorted := List.Pairwise.nil
  ahead word found := by simp at found
  covered word accepts :=
    .inr ⟨_, List.mem_singleton.mpr rfl, Form.leads_initial_iff.mpr accepts⟩

theorem Enumerates.rank_head_le {words : DistinctWords} {queue : List Form}
    (enumerates : Enumerates c words (form :: queue)) : ∀ other ∈ queue, form.rank ≤ other.rank :=
  (List.pairwise_cons.mp enumerates.ascending).1

/-- A form without nonterminals is collected as a word. It is no shorter than the words before
it, and no form left in the queue has a smaller rank. -/
theorem Enumerates.collect {words : DistinctWords} {queue : List Form}
    (enumerates : Enumerates c words (form :: queue)) (spelled : form = .ofParts form.word [])
    (sound : Sound c (words.add form.word) queue) :
    Enumerates c (words.add form.word) queue where
  toSound := sound
  ascending := (List.pairwise_cons.mp enumerates.ascending).2
  close first inQueue second inQueueToo :=
    enumerates.close first (List.mem_cons_of_mem _ inQueue) second
      (List.mem_cons_of_mem _ inQueueToo)
  sorted := by
    rw [DistinctWords.toList_add]
    by_cases known : form.word ∈ words.toList
    · rw [if_pos known]
      exact enumerates.sorted
    · rw [if_neg known, List.pairwise_append]
      refine ⟨enumerates.sorted, List.pairwise_singleton _ _, fun word before last equal => ?_⟩
      have bound := enumerates.ahead word before form List.mem_cons_self
      rw [spelled, Form.rank_ofParts, List.length_nil] at bound
      rw [List.mem_singleton.mp equal]
      omega
  ahead word collected other inQueue := by
    rcases DistinctWords.mem_toList_add.mp collected with known | rfl
    · exact enumerates.ahead word known other (List.mem_cons_of_mem _ inQueue)
    · have bound := enumerates.rank_head_le other inQueue
      rw [spelled, Form.rank_ofParts, List.length_nil] at bound
      exact bound
  covered word accepts := by
    rw [DistinctWords.mem_toList_add]
    rcases enumerates.covered word accepts with known | ⟨other, inQueue, leads⟩
    · exact .inl (.inl known)
    · rcases List.mem_cons.mp inQueue with rfl | inQueue
      · rw [spelled, Form.leads_ofParts_nil_iff] at leads
        exact .inl (.inr leads)
      · exact .inr ⟨other, inQueue, leads⟩

/-- Any other form gives way to its expansions at the end of the queue. Their rank is one more
than that of the form, and no rank in the queue is larger. -/
theorem Enumerates.expand {words : DistinctWords} {queue : List Form}
    (enumerates : Enumerates c words (form :: queue)) (found : form.leftmost? = some name)
    (sound : Sound c words (queue ++ (c.productions name).map form.expand)) :
    Enumerates c words (queue ++ (c.productions name).map form.expand) := by
  have rankOfNew : ∀ other ∈ (c.productions name).map form.expand,
      other.rank = form.rank + 1 := by
    intro other new
    obtain ⟨production, -, rfl⟩ := List.mem_map.mp new
    exact (enumerates.leftmost form List.mem_cons_self).rank_expand found production
  have rankOfOld : ∀ other ∈ queue, other.rank ≤ form.rank + 1 := fun other old =>
    enumerates.close form List.mem_cons_self other (List.mem_cons_of_mem _ old)
  have ascending := (List.pairwise_cons.mp enumerates.ascending).2
  have bounds : ∀ other ∈ queue ++ (c.productions name).map form.expand,
      form.rank ≤ other.rank ∧ other.rank ≤ form.rank + 1 := by
    intro other member
    rcases List.mem_append.mp member with old | new
    · exact ⟨enumerates.rank_head_le other old, rankOfOld other old⟩
    · have rank := rankOfNew other new
      omega
  refine ⟨sound, ?_, ?_, enumerates.sorted, ?_, ?_⟩
  · rw [List.pairwise_append]
    refine ⟨ascending, ?_, ?_⟩
    · refine List.pairwise_of_forall_mem_list fun first inFirst second inSecond => ?_
      exact Nat.le_of_eq ((rankOfNew first inFirst).trans (rankOfNew second inSecond).symm)
    · intro first old second new
      rw [rankOfNew second new]
      exact rankOfOld first old
  · intro first inQueue second inQueueToo
    have lower := (bounds first inQueue).1
    have upper := (bounds second inQueueToo).2
    omega
  · intro word known other member
    have before := enumerates.ahead word known form List.mem_cons_self
    exact Nat.le_trans before (bounds other member).1
  · intro word accepts
    refine (enumerates.covered word accepts).imp id ?_
    rintro ⟨other, inQueue, leads⟩
    rcases List.mem_cons.mp inQueue with rfl | old
    · obtain ⟨production, listed, leads⟩ := (Form.leads_iff_expand found).mp leads
      exact ⟨_, List.mem_append_right _ (List.mem_map.mpr ⟨production, listed, rfl⟩), leads⟩
    · exact ⟨other, List.mem_append_left _ old, leads⟩

theorem Enumerates.visit (unbounded : options.wordLength = none)
    (enumerates : Enumerates c search.words (form :: search.queue.toList)) :
    Enumerates c (search.visit c alphabet options form).words
      (search.visit c alphabet options form).queue.toList := by
  have sound : Sound c (search.visit c alphabet options form).words
      (search.visit c alphabet options form).queue.toList :=
    enumerates.toSound.visit (.inr unbounded)
  have fits : options.fits form = true := by simp [SearchOptions.fits, unbounded]
  have within : ∀ other, options.outgrown other = false := by
    intro other
    simp [SearchOptions.outgrown, unbounded]
  rcases (enumerates.leftmost form List.mem_cons_self).cases with
    ⟨finished, spelled⟩ | ⟨unfinished, name, found⟩
  · rw [visit_of_isWord finished, if_pos fits] at sound ⊢
    exact enumerates.collect spelled sound
  · rw [visit_of_leftmost? unfinished found, words_foldl_follow_of_quiet (.inr unbounded),
      toList_queue_foldl_follow, List.filter_eq_self.mpr (by simp [within])] at sound ⊢
    exact enumerates.expand found sound

theorem enumerates_search (c : NormalForm) (unbounded : options.wordLength = none) (source : σ) :
    Enumerates c (c.search options source).words (c.search options source).queue.toList :=
  run_induction_of_parts (fun _ _ enumerates => enumerates.visit unbounded) options.stepLimit
    (enumerates_start c)

end Search

namespace NormalForm

variable {σ : Type} [RandomSource σ]

/-- A search without a wanted length finds distinct words of the language, shorter ones first,
and leaves out none that is shorter than one that it finds. -/
theorem search_enumerates_by_length (c : NormalForm) (options : SearchOptions)
    (unbounded : options.wordLength = none) (source : σ) {words : List Word}
    (found : (c.search options source).words.toList = words) :
    words.Nodup ∧ words.Pairwise (fun first second => first.length ≤ second.length) ∧
      (∀ word ∈ words, c.Accepts word) ∧
      ∀ word ∈ words, ∀ shorter, c.Accepts shorter → shorter.length < word.length →
        shorter ∈ words := by
  have enumerates := Search.enumerates_search c unbounded source
  subst found
  refine ⟨DistinctWords.nodup_toList _, enumerates.sorted, enumerates.accepts, ?_⟩
  intro word known shorter accepts less
  rcases enumerates.covered shorter accepts with known | ⟨form, inQueue, leads⟩
  · exact known
  · have ahead := enumerates.ahead word known form inQueue
    have bound := (enumerates.leftmost form inQueue).rank_le_of_leads leads
    omega

/-- All words of `a` and `b` but the empty one, the longer of them in several ways. -/
def anyWord : NormalForm :=
  ⟨"S", ⟨[("S", [.pair "S" "S", .terminal 'a', .terminal 'b'])], by decide⟩⟩

/-- When `aaa` has been found, `ba` has been found as well. -/
theorem search_enumerates_by_length_anyWord :
    ['a', 'a', 'a'] ∈ (anyWord.search { count := 7 } (Script.mk [])).words.toList ∧
      anyWord.Accepts ['b', 'a'] ∧
      ['b', 'a'] ∈ (anyWord.search { count := 7 } (Script.mk [])).words.toList := by
  have found : ['a', 'a', 'a'] ∈
      (anyWord.search { count := 7 } (Script.mk [])).words.toList := by decide +kernel
  have accepts : anyWord.Accepts (['b'] ++ ['a']) :=
    .pair (show .pair "S" "S" ∈ anyWord.productions "S" by decide) (.terminal (by decide))
      (.terminal (by decide))
  obtain ⟨-, -, -, complete⟩ :=
    search_enumerates_by_length anyWord { count := 7 } rfl (Script.mk []) rfl
  exact ⟨found, accepts, complete _ found _ accepts (by decide)⟩

end NormalForm

end ContextFree
