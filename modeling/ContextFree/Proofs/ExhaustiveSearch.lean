import ContextFree.Proofs.PositiveSearch
import Mathlib.Data.Set.Card
import Mathlib.Data.Set.Finite.List

/-!
# Searches for all words of a length

A search for the words of one length that makes no candidates up comes to an end by itself, however
many other words the language has, and finds all of them.

It ends because a form within the length has a rank of at most twice the length, and an expansion
has one more than the form. So no derivation is followed for longer than that, and the forms that
are looked at make up a tree whose size is known beforehand. The burden of a queue is the number of
forms that may come of it. Every step takes one off.

It is complete because no nonterminal derives the empty word: a form that leads to a word is no
longer than the word, and is not dropped.
-/

namespace ContextFree

/-- The number of nodes in a tree of the given height, whose inner nodes have `branching`
children. -/
def treeSize (branching : Nat) : (height : Nat) → Nat
  | 0 => 1
  | height + 1 => 1 + branching * treeSize branching height

theorem treeSize_pos (branching height : Nat) : 0 < treeSize branching height := by
  cases height with
  | zero => exact Nat.one_pos
  | succ height => exact Nat.add_pos_left Nat.one_pos _

theorem NormalForm.length_productions_le (c : NormalForm) (name : String) :
    (c.productions name).length ≤ c.productionCount := by
  rw [productions, productionCount]
  cases found : c.rules.get? name with
  | none => exact Nat.zero_le _
  | some productions =>
    have listed : productions ∈ c.rules.values :=
      List.mem_map.mpr ⟨_, RuleTable.get?_eq_some_iff.mp found, rfl⟩
    exact (List.sublist_flatten_of_mem listed).length_le

namespace Search

variable {σ : Type} [RandomSource σ] {c : NormalForm} {alphabet : List Char}
variable {options : SearchOptions} {search : Search σ} {form other : Form} {name : String}
variable {length : Nat}

/-! ## The end of a run -/

theorem steps_follow (search : Search σ) (form : Form) :
    (search.follow alphabet options form).steps = search.steps := by
  unfold follow
  split
  · split
    · split <;> rfl
    · rfl
  · rfl

theorem steps_visit (search : Search σ) (form : Form) :
    (search.visit c alphabet options form).steps = search.steps := by
  rcases visit_cases search form with idle | collected | ⟨name, -, followed⟩
  · rw [idle]
  · rw [collected]
  · rw [followed]
    exact List.foldlRecOn (motive := fun after : Search σ => after.steps = search.steps) _ _ rfl
      fun after same form _ => (steps_follow after form).trans same

/-- A run takes all of its steps, or it ends with an empty queue or with enough words. -/
theorem run_end (c : NormalForm) (alphabet : List Char) (options : SearchOptions)
    (stepsLeft : Nat) (search : Search σ) :
    (run c alphabet options stepsLeft search).steps = search.steps + stepsLeft ∨
      (run c alphabet options stepsLeft search).queue.toList = [] ∨
      options.count ≤ (run c alphabet options stepsLeft search).words.size := by
  induction stepsLeft generalizing search with
  | zero => exact .inl rfl
  | succ stepsLeft ih =>
    rw [run]
    by_cases wanted : search.words.size < options.count
    · rw [if_pos wanted]
      cases popped : search.queue.pop? with
      | none => exact .inr (.inl (Queue.pop?_eq_none_iff.mp popped))
      | some first =>
        obtain ⟨form, queue⟩ := first
        refine (ih _).imp (fun steps => ?_) id
        rw [steps, steps_visit, Nat.add_assoc, Nat.add_comm 1]
    · rw [if_neg wanted]
      exact .inr (.inr (Nat.le_of_not_lt wanted))

/-! ## The burden of a queue -/

/-- The number of forms that may come of a queue, itself included, when a form has at most
`branching` expansions and none may be longer than `length`. -/
def burden (branching length : Nat) (queue : List Form) : Nat :=
  (queue.map fun form => treeSize branching (2 * length - form.rank)).sum

theorem burden_append (branching length : Nat) (queue others : List Form) :
    burden branching length (queue ++ others) =
      burden branching length queue + burden branching length others := by
  rw [burden, List.map_append, List.sum_append]
  rfl

theorem burden_cons (branching length : Nat) (form : Form) (queue : List Form) :
    burden branching length (form :: queue) =
      treeSize branching (2 * length - form.rank) + burden branching length queue :=
  List.sum_cons

/-- Forms of one rank weigh the same. -/
theorem burden_eq_of_rank (branching : Nat) {length height : Nat} {queue : List Form}
    (level : ∀ form ∈ queue, 2 * length - form.rank = height) :
    burden branching length queue = queue.length * treeSize branching height := by
  induction queue with
  | nil => exact (Nat.zero_mul _).symm
  | cons form rest ih =>
    obtain ⟨first, others⟩ := List.forall_mem_cons.mp level
    rw [burden_cons, first, ih others, List.length_cons, Nat.succ_mul, Nat.add_comm]

theorem rank_of_mem_successors (fixed : options.wordLength = some length)
    (leftmost : form.Leftmost) (found : form.leftmost? = some name)
    (member : other ∈ successors c options form name) :
    other.rank = form.rank + 1 ∧ other.rank ≤ 2 * length := by
  obtain ⟨⟨production, -, rfl⟩, within⟩ := mem_successors_iff.mp member
  have bound : (form.expand production).symbols.length ≤ length := by
    apply Nat.le_of_not_lt
    intro outgrown
    rw [(SearchOptions.outgrown_iff_lt fixed).mpr outgrown] at within
    cases within
  refine ⟨leftmost.rank_expand found production, ?_⟩
  obtain ⟨done, pending, parts⟩ := leftmost.expand found production
  rw [parts, Form.length_symbols_ofParts] at bound
  rw [parts, Form.rank_ofParts]
  omega

/-- The successors of a form weigh less than the form. -/
theorem burden_successors_lt (fixed : options.wordLength = some length)
    (leftmost : form.Leftmost) (found : form.leftmost? = some name) :
    burden c.productionCount length (successors c options form name) <
      treeSize c.productionCount (2 * length - form.rank) := by
  cases left : 2 * length - form.rank with
  | zero =>
    have none : successors c options form name = [] := by
      refine List.eq_nil_iff_forall_not_mem.mpr fun other member => ?_
      obtain ⟨rank, bound⟩ := rank_of_mem_successors fixed leftmost found member
      omega
    rw [none]
    exact Nat.one_pos
  | succ height =>
    have weights := burden_eq_of_rank c.productionCount fun other member => by
      obtain ⟨rank, -⟩ := rank_of_mem_successors (c := c) fixed leftmost found member
      show 2 * length - other.rank = height
      omega
    have few : (successors c options form name).length ≤ c.productionCount := by
      calc (successors c options form name).length
          ≤ ((c.productions name).map form.expand).length := List.length_filter_le _ _
        _ = (c.productions name).length := List.length_map _
        _ ≤ c.productionCount := c.length_productions_le name
    calc burden c.productionCount length (successors c options form name)
        = (successors c options form name).length * treeSize c.productionCount height := weights
      _ ≤ c.productionCount * treeSize c.productionCount height := Nat.mul_le_mul_right _ few
      _ < 1 + c.productionCount * treeSize c.productionCount height :=
        Nat.lt_add_of_pos_left Nat.one_pos

/-- Every look at a form takes something off the burden. -/
theorem burden_visit_lt (quiet : options.Quiet) (fixed : options.wordLength = some length)
    (leftmost : form.Leftmost) :
    burden c.productionCount length (search.visit c alphabet options form).queue.toList <
      burden c.productionCount length (form :: search.queue.toList) := by
  rw [burden_cons]
  rcases visit_cases_of_quiet quiet leftmost search with ⟨-, -, queue⟩ | ⟨name, found, -, queue⟩
  · have positive := treeSize_pos c.productionCount (2 * length - form.rank)
    rw [queue]
    omega
  · have less := burden_successors_lt (c := c) fixed leftmost found
    rw [queue, burden_append]
    omega

/-! ## No word is lost -/

/-- Every word of the length has been found, or a form in the queue leads to it; the steps so far
and the burden of the queue stay within the size of the tree that is searched. -/
structure Exhausts (c : NormalForm) (options : SearchOptions) (length : Nat)
    (words : DistinctWords) (queue : List Form) (steps : Nat) : Prop
    extends Positive c options words queue where
  covered : ∀ word, c.Accepts word → word.length = length →
    word ∈ words.toList ∨ ∃ form ∈ queue, form.Leads c word
  bounded : steps + burden c.productionCount length queue ≤
    treeSize c.productionCount (2 * length - 1)

theorem exhausts_start (c : NormalForm) (options : SearchOptions) (length : Nat) :
    Exhausts c options length .empty [Form.initial c] 0 where
  toPositive := positive_start c options
  covered word accepts _ := (enumerates_start c).covered word accepts
  bounded := by
    rw [Nat.zero_add]
    exact Nat.le_refl _

theorem mem_successors_of_leads (fixed : options.wordLength = some length)
    (found : form.leftmost? = some name) {word : Word} (leads : form.Leads c word)
    (fits : word.length = length) :
    ∃ other ∈ successors c options form name, other.Leads c word := by
  obtain ⟨production, listed, leads⟩ := (Form.leads_iff_expand found).mp leads
  refine ⟨_, mem_successors_iff.mpr ⟨⟨production, listed, rfl⟩, ?_⟩, leads⟩
  rw [Bool.eq_false_iff]
  intro outgrown
  have longer := (SearchOptions.outgrown_iff_lt fixed).mp outgrown
  have bound := NormalForm.length_le_of_reads leads
  omega

theorem Exhausts.visit {steps : Nat} (quiet : options.Quiet)
    (fixed : options.wordLength = some length)
    (exhausts : Exhausts c options length search.words (form :: search.queue.toList) steps) :
    Exhausts c options length (search.visit c alphabet options form).words
      (search.visit c alphabet options form).queue.toList (steps + 1) where
  toPositive := exhausts.toPositive.visit quiet
  covered word accepts fits := by
    have leftmost := exhausts.leftmost form List.mem_cons_self
    have before := exhausts.covered word accepts fits
    rcases visit_cases_of_quiet quiet leftmost search with
      ⟨spelled, words, queue⟩ | ⟨name, found, words, queue⟩
    · rw [words, queue]
      rcases before with known | ⟨other, member, leads⟩
      · split
        · exact .inl (DistinctWords.mem_toList_add.mpr (.inl known))
        · exact .inl known
      · rcases List.mem_cons.mp member with rfl | member
        · rw [spelled, Form.leads_ofParts_nil_iff] at leads
          have wanted : options.fits other = true := by
            rw [spelled, ← leads, SearchOptions.fits_ofParts_nil_iff]
            intro wanted equal
            rw [fits]
            exact Option.some.inj (fixed.symm.trans equal)
          rw [if_pos wanted]
          exact .inl (DistinctWords.mem_toList_add.mpr (.inr leads))
        · exact .inr ⟨other, member, leads⟩
    · rw [words, queue]
      refine before.imp id ?_
      rintro ⟨other, member, leads⟩
      rcases List.mem_cons.mp member with rfl | member
      · obtain ⟨next, queued, leads⟩ := mem_successors_of_leads fixed found leads fits
        exact ⟨next, List.mem_append_right _ queued, leads⟩
      · exact ⟨other, List.mem_append_left _ member, leads⟩
  bounded := by
    have less : burden c.productionCount length
        (search.visit c alphabet options form).queue.toList <
        burden c.productionCount length (form :: search.queue.toList) :=
      burden_visit_lt quiet fixed (exhausts.leftmost form List.mem_cons_self)
    have before := exhausts.bounded
    omega

theorem exhausts_search (c : NormalForm) (quiet : options.Quiet)
    (fixed : options.wordLength = some length) (source : σ) :
    Exhausts c options length (c.search options source).words
      (c.search options source).queue.toList (c.search options source).steps := by
  refine run_induction (motive := fun search =>
    Exhausts c options length search.words search.queue.toList search.steps) ?_ options.stepLimit
    (exhausts_start c options length)
  intro search form queue exhausts popped
  rw [steps_visit]
  apply Exhausts.visit quiet fixed
  rw [← Queue.toList_of_pop? popped]
  exact exhausts

end Search

/-! ## All words of a length -/

namespace NormalForm

/-- The words of the language that have the given length. -/
def wordsOfLength (c : NormalForm) (length : Nat) : Set Word :=
  {word | c.Accepts word ∧ word.length = length}

theorem finite_wordsOfLength (c : NormalForm) (length : Nat) :
    (c.wordsOfLength length).Finite := by
  have : Finite Char := Finite.of_injective Char.ordinal fun _ _ => Char.ordinal_inj.mp
  exact (List.finite_length_eq Char length).subset fun _ member => member.2

/-- Distinct words of a length are no more than there are. -/
theorem size_le_ncard_wordsOfLength {c : NormalForm} {length : Nat} {words : DistinctWords}
    (inside : ∀ word ∈ words.toList, word ∈ c.wordsOfLength length) :
    words.size ≤ (c.wordsOfLength length).ncard := by
  have included : (words.toList.toFinset : Set Word) ⊆ c.wordsOfLength length := by
    intro word member
    exact inside word (List.mem_toFinset.mp member)
  calc words.size
      = words.toList.length := words.size_eq_length
    _ = words.toList.toFinset.card := (List.toFinset_card_of_nodup words.nodup_toList).symm
    _ = (words.toList.toFinset : Set Word).ncard := (Set.ncard_coe_finset _).symm
    _ ≤ (c.wordsOfLength length).ncard :=
      Set.ncard_le_ncard included (c.finite_wordsOfLength length)

/-- There are finitely many words of a length, and with enough steps and room for more words than
these a search runs out of forms before it runs out of steps, and has found each of them once. -/
theorem search_exhausts_wordsOfLength (c : NormalForm) (length : Nat) :
    (c.wordsOfLength length).Finite ∧
    ∃ bound, ∀ options : SearchOptions, bound ≤ options.stepLimit →
      (c.wordsOfLength length).ncard < options.count → options.alwaysPositive = true →
      options.wordLength = some length →
      ∀ (σ : Type) [RandomSource σ] (source : σ),
        (c.search options source).queue.toList = [] ∧
        (c.search options source).steps < options.stepLimit ∧
        (c.search options source).words.toList.Nodup ∧
        ∀ word, word ∈ (c.search options source).words.toList ↔
          c.Accepts word ∧ word.length = length := by
  refine ⟨c.finite_wordsOfLength length,
    treeSize c.productionCount (2 * length - 1) + 1, ?_⟩
  intro options enough room positive fixed σ _ source
  have exhausts := Search.exhausts_search c (.inl positive) fixed source
  have inside : ∀ word ∈ (c.search options source).words.toList,
      c.Accepts word ∧ word.length = length := fun word found =>
    ⟨exhausts.accepts word found, exhausts.lengths word found length fixed⟩
  have early : (c.search options source).steps < options.stepLimit := by
    have bounded := exhausts.bounded
    omega
  have empty : (c.search options source).queue.toList = [] := by
    rcases Search.run_end c c.terminals options options.stepLimit
      ⟨.empty, .single (Form.initial c), 0, source⟩ with all | empty | full
    · have last : (c.search options source).steps = 0 + options.stepLimit := all
      omega
    · exact empty
    · have size := size_le_ncard_wordsOfLength inside
      exact absurd (Nat.le_trans full size) (Nat.not_le_of_lt room)
  refine ⟨empty, early, DistinctWords.nodup_toList _, fun word => ⟨inside word, ?_⟩⟩
  rintro ⟨accepts, fits⟩
  rcases exhausts.covered word accepts fits with known | ⟨form, queued, -⟩
  · exact known
  · rw [empty] at queued
    cases queued

/-- Four of the words of `a` and `b` have two letters, and a search for five finds just these. -/
theorem search_exhausts_wordsOfLength_anyWord :
    (anyWord.wordsOfLength 2).ncard < 5 ∧
    ∃ stepLimit, ∀ word,
      word ∈ (anyWord.search { count := 5, wordLength := some 2, alwaysPositive := true, stepLimit }
        (Script.mk [])).words.toList ↔ anyWord.Accepts word ∧ word.length = 2 := by
  have few : (anyWord.wordsOfLength 2).ncard < 5 := by
    have included : anyWord.wordsOfLength 2 ⊆
        ({['a', 'a'], ['a', 'b'], ['b', 'a'], ['b', 'b']} : Finset Word) := by
      rintro word ⟨accepts, size⟩
      obtain ⟨first, second, rfl⟩ := List.length_eq_two.mp size
      have letter : ∀ char ∈ [first, second], char = 'a' ∨ char = 'b' := by
        intro char occurs
        obtain ⟨name, member⟩ := Recognizer.exists_terminal_of_mem accepts occurs
        have known := mem_terminals_iff.mpr ⟨name, member⟩
        have listed : anyWord.terminals = ['a', 'b'] := by decide +kernel
        rw [listed] at known
        simpa using known
      rcases letter first (by simp) with rfl | rfl <;>
        rcases letter second (by simp) with rfl | rfl <;> simp
    have bound := Set.ncard_le_ncard included (Finset.finite_toSet _)
    rw [Set.ncard_coe_finset] at bound
    exact Nat.lt_of_le_of_lt bound (by decide)
  obtain ⟨-, bound, exhausts⟩ := search_exhausts_wordsOfLength anyWord 2
  obtain ⟨-, -, -, complete⟩ :=
    exhausts { count := 5, wordLength := some 2, alwaysPositive := true, stepLimit := bound }
      (Nat.le_refl bound) few rfl rfl Script (Script.mk [])
  exact ⟨few, bound, complete⟩

end NormalForm

end ContextFree
