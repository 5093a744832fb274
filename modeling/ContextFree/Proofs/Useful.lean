import ContextFree.Proofs.Generating
import ContextFree.Proofs.Reach

/-!
# Removing useless symbols

Restricting a grammar to its generating nonterminals, and then to what can be reached from the
start symbol, leaves every nonterminal that stays with the words it derived. In the result each
nonterminal is reached from the start symbol and derives a word (`Trim`).

`prune_of_generates`, `prune_of_not_generates` and `prune_of_empty` say which start symbol the
result has and what is drawn for it.
-/

namespace ContextFree.Grammar

variable {g : Grammar} {name start : String} {word : Word}

/-! ## Reachability -/

/-- Right-hand sides, one after another, lead from one nonterminal to another. -/
def Reaches (g : Grammar) : String → String → Prop :=
  Relation.ReflTransGen fun origin target => target ∈ g.referenced origin

theorem mem_referenced_iff {target : String} :
    target ∈ g.referenced name ↔
      ∃ alternative ∈ g.alternatives name, target ∈ Alternative.names alternative :=
  List.mem_flatMap

theorem WellFormed.mem_reachable_iff (wellFormed : g.WellFormed) {target : String} :
    target ∈ g.reachable start ↔ g.Reaches start target := by
  apply mem_reach_nonterminals_iff
  intro origin target refers
  obtain ⟨alternative, member, occurs⟩ := mem_referenced_iff.mp refers
  exact wellFormed.mem_nonterminals member occurs

/-- The name is reached from the start symbol and derives a word. -/
structure Useful (g : Grammar) (name : String) : Prop where
  reached : g.Reaches g.start name
  generates : g.Generates name

/-- Every nonterminal is useful. -/
def Trim (g : Grammar) : Prop := ∀ name ∈ g.nonterminals, g.Useful name

/-! ## Restriction -/

theorem nonterminals_restrict (g : Grammar) (keep : List String) (start : String) :
    (g.restrict keep start).nonterminals = g.nonterminals.filter keep.contains := by
  rw [nonterminals, restrict, RuleTable.names_mapValues, RuleTable.names_filterNames]
  rfl

/-- A nonterminal that is kept keeps the alternatives that need no others, in order. -/
theorem alternatives_restrict {keep : List String} (kept : name ∈ keep) :
    (g.restrict keep start).alternatives name =
      (g.alternatives name).filter (Alternative.within keep) := by
  rw [Grammar.alternatives, restrict, RuleTable.get?_mapValues, RuleTable.get?_filterNames,
    if_pos (by simpa using kept), Grammar.alternatives]
  cases g.rules.get? name with
  | none => rfl
  | some alternatives => rfl

theorem mem_alternatives_restrict_iff {keep : List String} {alternative : Alternative} :
    alternative ∈ (g.restrict keep start).alternatives name ↔
      name ∈ keep ∧ alternative ∈ g.alternatives name ∧
        ∀ other ∈ Alternative.names alternative, other ∈ keep := by
  by_cases kept : name ∈ keep
  · rw [alternatives_restrict kept, List.mem_filter, Alternative.within_iff, and_iff_right kept]
  · refine iff_of_false (fun member => ?_) fun both => kept both.1
    have defined := mem_nonterminals_of_mem_alternatives member
    rw [nonterminals_restrict, List.mem_filter, List.contains_iff_mem] at defined
    exact kept defined.2

/-- The grammar with its generating nonterminals and nothing that needs others. -/
def generative (g : Grammar) (start : String) : Grammar := g.restrict g.generating start

theorem mem_alternatives_generative_iff {alternative : Alternative} :
    alternative ∈ (g.generative start).alternatives name ↔
      alternative ∈ g.alternatives name ∧
        ∀ other ∈ Alternative.names alternative, g.Generates other := by
  rw [generative, mem_alternatives_restrict_iff]
  simp only [mem_generating_iff]
  constructor
  · rintro ⟨-, kept⟩
    exact kept
  · rintro ⟨member, generate⟩
    exact ⟨generates_iff.mpr ⟨alternative, member, generate⟩, member, generate⟩

theorem mem_nonterminals_generative_iff :
    name ∈ (g.generative start).nonterminals ↔ g.Generates name := by
  rw [generative, nonterminals_restrict, List.mem_filter, List.contains_iff_mem, mem_generating_iff]
  exact and_iff_right_of_imp Generates.mem_nonterminals

theorem WellFormed.generative (wellFormed : g.WellFormed) (generates : g.Generates start) :
    (g.generative start).WellFormed := by
  rw [wellFormed_iff]
  refine ⟨mem_nonterminals_generative_iff.mpr generates, fun name alternative member => ?_⟩
  obtain ⟨listed, generate⟩ := mem_alternatives_generative_iff.mp member
  exact ⟨wellFormed.ne_nil_of_mem listed, fun other occurs =>
    mem_nonterminals_generative_iff.mpr (generate other occurs)⟩

/-- An alternative with a nonterminal that generates nothing is of no use to any word. -/
theorem derives_generative_iff : (g.generative start).Derives name word ↔ g.Derives name word := by
  constructor
  · intro derives
    exact derives.mono fun name alternative member =>
      (mem_alternatives_generative_iff.mp member).1
  · intro derives
    -- That the nonterminals generate something goes along, since it decides which alternatives
    -- are still there.
    refine (derives.of_closed (fun name word => g.Generates name ∧
      (g.generative start).Derives name word) ?_).2
    intro name alternative member word reads
    have generate : ∀ other ∈ Alternative.names alternative, g.Generates other := by
      intro other occurs
      obtain ⟨-, generates, -⟩ := reads.exists_of_mem_names occurs
      exact generates
    refine ⟨generates_iff.mpr ⟨alternative, member, generate⟩, ?_⟩
    refine derives_iff_reads.mpr
      ⟨alternative, mem_alternatives_generative_iff.mpr ⟨member, generate⟩, ?_⟩
    exact reads.imp fun other _ part derives => derives.2

/-! ## The useful part of a grammar -/

/-- The part of the grammar that is generating and can be reached from `start`. -/
def usefulFrom (g : Grammar) (start : String) : Grammar :=
  (g.generative start).restrict
    (g.generating.filter ((g.generative start).reachable start).contains) start

@[simp]
theorem start_usefulFrom : (g.usefulFrom start).start = start := rfl

theorem nonterminals_usefulFrom_sublist (g : Grammar) (start : String) :
    (g.usefulFrom start).nonterminals.Sublist g.nonterminals := by
  rw [usefulFrom, nonterminals_restrict, generative, nonterminals_restrict]
  exact List.filter_sublist.trans List.filter_sublist

section UsefulFrom

variable (wellFormed : g.WellFormed) (generates : g.Generates start)
include wellFormed generates

theorem mem_filter_reachable_iff :
    name ∈ g.generating.filter ((g.generative start).reachable start).contains ↔
      g.Generates name ∧ (g.generative start).Reaches start name := by
  rw [List.mem_filter, List.contains_iff_mem, mem_generating_iff,
    (wellFormed.generative generates).mem_reachable_iff]

theorem mem_nonterminals_usefulFrom_iff :
    name ∈ (g.usefulFrom start).nonterminals ↔
      g.Generates name ∧ (g.generative start).Reaches start name := by
  rw [usefulFrom, nonterminals_restrict, List.mem_filter, mem_nonterminals_generative_iff,
    List.contains_iff_mem, mem_filter_reachable_iff wellFormed generates, and_self_left]

/-- What is reached keeps all alternatives that generate anything. -/
theorem mem_alternatives_usefulFrom_iff {alternative : Alternative} :
    alternative ∈ (g.usefulFrom start).alternatives name ↔
      (g.generative start).Reaches start name ∧
        alternative ∈ (g.generative start).alternatives name := by
  rw [usefulFrom, mem_alternatives_restrict_iff]
  simp only [mem_filter_reachable_iff wellFormed generates]
  constructor
  · intro kept
    rcases kept with ⟨⟨-, reached⟩, member, -⟩
    exact ⟨reached, member⟩
  · intro kept
    rcases kept with ⟨reached, member⟩
    obtain ⟨listed, generate⟩ := mem_alternatives_generative_iff.mp member
    refine ⟨⟨generates_iff.mpr ⟨alternative, listed, generate⟩, reached⟩, member, ?_⟩
    intro other occurs
    exact ⟨generate other occurs, reached.tail (mem_referenced_iff.mpr ⟨_, member, occurs⟩)⟩

/-- The nonterminals that stay, in order, are those that pass a test for being useful. -/
theorem nonterminals_usefulFrom_eq_filter {keep : String → Bool}
    (kept : ∀ name ∈ g.nonterminals, keep name = true ↔
      g.Generates name ∧ (g.generative start).Reaches start name) :
    (g.usefulFrom start).nonterminals = g.nonterminals.filter keep := by
  rw [usefulFrom, nonterminals_restrict, Grammar.generative, nonterminals_restrict,
    List.filter_filter]
  refine List.filter_congr fun name defined => Bool.eq_iff_iff.mpr ?_
  rw [kept name defined, Bool.and_eq_true, List.contains_iff_mem, List.contains_iff_mem,
    ← Grammar.generative, mem_filter_reachable_iff wellFormed generates, mem_generating_iff,
    and_right_comm, and_self]

/-- A nonterminal that stays keeps the alternatives, in order, whose nonterminals all generate
something. -/
theorem alternatives_usefulFrom (useful : name ∈ (g.usefulFrom start).nonterminals) :
    (g.usefulFrom start).alternatives name =
      (g.alternatives name).filter (Alternative.within g.generating) := by
  obtain ⟨generatesName, reached⟩ :=
    (mem_nonterminals_usefulFrom_iff wellFormed generates).mp useful
  have part : (g.generative start).alternatives name =
      (g.alternatives name).filter (Alternative.within g.generating) :=
    alternatives_restrict (mem_generating_iff.mpr generatesName)
  have kept : name ∈ g.generating.filter ((g.generative start).reachable start).contains :=
    (mem_filter_reachable_iff wellFormed generates).mpr ⟨generatesName, reached⟩
  rw [usefulFrom, alternatives_restrict kept, ← part]
  -- Whatever such an alternative needs is reached through it.
  refine List.filter_eq_self.mpr fun alternative member => Alternative.within_iff.mpr ?_
  intro other occurs
  rw [mem_filter_reachable_iff wellFormed generates]
  exact ⟨(mem_alternatives_generative_iff.mp member).2 other occurs,
    reached.tail (mem_referenced_iff.mpr ⟨alternative, member, occurs⟩)⟩

theorem alternatives_usefulFrom_of_generates (useful : name ∈ (g.usefulFrom start).nonterminals)
    (generate : ∀ alternative ∈ g.alternatives name, ∀ other ∈ Alternative.names alternative,
      g.Generates other) :
    (g.usefulFrom start).alternatives name = g.alternatives name := by
  rw [alternatives_usefulFrom wellFormed generates useful]
  refine List.filter_eq_self.mpr fun alternative member => Alternative.within_iff.mpr ?_
  exact fun other occurs => mem_generating_iff.mpr (generate alternative member other occurs)

theorem wellFormed_usefulFrom : (g.usefulFrom start).WellFormed := by
  rw [wellFormed_iff, start_usefulFrom]
  constructor
  · exact (mem_nonterminals_usefulFrom_iff wellFormed generates).mpr ⟨generates, .refl⟩
  · intro name alternative member
    obtain ⟨reached, member⟩ := (mem_alternatives_usefulFrom_iff wellFormed generates).mp member
    obtain ⟨listed, generate⟩ := mem_alternatives_generative_iff.mp member
    refine ⟨wellFormed.ne_nil_of_mem listed, fun other occurs => ?_⟩
    exact (mem_nonterminals_usefulFrom_iff wellFormed generates).mpr
      ⟨generate other occurs, reached.tail (mem_referenced_iff.mpr ⟨_, member, occurs⟩)⟩

/-- The nonterminals that stay derive the words they did. -/
theorem derives_usefulFrom_iff (useful : name ∈ (g.usefulFrom start).nonterminals) :
    (g.usefulFrom start).Derives name word ↔ g.Derives name word := by
  have same : (g.generative start).Derives name word ↔ g.Derives name word :=
    derives_generative_iff
  rw [← same]
  constructor
  · intro derives
    exact derives.mono fun name alternative member =>
      ((mem_alternatives_usefulFrom_iff wellFormed generates).mp member).2
  · intro derives
    obtain ⟨-, reached⟩ := (mem_nonterminals_usefulFrom_iff wellFormed generates).mp useful
    refine derives.of_closed (fun name word => (g.generative start).Reaches start name →
      (g.usefulFrom start).Derives name word) ?_ reached
    intro name alternative member word reads reached
    refine derives_iff_reads.mpr ⟨alternative,
      (mem_alternatives_usefulFrom_iff wellFormed generates).mpr ⟨reached, member⟩, ?_⟩
    exact reads.imp fun other occurs part derives =>
      derives (reached.tail (mem_referenced_iff.mpr ⟨_, member, occurs⟩))

theorem reaches_usefulFrom (reached : (g.generative start).Reaches start name) :
    (g.usefulFrom start).Reaches start name := by
  induction reached with
  | refl => exact .refl
  | tail reached refers ih =>
    obtain ⟨alternative, member, occurs⟩ := mem_referenced_iff.mp refers
    refine Relation.ReflTransGen.tail ih (mem_referenced_iff.mpr ⟨alternative, ?_, occurs⟩)
    exact (mem_alternatives_usefulFrom_iff wellFormed generates).mpr ⟨reached, member⟩

theorem trim_usefulFrom : (g.usefulFrom start).Trim := by
  intro name useful
  obtain ⟨⟨word, derives⟩, reached⟩ :=
    (mem_nonterminals_usefulFrom_iff wellFormed generates).mp useful
  refine ⟨reaches_usefulFrom wellFormed generates reached, word, ?_⟩
  exact (derives_usefulFrom_iff wellFormed generates useful).mpr derives

end UsefulFrom

/-! ## Pruning -/

section Prune

variable {σ : Type} [RandomSource σ]

/-- A start symbol that derives a word stays, and nothing is drawn. -/
theorem prune_of_generates (generates : g.Generates g.start) (source : σ) :
    (g.prune source).useful = g.usefulFrom g.start ∧ (g.prune source).source = source := by
  have contained : g.generating.contains g.start = true := by
    rw [List.contains_iff_mem, mem_generating_iff]
    exact generates
  rw [prune, startFate, if_pos contained]
  exact ⟨rfl, rfl⟩

/-- Where nothing derives a word only the bare start symbol is left, and nothing is drawn. -/
theorem prune_of_empty (empty : ∀ name, ¬ g.Generates name) (source : σ) :
    (g.prune source).useful = emptyFrom g.start ∧ (g.prune source).source = source := by
  have none : g.generating = [] := generating_eq_nil_iff.mpr empty
  rw [prune, startFate, none]
  exact ⟨rfl, rfl⟩

/-- Where a start symbol has to be replaced, there is a nonterminal at the place drawn, and it is
put in. -/
theorem prune_of_start_notMem (missing : g.start ∉ g.generating) (nonempty : g.generating ≠ [])
    (source : σ) :
    ∃ substitute,
      g.generating[(RandomSource.below64 g.generating.length source).1]? = some substitute ∧
      g.prune source = g.pruneFrom (.replaced substitute) g.generating substitute
        (RandomSource.below64 g.generating.length source).2 := by
  have bound := RandomSource.below64_lt (List.length_pos_iff.mpr nonempty) source
  have chosen := List.getElem?_eq_getElem bound
  refine ⟨_, chosen, ?_⟩
  rw [prune, startFate, if_neg (by simpa using missing), if_neg (by simpa using nonempty)]
  simp only [chosen]

/-- Any other start symbol is replaced by a generating nonterminal, drawn by its place. -/
theorem prune_of_not_generates (useless : ¬ g.Generates g.start) (generates : g.Generates name)
    (source : σ) :
    ∃ substitute,
      g.generating[(RandomSource.below64 g.generating.length source).1]? = some substitute ∧
      (g.prune source).useful = g.usefulFrom substitute ∧
      (g.prune source).source = (RandomSource.below64 g.generating.length source).2 := by
  have missing : g.start ∉ g.generating := fun member => useless (mem_generating_iff.mp member)
  have nonempty : g.generating ≠ [] := List.ne_nil_of_mem (mem_generating_iff.mpr generates)
  obtain ⟨substitute, chosen, replaced⟩ := prune_of_start_notMem missing nonempty source
  rw [replaced]
  exact ⟨substitute, chosen, rfl, rfl⟩

/-- What is left is the bare start symbol of a grammar that generates nothing, or the useful
part seen from a nonterminal that generates something. -/
theorem prune_useful_cases (g : Grammar) (source : σ) :
    ((∀ name, ¬ g.Generates name) ∧ (g.prune source).useful = emptyFrom g.start) ∨
      ∃ start, g.Generates start ∧ (g.prune source).useful = g.usefulFrom start := by
  by_cases generates : g.Generates g.start
  · exact .inr ⟨g.start, generates, (prune_of_generates generates source).1⟩
  · by_cases empty : ∀ name, ¬ g.Generates name
    · exact .inl ⟨empty, (prune_of_empty empty source).1⟩
    · obtain ⟨name, generatesName⟩ := Classical.not_forall_not.mp empty
      obtain ⟨substitute, chosen, useful, -⟩ :=
        prune_of_not_generates generates generatesName source
      exact .inr ⟨substitute, mem_generating_iff.mp (List.mem_of_getElem? chosen), useful⟩

/-- What is left on the way is the bare start symbol, or the generating part seen from a
nonterminal that generates something. -/
theorem prune_generative_cases (g : Grammar) (source : σ) :
    (g.prune source).generative = emptyFrom g.start ∨
      ∃ start, g.Generates start ∧ (g.prune source).generative = g.generative start := by
  by_cases contained : g.generating.contains g.start = true
  · refine .inr ⟨g.start, mem_generating_iff.mp (List.contains_iff_mem.mp contained), ?_⟩
    rw [prune, startFate, if_pos contained]
    rfl
  · rw [prune, startFate, if_neg contained]
    by_cases none : g.generating.isEmpty = true
    · rw [if_pos none]
      exact .inl rfl
    · rw [if_neg none]
      cases chosen : g.generating[(RandomSource.below64 g.generating.length source).1]? with
      | none => simp [chosen]
      | some substitute =>
        simp only [chosen]
        exact .inr ⟨substitute, mem_generating_iff.mp (List.mem_of_getElem? chosen), rfl⟩

/-- The rules of `part` are rules of `g`, and its nonterminals derive what they do in `g`. -/
structure Keeps (part g : Grammar) : Prop where
  wellFormed : part.WellFormed
  names : part.nonterminals ⊆ g.nonterminals
  alternatives : ∀ name, ∀ alternative ∈ part.alternatives name, alternative ∈ g.alternatives name
  derives : ∀ name ∈ part.nonterminals, ∀ word, part.Derives name word ↔ g.Derives name word

theorem WellFormed.keeps_usefulFrom (wellFormed : g.WellFormed) (generates : g.Generates start) :
    (g.usefulFrom start).Keeps g where
  wellFormed := wellFormed_usefulFrom wellFormed generates
  names := (nonterminals_usefulFrom_sublist g start).subset
  alternatives name alternative member := by
    have kept := ((mem_alternatives_usefulFrom_iff wellFormed generates).mp member).2
    exact (mem_alternatives_generative_iff.mp kept).1
  derives name useful word := derives_usefulFrom_iff wellFormed generates useful

theorem nonterminals_emptyFrom (start : String) : (emptyFrom start).nonterminals = [start] := rfl

theorem notMem_alternatives_emptyFrom {alternative : Alternative} :
    alternative ∉ (emptyFrom start).alternatives name := by
  intro member
  obtain ⟨alternatives, filed, member⟩ := mem_alternatives_iff.mp member
  have entry : (name, alternatives) = (start, []) := List.mem_singleton.mp filed
  cases entry
  exact List.not_mem_nil member

theorem wellFormed_emptyFrom (start : String) : (emptyFrom start).WellFormed := by
  rw [wellFormed_iff, nonterminals_emptyFrom]
  refine ⟨List.mem_singleton.mpr rfl, fun name alternative member => ?_⟩
  exact absurd member notMem_alternatives_emptyFrom

theorem WellFormed.keeps_emptyFrom (wellFormed : g.WellFormed)
    (empty : ∀ name, ¬ g.Generates name) : (emptyFrom g.start).Keeps g where
  wellFormed := wellFormed_emptyFrom g.start
  names := by
    rw [nonterminals_emptyFrom]
    exact List.cons_subset.mpr ⟨wellFormed.start_mem, List.nil_subset _⟩
  alternatives name alternative member := absurd member notMem_alternatives_emptyFrom
  derives name defined word := by
    refine ⟨fun derives => ?_, fun derives => absurd ⟨word, derives⟩ (empty name)⟩
    obtain ⟨alternative, member, -⟩ := derives_iff_reads.mp derives
    exact absurd member notMem_alternatives_emptyFrom

/-- Whatever becomes of the start symbol, what is left derives what it did. -/
theorem WellFormed.keeps_prune (wellFormed : g.WellFormed) (source : σ) :
    (g.prune source).useful.Keeps g := by
  rcases prune_useful_cases g source with ⟨empty, useful⟩ | ⟨start, generates, useful⟩
  · rw [useful]
    exact wellFormed.keeps_emptyFrom empty
  · rw [useful]
    exact wellFormed.keeps_usefulFrom generates

theorem WellFormed.generative_prune (wellFormed : g.WellFormed) (source : σ) :
    (g.prune source).generative.WellFormed := by
  rcases prune_generative_cases g source with bare | ⟨start, generates, part⟩
  · rw [bare]
    exact wellFormed_emptyFrom g.start
  · rw [part]
    exact wellFormed.generative generates

/-- Nothing useless is left, as long as something generates a word. -/
theorem WellFormed.trim_prune (wellFormed : g.WellFormed) (generates : g.Generates name)
    (source : σ) : (g.prune source).useful.Trim := by
  rcases prune_useful_cases g source with ⟨empty, -⟩ | ⟨start, generatesStart, useful⟩
  · exact absurd generates (empty name)
  · rw [useful]
    exact trim_usefulFrom wellFormed generatesStart

end Prune

end ContextFree.Grammar
