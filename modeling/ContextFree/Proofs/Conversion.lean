import ContextFree.NormalForm.Conversion
import ContextFree.Proofs.Helper
import ContextFree.Proofs.StartRule
import ContextFree.Proofs.UnitFree

/-!
# The steps of a conversion together

A conversion prepares the grammar (a start symbol of its own, no unit productions), prunes it,
and reshapes what is left (pairs only, no terminal in a pair). Only the pruning looks at the
random source. Each of the three is summed up by what it does to derivations, to useful symbols
and to the start symbol.
-/

namespace ContextFree.Grammar

variable {g : Grammar} {supply : NameSupply} {name : String} {word : Word}

/-! ## Reshaping -/

/-- The last two steps: pairs only, and no terminal in a pair. -/
def reshape (g : Grammar) (supply : NameSupply) : NormalForm :=
  let (binary, supply) := BinaryGrammar.ofGrammar g supply
  (binary.toNormalForm supply).1

/-- The names in use when the grammar has been reshaped. -/
def reshapedSupply (g : Grammar) (supply : NameSupply) : NameSupply :=
  let (binary, supply) := BinaryGrammar.ofGrammar g supply
  (binary.toNormalForm supply).2

/-- A grammar that can be reshaped with the names of the supply. -/
structure Ready (g : Grammar) (supply : NameSupply) : Prop where
  wellFormed : g.WellFormed
  proper : ∀ name, ∀ alternative ∈ g.alternatives name, BinaryGrammar.Proper alternative
  inUse : g.nonterminals ⊆ supply.used

@[simp]
theorem start_reshape : (g.reshape supply).start = g.start := rfl

namespace Ready

theorem exists_splits (ready : g.Ready supply) :
    ∃ cut, BinaryGrammar.Splits g (BinaryGrammar.ofGrammar g supply).1 cut ∧
      supply.Issues (cut.links.map Prod.fst) (BinaryGrammar.ofGrammar g supply).2 ∧
      (BinaryGrammar.ofGrammar g supply).1.rules.names ⊆
        (BinaryGrammar.ofGrammar g supply).2.used := by
  obtain ⟨cut, splits, issues⟩ := BinaryGrammar.splits_ofGrammar ready.proper ready.inUse
  refine ⟨cut, splits, issues, fun name defined => issues.mem_used_iff.mpr ?_⟩
  rw [splits.names] at defined
  rcases List.mem_append.mp defined with old | link
  · exact .inr (ready.inUse old)
  · exact .inl link

/-- The nonterminals of the grammar come first and in order, and then those that the supply has
issued. -/
theorem nonterminals_reshape (ready : g.Ready supply) :
    ∃ added, (g.reshape supply).nonterminals = g.nonterminals ++ added ∧
      supply.Issues added (g.reshapedSupply supply) := by
  obtain ⟨cut, splits, issues, inUse⟩ := ready.exists_splits
  rw [reshape, BinaryGrammar.nonterminals_toNormalForm inUse, splits.names, List.append_assoc]
  exact ⟨_, rfl, issues.append (BinaryGrammar.issues_freshHelpers _ _)⟩

theorem derives_reshape_iff (ready : g.Ready supply) (defined : name ∈ g.nonterminals) :
    (g.reshape supply).Derives name word ↔ g.Derives name word := by
  obtain ⟨cut, splits, -, inUse⟩ := ready.exists_splits
  have kept : name ∈ (BinaryGrammar.ofGrammar g supply).1.rules.names := by
    rw [splits.names]
    exact List.mem_append_left _ defined
  calc (g.reshape supply).Derives name word
      ↔ (BinaryGrammar.ofGrammar g supply).1.toGrammar.Derives name word :=
        BinaryGrammar.derives_toNormalForm_iff inUse (splits.wellFormed ready.wellFormed) kept
    _ ↔ g.Derives name word := splits.derives_iff ready.wellFormed defined

theorem wellFormed_reshape (ready : g.Ready supply) : (g.reshape supply).WellFormed := by
  obtain ⟨cut, splits, -, inUse⟩ := ready.exists_splits
  exact BinaryGrammar.wellFormed_toNormalForm inUse (splits.wellFormed ready.wellFormed)

theorem trim_reshape (ready : g.Ready supply) (trim : g.Trim) : (g.reshape supply).Trim := by
  obtain ⟨cut, splits, -, inUse⟩ := ready.exists_splits
  exact BinaryGrammar.trim_toNormalForm inUse (splits.trim ready.wellFormed trim)

/-- A start symbol that stands on no right-hand side is not brought into a pair: links and
fresh helpers are new, and a rule of the grammar is no helper if it is that of the start symbol. -/
theorem start_notMem_names_reshape (ready : g.Ready supply)
    (apart : ∀ origin, g.start ∉ g.referenced origin) {production : Production}
    (member : production ∈ (g.reshape supply).productions name) : g.start ∉ production.names := by
  intro occurs
  obtain ⟨cut, splits, -, inUse⟩ := ready.exists_splits
  rcases BinaryGrammar.names_toNormalForm_cases inUse member occurs with ⟨origin, refers⟩ | helper
  · obtain ⟨alternative, listed, occurs⟩ := mem_referenced_iff.mp refers
    rcases splits.names_cases listed occurs with ⟨origin, refers⟩ | link
    · exact apart origin refers
    · obtain ⟨link, listed, equal⟩ := List.mem_map.mp link
      exact splits.link_notMem listed (equal ▸ ready.wellFormed.start_mem)
  · obtain ⟨char, helper⟩ := helper
    have defined := (splits.wellFormed ready.wellFormed).start_mem
    rw [BinaryGrammar.nonterminals_toGrammar] at defined
    exact BinaryGrammar.helper_ne_start inUse defined helper splits.start.symm

end Ready

/-- The bare start symbol stays as it is. -/
theorem entries_reshape_emptyFrom (start : String) (supply : NameSupply) :
    ((emptyFrom start).reshape supply).rules.entries = [(start, [])] := rfl

/-! ## Preparing -/

/-- The start symbol that a conversion of the grammar adds. -/
def freshStart (g : Grammar) : String := ((NameSupply.ofGrammar g).fresh .start).1

/-- The names in use when the grammar has been prepared. -/
def preparedSupply (g : Grammar) : NameSupply := (g.isolateStart (.ofGrammar g)).2

/-- The first two steps: a start symbol of its own, and no unit productions. -/
def prepared (g : Grammar) : Grammar := (g.isolateStart (.ofGrammar g)).1.unitFree

@[simp]
theorem start_prepared : g.prepared.start = g.freshStart := rfl

/-- A supply made for the grammar has all of its nonterminals in use. -/
theorem nonterminals_inUse (g : Grammar) : g.nonterminals ⊆ (NameSupply.ofGrammar g).used :=
  List.Subset.refl g.nonterminals

theorem exists_freshStart_eq (g : Grammar) : ∃ number, g.freshStart = Origin.start.name number :=
  NameSupply.exists_fresh_eq _ _

theorem freshStart_notMem (g : Grammar) : g.freshStart ∉ g.nonterminals :=
  fresh_start_notMem g.nonterminals_inUse

theorem nonterminals_prepared (g : Grammar) :
    g.prepared.nonterminals = g.freshStart :: g.nonterminals := by
  rw [prepared, nonterminals_unitFree]
  exact nonterminals_isolateStart g.nonterminals_inUse

section Prepared

variable (wellFormed : g.WellFormed)
include wellFormed

theorem WellFormed.isolated : (g.isolateStart (.ofGrammar g)).1.WellFormed :=
  wellFormed.isolateStart g.nonterminals_inUse

theorem WellFormed.prepared : g.prepared.WellFormed := wellFormed.isolated.unitFree

theorem WellFormed.derives_prepared_iff (old : name ∈ g.nonterminals) :
    g.prepared.Derives name word ↔ g.Derives name word := by
  calc g.prepared.Derives name word
      ↔ (g.isolateStart (.ofGrammar g)).1.Derives name word :=
        wellFormed.isolated.derives_unitFree_iff
    _ ↔ g.Derives name word := wellFormed.derives_isolateStart_iff g.nonterminals_inUse old

theorem WellFormed.derives_prepared_start_iff :
    g.prepared.Derives g.freshStart word ↔ g.Derives g.start word := by
  calc g.prepared.Derives g.freshStart word
      ↔ (g.isolateStart (.ofGrammar g)).1.Derives g.freshStart word :=
        wellFormed.isolated.derives_unitFree_iff
    _ ↔ g.Derives g.start word :=
        wellFormed.derives_isolateStart_start_iff g.nonterminals_inUse

theorem WellFormed.generates_prepared_iff (old : name ∈ g.nonterminals) :
    g.prepared.Generates name ↔ g.Generates name :=
  exists_congr fun _ => wellFormed.derives_prepared_iff old

theorem WellFormed.generates_prepared_start_iff :
    g.prepared.Generates g.prepared.start ↔ g.Generates g.start :=
  exists_congr fun _ => wellFormed.derives_prepared_start_iff

/-- Preparing a grammar in which nothing derives a word changes nothing about that. -/
theorem WellFormed.not_generates_prepared (empty : ∀ name, ¬ g.Generates name) (name : String) :
    ¬ g.prepared.Generates name := by
  intro generates
  have defined := generates.mem_nonterminals
  rw [nonterminals_prepared] at defined
  rcases List.mem_cons.mp defined with rfl | old
  · exact empty g.start (wellFormed.generates_prepared_start_iff.mp generates)
  · exact empty name ((wellFormed.generates_prepared_iff old).mp generates)

/-- The fresh start symbol is not listed when the old one derives no word, and all others are
listed in the order of the grammar. -/
theorem WellFormed.generating_prepared (useless : ¬ g.Generates g.start) :
    g.prepared.generating = g.nonterminals.filter (g.Generates ·) := by
  rw [generating_eq_filter, nonterminals_prepared, List.filter_cons_of_neg]
  · refine List.filter_congr fun name old => ?_
    rw [decide_eq_decide]
    exact wellFormed.generates_prepared_iff old
  · rw [decide_eq_true_eq]
    exact fun generates => useless (wellFormed.generates_prepared_start_iff.mp generates)

theorem WellFormed.proper_prepared {alternative : Alternative}
    (member : alternative ∈ g.prepared.alternatives name) : BinaryGrammar.Proper alternative := by
  obtain ⟨-, notUnit⟩ := wellFormed.isolated.mem_alternatives_unitFree_iff.mp member
  exact ⟨wellFormed.prepared.ne_nil_of_mem member, notUnit⟩

theorem WellFormed.freshStart_notMem_names_prepared {alternative : Alternative}
    (member : alternative ∈ g.prepared.alternatives name) :
    g.freshStart ∉ Alternative.names alternative := by
  obtain ⟨⟨target, -, listed⟩, -⟩ := wellFormed.isolated.mem_alternatives_unitFree_iff.mp member
  exact wellFormed.start_notMem_names_isolateStart g.nonterminals_inUse listed

/-- What pruning leaves of the prepared grammar can be reshaped. -/
theorem WellFormed.ready_of_keeps {part : Grammar} (keeps : part.Keeps g.prepared) :
    part.Ready g.preparedSupply where
  wellFormed := keeps.wellFormed
  proper name alternative member :=
    wellFormed.proper_prepared (keeps.alternatives name alternative member)
  inUse := by
    rw [preparedSupply, supply_isolateStart, NameSupply.used_fresh]
    exact fun name defined => nonterminals_prepared g ▸ keeps.names defined

end Prepared

/-! ## All steps -/

theorem wellFormed_of_ofRules {start : String} {rules : RuleTable (List Alternative)}
    (accepted : ofRules start rules = .ok g) : g.WellFormed :=
  (ofRules_eq_ok_iff.mp accepted).2

section Convert

variable {σ : Type} [RandomSource σ]

/-- A conversion prepares, prunes and reshapes, and draws what the pruning draws. -/
theorem convert_eq (g : Grammar) (source : σ) :
    (g.convert source).normalForm =
        (g.prepared.prune source).useful.reshape g.preparedSupply ∧
      (g.convert source).source = (g.prepared.prune source).source := by
  unfold convert prepared preparedSupply reshape
  -- With the results of the steps as variables nothing is left to compute.
  generalize g.isolateStart (.ofGrammar g) = first
  obtain ⟨isolated, supply⟩ := first
  dsimp only
  generalize isolated.unitFree.prune source = pruning
  generalize BinaryGrammar.ofGrammar pruning.useful supply = third
  exact ⟨rfl, rfl⟩

theorem supply_convert (g : Grammar) (source : σ) :
    (g.convert source).supply =
      (g.prepared.prune source).useful.reshapedSupply g.preparedSupply := by
  unfold convert prepared preparedSupply reshapedSupply
  generalize g.isolateStart (.ofGrammar g) = first
  obtain ⟨isolated, supply⟩ := first
  dsimp only

theorem start_convert (g : Grammar) (source : σ) :
    (g.convert source).normalForm.start = (g.prepared.prune source).useful.start := by
  rw [(g.convert_eq source).1, start_reshape]

theorem WellFormed.ready_prune (wellFormed : g.WellFormed) (source : σ) :
    (g.prepared.prune source).useful.Ready g.preparedSupply :=
  wellFormed.ready_of_keeps (wellFormed.prepared.keeps_prune source)

theorem WellFormed.wellFormed_convert (wellFormed : g.WellFormed) (source : σ) :
    (g.convert source).normalForm.WellFormed := by
  rw [(g.convert_eq source).1]
  exact (wellFormed.ready_prune source).wellFormed_reshape

/-- The start symbol of the normal form derives in it what it derives in the prepared grammar. -/
theorem WellFormed.accepts_convert_iff (wellFormed : g.WellFormed) (source : σ) :
    (g.convert source).normalForm.Accepts word ↔
      g.prepared.Derives (g.convert source).normalForm.start word := by
  have keeps := wellFormed.prepared.keeps_prune source
  have defined := keeps.wellFormed.start_mem
  rw [start_convert, NormalForm.Accepts, start_convert, (g.convert_eq source).1]
  calc ((g.prepared.prune source).useful.reshape g.preparedSupply).Derives _ word
      ↔ (g.prepared.prune source).useful.Derives _ word :=
        (wellFormed.ready_prune source).derives_reshape_iff defined
    _ ↔ g.prepared.Derives _ word := keeps.derives _ defined word

/-- A start symbol that derives a word leads the normal form, whatever the source is. -/
theorem WellFormed.convert_of_generates (wellFormed : g.WellFormed)
    (generates : g.Generates g.start) (source : σ) :
    (g.convert source).normalForm =
        (g.prepared.usefulFrom g.freshStart).reshape g.preparedSupply ∧
      (g.convert source).source = source := by
  obtain ⟨useful, unread⟩ :=
    prune_of_generates (wellFormed.generates_prepared_start_iff.mpr generates) source
  rw [(g.convert_eq source).1, (g.convert_eq source).2, useful, unread]
  exact ⟨rfl, rfl⟩

/-- A start symbol that derives a word keeps its language. -/
theorem WellFormed.accepts_convert_iff_accepts (wellFormed : g.WellFormed)
    (generates : g.Generates g.start) (source : σ) :
    (g.convert source).normalForm.Accepts word ↔ g.Accepts word := by
  rw [wellFormed.accepts_convert_iff, (wellFormed.convert_of_generates generates source).1,
    start_reshape, start_usefulFrom]
  exact wellFormed.derives_prepared_start_iff

/-- Where nothing derives a word the normal form is bare, whatever the source is. -/
theorem WellFormed.convert_of_empty (wellFormed : g.WellFormed)
    (empty : ∀ name, ¬ g.Generates name) (source : σ) :
    (g.convert source).normalForm = (emptyFrom g.freshStart).reshape g.preparedSupply ∧
      (g.convert source).source = source := by
  obtain ⟨useful, unread⟩ := prune_of_empty (wellFormed.not_generates_prepared empty) source
  rw [(g.convert_eq source).1, (g.convert_eq source).2, useful, unread]
  exact ⟨rfl, rfl⟩

/-- A normal form with a production comes from a grammar in which something derives a word. -/
theorem WellFormed.exists_generates_of_mem_convert (wellFormed : g.WellFormed) {source : σ}
    {production : Production}
    (member : production ∈ (g.convert source).normalForm.productions name) :
    ∃ origin, g.Generates origin := by
  apply Classical.by_contradiction
  intro nowhere
  rw [(wellFormed.convert_of_empty (not_exists.mp nowhere) source).1,
    NormalForm.mem_productions_iff, entries_reshape_emptyFrom] at member
  obtain ⟨productions, filed, member⟩ := member
  cases List.mem_singleton.mp filed
  cases member

/-- Otherwise the start symbol is drawn from the nonterminals that derive a word. -/
theorem WellFormed.convert_of_not_generates (wellFormed : g.WellFormed)
    (useless : ¬ g.Generates g.start) {name : String} (generates : g.Generates name)
    (source : σ) :
    ∃ substitute, (g.nonterminals.filter (g.Generates ·))[(RandomSource.below64
          (g.nonterminals.filter (g.Generates ·)).length source).1]? = some substitute ∧
      (g.convert source).normalForm.start = substitute ∧
      (g.convert source).source = (RandomSource.below64
        (g.nonterminals.filter (g.Generates ·)).length source).2 := by
  have old := (wellFormed.generates_prepared_iff generates.mem_nonterminals).mpr generates
  have replaced : ¬ g.prepared.Generates g.prepared.start :=
    fun again => useless (wellFormed.generates_prepared_start_iff.mp again)
  obtain ⟨substitute, chosen, useful, drawn⟩ := prune_of_not_generates replaced old source
  rw [wellFormed.generating_prepared useless] at chosen drawn
  refine ⟨substitute, chosen, ?_, ?_⟩
  · rw [start_convert, useful, start_usefulFrom]
  · rw [(g.convert_eq source).2, drawn]

end Convert

end ContextFree.Grammar
