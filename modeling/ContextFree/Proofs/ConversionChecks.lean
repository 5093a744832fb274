import ContextFree.Proofs.ConversionText

/-!
# Values that need no check

Rules from outside are checked before they make a grammar or a normal form. The steps of a
conversion, and the change from one kind of grammar to the other, put their results together
without a check. They can do so, since what they make out of a well-formed grammar is well formed:
it would be accepted, and as it is.
-/

namespace ContextFree

/-! ## Binary grammars -/

/-- The start symbol and every nonterminal in a pair have a rule. -/
structure BinaryGrammar.WellFormed (b : BinaryGrammar) : Prop where
  start_mem : b.start ∈ b.rules.names
  defined : ∀ entry ∈ b.rules.entries, ∀ left right, .pair left right ∈ entry.2 →
    ∀ name, .nonterminal name = left ∨ .nonterminal name = right → name ∈ b.rules.names

theorem BinaryGrammar.wellFormed_of_toGrammar {b : BinaryGrammar}
    (wellFormed : b.toGrammar.WellFormed) : b.WellFormed where
  start_mem := by
    rw [← nonterminals_toGrammar]
    exact wellFormed.start_mem
  defined := by
    intro entry filed left right member name side
    have listed : [left, right] ∈ b.toGrammar.alternatives entry.1 :=
      mem_alternatives_toGrammar_iff.mpr
        ⟨_, RuleTable.mem_getD_iff.mpr ⟨entry.2, filed, member⟩, rfl⟩
    have occurs : name ∈ Alternative.names [left, right] := by
      rw [Alternative.mem_names_iff]
      rcases side with rfl | rfl <;> simp
    rw [← nonterminals_toGrammar]
    exact wellFormed.mem_nonterminals listed occurs

/-! ## Steps of a conversion -/

namespace Grammar

variable {σ : Type} [RandomSource σ] {g : Grammar}

/-- The results of the single steps of a conversion. -/
theorem convert_steps (g : Grammar) (source : σ) :
    (g.convert source).isolated = (g.isolateStart (.ofGrammar g)).1 ∧
      (g.convert source).unitFree = g.prepared ∧
      (g.convert source).pruning = g.prepared.prune source ∧
      (g.convert source).binary =
        (BinaryGrammar.ofGrammar (g.prepared.prune source).useful g.preparedSupply).1 := by
  unfold convert prepared preparedSupply
  generalize g.isolateStart (.ofGrammar g) = first
  obtain ⟨isolated, supply⟩ := first
  exact ⟨rfl, rfl, rfl, rfl⟩

theorem Ready.wellFormed_ofGrammar {supply : NameSupply} (ready : g.Ready supply) :
    (BinaryGrammar.ofGrammar g supply).1.WellFormed := by
  obtain ⟨cut, splits, -⟩ := ready.exists_splits
  exact BinaryGrammar.wellFormed_of_toGrammar (splits.wellFormed ready.wellFormed)

end Grammar

/-! ## Grammars as normal forms -/

theorem Production.eq_alternative_of_ofAlternative? {alternative : Alternative}
    {production : Production} (shaped : ofAlternative? alternative = some production) :
    alternative = production.alternative := by
  unfold ofAlternative? at shaped
  split at shaped
  · cases shaped
    rfl
  · cases shaped
    rfl
  · cases shaped

namespace NormalForm

theorem eq_of_ofGrammar {g : Grammar} {c : NormalForm} (converted : ofGrammar g = .ok c) :
    c = ⟨g.start, g.rules.mapValues fun _ alternatives =>
      alternatives.filterMap Production.ofAlternative?⟩ := by
  unfold ofGrammar at converted
  cases misfit : misfits g with
  | nil =>
    rw [misfit] at converted
    exact (Except.ok.inj converted).symm
  | cons error rest =>
    rw [misfit] at converted
    cases converted

theorem productions_of_ofGrammar {g : Grammar} {c : NormalForm} (converted : ofGrammar g = .ok c)
    (name : String) :
    c.productions name = (g.alternatives name).filterMap Production.ofAlternative? := by
  rw [eq_of_ofGrammar converted, productions, RuleTable.get?_mapValues, Grammar.alternatives]
  cases g.rules.get? name with
  | none => rfl
  | some alternatives => rfl

/-- The productions of a normal form have been alternatives of the grammar that it comes from. -/
theorem alternative_mem_of_ofGrammar {g : Grammar} {c : NormalForm} {name : String}
    {production : Production} (converted : ofGrammar g = .ok c)
    (member : production ∈ c.productions name) :
    production.alternative ∈ g.alternatives name := by
  rw [productions_of_ofGrammar converted] at member
  obtain ⟨alternative, listed, shaped⟩ := List.mem_filterMap.mp member
  rw [← Production.eq_alternative_of_ofAlternative? shaped]
  exact listed

theorem nonterminals_of_ofGrammar {g : Grammar} {c : NormalForm}
    (converted : ofGrammar g = .ok c) : c.nonterminals = g.nonterminals := by
  rw [eq_of_ofGrammar converted]
  exact RuleTable.names_mapValues _ _

theorem wellFormed_of_ofGrammar {g : Grammar} {c : NormalForm} (wellFormed : g.WellFormed)
    (converted : ofGrammar g = .ok c) : c.WellFormed := by
  rw [wellFormed_iff, nonterminals_of_ofGrammar converted]
  refine ⟨?_, fun name production member other occurs => ?_⟩
  · rw [eq_of_ofGrammar converted]
    exact wellFormed.start_mem
  · have listed := alternative_mem_of_ofGrammar converted member
    rw [← Production.names_alternative] at occurs
    exact wellFormed.mem_nonterminals listed occurs

end NormalForm

/-! ## All of them -/

open Grammar (startless)

/-- All grammars on the way of a conversion, and all that come from a change of kind, would be
accepted as they are, and the binary grammar of a conversion has a rule for all that it uses. -/
theorem unchecked_values_pass_their_checks :
    (∀ start rules g, Grammar.ofRules start rules = .ok g →
      (∀ (σ : Type) [RandomSource σ] (source : σ) (conversion : Conversion σ),
        g.convert source = conversion →
        (∀ part ∈ [conversion.isolated, conversion.unitFree, conversion.pruning.generative,
          conversion.pruning.useful], Grammar.ofRules part.start part.rules = .ok part) ∧
        conversion.binary.WellFormed ∧
        NormalForm.ofRules conversion.normalForm.start conversion.normalForm.rules =
          .ok conversion.normalForm) ∧
      ∀ c, NormalForm.ofGrammar g = .ok c → NormalForm.ofRules c.start c.rules = .ok c) ∧
    (∀ start rules c, NormalForm.ofRules start rules = .ok c →
      Grammar.ofRules c.toGrammar.start c.toGrammar.rules = .ok c.toGrammar) := by
  have passes : ∀ part : Grammar, part.WellFormed →
      Grammar.ofRules part.start part.rules = .ok part :=
    fun part wellFormed => Grammar.ofRules_eq_ok_iff.mpr ⟨rfl, wellFormed⟩
  have passesNormal : ∀ c : NormalForm, c.WellFormed →
      NormalForm.ofRules c.start c.rules = .ok c :=
    fun c wellFormed => NormalForm.ofRules_eq_ok_iff.mpr ⟨rfl, wellFormed⟩
  refine ⟨fun start rules g accepted => ?_, fun start rules c accepted => ?_⟩
  · have wellFormed := Grammar.wellFormed_of_ofRules accepted
    refine ⟨?_, fun c converted => ?_⟩
    · rintro σ _ source _ rfl
      obtain ⟨isolated, unitFree, pruning, binary⟩ := g.convert_steps source
      rw [isolated, unitFree, pruning, binary]
      refine ⟨?_, (wellFormed.ready_prune source).wellFormed_ofGrammar,
        passesNormal _ (wellFormed.wellFormed_convert source)⟩
      simp only [List.forall_mem_cons, List.not_mem_nil, false_implies, implies_true, and_true]
      exact ⟨passes _ wellFormed.isolated, passes _ wellFormed.prepared,
        passes _ (wellFormed.prepared.generative_prune source),
        passes _ (wellFormed.prepared.keeps_prune source).wellFormed⟩
    · exact passesNormal c (NormalForm.wellFormed_of_ofGrammar wellFormed converted)
  · exact passes _ (NormalForm.ofRules_eq_ok_iff.mp accepted).2.toGrammar

theorem unchecked_values_pass_their_checks_startless :
    Grammar.ofRules startless.start startless.rules = .ok startless ∧
      ∃ conversion, startless.convert (Script.mk [1, 2]) = conversion ∧
        Grammar.ofRules conversion.pruning.generative.start conversion.pruning.generative.rules =
          .ok conversion.pruning.generative ∧
        conversion.binary.WellFormed ∧
        NormalForm.ofRules conversion.normalForm.start conversion.normalForm.rules =
          .ok conversion.normalForm ∧
        ∃ g, conversion.normalForm.toGrammar = g ∧ Grammar.ofRules g.start g.rules = .ok g ∧
          ∃ c, NormalForm.ofGrammar g = .ok c ∧ NormalForm.ofRules c.start c.rules = .ok c := by
  have accepted : Grammar.ofRules startless.start startless.rules = .ok startless := by decide
  obtain ⟨parts, binary, normalForm⟩ := (unchecked_values_pass_their_checks.1 _ _ _ accepted).1
    Script (Script.mk [1, 2]) _ rfl
  have back := unchecked_values_pass_their_checks.2 _ _ _ normalForm
  have changed := NormalForm.ofGrammar_toGrammar
    (startless.convert (Script.mk [1, 2])).normalForm
  have again := (unchecked_values_pass_their_checks.1 _ _ _ back).2 _ changed
  exact ⟨accepted, _, rfl, parts _ (by simp), binary, normalForm, _, rfl, back, _, changed, again⟩

end ContextFree
