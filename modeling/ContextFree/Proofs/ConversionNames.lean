import ContextFree.Proofs.Conversion

/-!
# The names of a conversion

A nonterminal of the normal form either has kept the name that it has in the grammar, or its
name was issued during the conversion. One supply issues the names of all steps, so that they
are distinct and none of them is a name of the grammar, not even one that has been dropped on the
way. A name that was kept means what it meant: it derives the words that it derives in the
grammar.
-/

namespace ContextFree

namespace NameSupply.Issues

variable {supply later : NameSupply} {names : List String}

/-- Whatever is issued has a name with a number. -/
theorem exists_origin (issues : Issues supply names later) :
    ∀ name ∈ names, ∃ origin number, name = Origin.name origin number := by
  induction issues with
  | nil =>
    intro name member
    cases member
  | cons origin _ ih =>
    intro name member
    rcases List.mem_cons.mp member with rfl | member
    · exact ⟨origin, exists_fresh_eq _ origin⟩
    · exact ih name member

end NameSupply.Issues

namespace Grammar

variable {σ : Type} [RandomSource σ] {g : Grammar} {name : String} {word : Word}

/-- The start symbol is the first name that a conversion issues. -/
theorem issues_preparedSupply (g : Grammar) :
    (NameSupply.ofGrammar g).Issues [g.freshStart] g.preparedSupply :=
  .cons .start (.nil _)

/-- What a conversion adds to the names of the pruned grammar is issued after its start symbol. -/
theorem WellFormed.nonterminals_convert (wellFormed : g.WellFormed) (source : σ) :
    ∃ added, (g.convert source).normalForm.nonterminals =
        (g.prepared.prune source).useful.nonterminals ++ added ∧
      g.preparedSupply.Issues added (g.convert source).supply := by
  rw [(g.convert_eq source).1, supply_convert]
  exact (wellFormed.ready_prune source).nonterminals_reshape

/-- The names in use after the first two steps include all names of the grammar. -/
theorem mem_used_preparedSupply (old : name ∈ g.nonterminals) : name ∈ g.preparedSupply.used :=
  g.issues_preparedSupply.mem_used_iff.mpr (.inr (g.nonterminals_inUse old))

/-- A nonterminal of the normal form with a name of the grammar was there before any links and
helpers were added. -/
theorem WellFormed.mem_nonterminals_useful (wellFormed : g.WellFormed) {source : σ}
    (defined : name ∈ (g.convert source).normalForm.nonterminals) (old : name ∈ g.nonterminals) :
    name ∈ (g.prepared.prune source).useful.nonterminals := by
  obtain ⟨added, names, issues⟩ := wellFormed.nonterminals_convert source
  rw [names] at defined
  rcases List.mem_append.mp defined with kept | fresh
  · exact kept
  · exact absurd (mem_used_preparedSupply old) (issues.notMem_used name fresh)

/-- A name that is kept derives in the normal form what it derives in the grammar. -/
theorem WellFormed.derives_convert_iff (wellFormed : g.WellFormed) {source : σ}
    (defined : name ∈ (g.convert source).normalForm.nonterminals) (old : name ∈ g.nonterminals) :
    (g.convert source).normalForm.Derives name word ↔ g.Derives name word := by
  have keeps := wellFormed.prepared.keeps_prune source
  have useful := wellFormed.mem_nonterminals_useful defined old
  rw [(g.convert_eq source).1]
  calc ((g.prepared.prune source).useful.reshape g.preparedSupply).Derives name word
      ↔ (g.prepared.prune source).useful.Derives name word :=
        (wellFormed.ready_prune source).derives_reshape_iff useful
    _ ↔ g.prepared.Derives name word := keeps.derives name useful word
    _ ↔ g.Derives name word := wellFormed.derives_prepared_iff old

/-- The names of the normal form are names of the grammar and names issued on the way. -/
theorem WellFormed.exists_issued (wellFormed : g.WellFormed) (source : σ) :
    ∃ issued, (NameSupply.ofGrammar g).Issues issued (g.convert source).supply ∧
      ∀ name ∈ (g.convert source).normalForm.nonterminals,
        name ∈ g.nonterminals ∨ name ∈ issued := by
  obtain ⟨added, names, issues⟩ := wellFormed.nonterminals_convert source
  refine ⟨_, g.issues_preparedSupply.append issues, fun name defined => ?_⟩
  rw [names] at defined
  rcases List.mem_append.mp defined with kept | fresh
  · have prepared := (wellFormed.prepared.keeps_prune source).names kept
    rw [nonterminals_prepared] at prepared
    rcases List.mem_cons.mp prepared with rfl | old
    · exact .inr List.mem_cons_self
    · exact .inl old
  · exact .inr (List.mem_cons_of_mem _ fresh)

/-- A name of the normal form is one of the grammar, which derives the same words in both, or it
was issued by the supply of the conversion, and then the grammar does not have it. -/
theorem convert_keeps_meaning_of_names {start : String} {rules : RuleTable (List Alternative)}
    (accepted : ofRules start rules = .ok g) (source : σ) {c : NormalForm}
    (converted : (g.convert source).normalForm = c) :
    ∃ issued, (NameSupply.ofGrammar g).Issues issued (g.convert source).supply ∧
      issued.Nodup ∧
      (∀ name ∈ issued, name ∉ g.nonterminals ∧
        ∃ origin number, name = Origin.name origin number) ∧
      (∀ name ∈ c.nonterminals, name ∈ g.nonterminals ∨ name ∈ issued) ∧
      ∀ name ∈ c.nonterminals, name ∈ g.nonterminals →
        ∀ word, c.Derives name word ↔ g.Derives name word := by
  have wellFormed := wellFormed_of_ofRules accepted
  subst converted
  obtain ⟨issued, issues, known⟩ := wellFormed.exists_issued source
  refine ⟨issued, issues, issues.nodup, fun name fresh => ⟨?_, ?_⟩, known, ?_⟩
  · exact fun old => issues.notMem_used name fresh (g.nonterminals_inUse old)
  · exact issues.exists_origin name fresh
  · exact fun name defined old word => wellFormed.derives_convert_iff defined old

/-- Names that look as if they had been issued. One of them is dropped, since nothing leads to
it. -/
def imitating : Grammar :=
  ⟨"S", ⟨[("S", [[.nonterminal "[START1]", .nonterminal "[BIN2]", .terminal 'a']]),
    ("[START1]", [[.terminal 'b']]), ("[BIN2]", [[.terminal 'c']]),
    ("[BIN3]", [[.terminal 'c']])], by decide⟩⟩

theorem convert_keeps_meaning_of_names_imitating :
    ofRules imitating.start imitating.rules = .ok imitating ∧
      (imitating.convert (Script.mk [])).normalForm.nonterminals =
        ["[START2]", "[START1]", "[BIN2]", "[BIN4]", "[TERM5]"] ∧
      ∀ word, (imitating.convert (Script.mk [])).normalForm.Derives "[BIN2]" word ↔
        imitating.Derives "[BIN2]" word := by
  have accepted : ofRules imitating.start imitating.rules = .ok imitating := by decide
  have names : (imitating.convert (Script.mk [])).normalForm.nonterminals =
      ["[START2]", "[START1]", "[BIN2]", "[BIN4]", "[TERM5]"] := by decide +kernel
  refine ⟨accepted, names, ?_⟩
  obtain ⟨-, -, -, -, -, meaning⟩ :=
    convert_keeps_meaning_of_names accepted (Script.mk []) rfl
  exact meaning "[BIN2]" (by rw [names]; decide) (by decide)

end Grammar

end ContextFree
