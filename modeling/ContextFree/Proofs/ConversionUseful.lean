import ContextFree.Proofs.Conversion

/-!
# The nonterminals of a conversion

All nonterminals of the normal form are useful as long as the grammar has one that derives a
word, so that every production has its place in some derivation. The normal form is led by the
fresh start symbol unless a substitute has taken its place.
-/

namespace ContextFree.Grammar

variable {σ : Type} [RandomSource σ] {g : Grammar} {name : String}

/-- Nothing useless is left in the normal form, as long as something derives a word. -/
theorem WellFormed.trim_convert (wellFormed : g.WellFormed) (generates : g.Generates name)
    (source : σ) : (g.convert source).normalForm.Trim := by
  rw [(g.convert_eq source).1]
  have old := (wellFormed.generates_prepared_iff generates.mem_nonterminals).mpr generates
  exact (wellFormed.ready_prune source).trim_reshape (wellFormed.prepared.trim_prune old source)

theorem head?_nonterminals_usefulFrom
    (useful : g.freshStart ∈ (g.prepared.usefulFrom g.freshStart).nonterminals) :
    (g.prepared.usefulFrom g.freshStart).nonterminals.head? = some g.freshStart := by
  have kept := nonterminals_usefulFrom_sublist g.prepared g.freshStart
  rw [nonterminals_prepared] at kept
  generalize (g.prepared.usefulFrom g.freshStart).nonterminals = names at useful kept ⊢
  cases kept with
  | cons _ behind => exact absurd (behind.subset useful) g.freshStart_notMem
  | cons_cons _ behind => rfl

/-- A start symbol that derives a word gives way to the fresh one, which comes first and stands
in no pair. -/
theorem WellFormed.freshStart_convert (wellFormed : g.WellFormed)
    (generates : g.Generates g.start) (source : σ) :
    (g.convert source).normalForm.start = g.freshStart ∧
      (g.convert source).normalForm.nonterminals.head? = some g.freshStart ∧
      ∀ name, ∀ production ∈ (g.convert source).normalForm.productions name,
        g.freshStart ∉ production.names := by
  have again : g.prepared.Generates g.freshStart :=
    wellFormed.generates_prepared_start_iff.mpr generates
  have keeps := wellFormed.prepared.keeps_usefulFrom again
  have ready := wellFormed.ready_of_keeps keeps
  rw [(wellFormed.convert_of_generates generates source).1]
  refine ⟨?_, ?_, fun name production member => ?_⟩
  · rw [start_reshape, start_usefulFrom]
  · obtain ⟨added, names, -⟩ := ready.nonterminals_reshape
    rw [names, List.head?_append, head?_nonterminals_usefulFrom keeps.wellFormed.start_mem]
    rfl
  · refine ready.start_notMem_names_reshape (fun origin refers => ?_) member
    obtain ⟨alternative, listed, occurs⟩ := mem_referenced_iff.mp refers
    exact wellFormed.freshStart_notMem_names_prepared
      (keeps.alternatives origin alternative listed) occurs

/-- Every nonterminal of the normal form is useful and every production is used for some word,
except where the grammar has no words at all and a bare fresh start symbol is all that is left.
A start symbol that derives a word is replaced by a fresh one in front, which is in no pair. -/
theorem convert_leaves_nothing_useless {start : String} {rules : RuleTable (List Alternative)}
    (accepted : ofRules start rules = .ok g) (source : σ) {c : NormalForm}
    (converted : (g.convert source).normalForm = c) :
    ((∃ name ∈ g.nonterminals, g.Generates name) →
      (∀ name ∈ c.nonterminals, c.Reaches c.start name ∧ c.Generates name) ∧
        ∀ lhs, ∀ production ∈ c.productions lhs,
          ∃ word, c.Accepts word ∧ c.DerivesUsing lhs production c.start word) ∧
    ((∀ name ∈ g.nonterminals, ¬ g.Generates name) →
      ∃ number, c.start = Origin.start.name number ∧ c.start ∉ g.nonterminals ∧
        c.rules.entries = [(c.start, [])]) ∧
    (g.Generates g.start →
      ∃ number, c.start = Origin.start.name number ∧ c.start ∉ g.nonterminals ∧
        c.nonterminals.head? = some c.start ∧
        ∀ lhs left right, .pair left right ∈ c.productions lhs →
          c.start ≠ left ∧ c.start ≠ right) := by
  have wellFormed := wellFormed_of_ofRules accepted
  obtain ⟨number, named⟩ := g.exists_freshStart_eq
  refine ⟨?_, ?_, ?_⟩
  · rintro ⟨name, -, generates⟩
    have trim := wellFormed.trim_convert generates source
    have formed := wellFormed.wellFormed_convert source
    rw [converted] at trim formed
    refine ⟨fun name defined => ⟨(trim name defined).reached, (trim name defined).generates⟩, ?_⟩
    intro lhs production member
    obtain ⟨word, derives⟩ := trim.exists_derivesUsing formed member
    exact ⟨word, derives.derives, derives⟩
  · intro empty
    have everywhere : ∀ name, ¬ g.Generates name :=
      fun name generates => empty name generates.mem_nonterminals generates
    have bare := (wellFormed.convert_of_empty everywhere source).1
    rw [converted] at bare
    subst bare
    exact ⟨number, named, g.freshStart_notMem, entries_reshape_emptyFrom _ _⟩
  · intro generates
    obtain ⟨started, first, apart⟩ := wellFormed.freshStart_convert generates source
    rw [converted] at started first apart
    rw [started]
    refine ⟨number, named, g.freshStart_notMem, first, fun lhs left right member => ?_⟩
    have missing := apart lhs _ member
    simp only [Production.names, List.mem_cons, List.not_mem_nil, or_false, not_or] at missing
    exact missing

/-- A rule that needs links and helpers, beside one that derives no word and one that cannot be
reached. -/
def overgrown : Grammar :=
  ⟨"S", ⟨[("S", [[.terminal 'a', .nonterminal "S", .terminal 'b', .nonterminal "S"],
      [.terminal 'c'], [.nonterminal "U"]]),
    ("U", [[.terminal 'a', .nonterminal "U"]]), ("V", [[.terminal 'c']])], by decide⟩⟩

theorem convert_leaves_nothing_useless_overgrown :
    ofRules overgrown.start overgrown.rules = .ok overgrown ∧
      overgrown.Generates overgrown.start ∧ ∀ source : Script,
        (∀ name ∈ (overgrown.convert source).normalForm.nonterminals,
          (overgrown.convert source).normalForm.Generates name) ∧
        (overgrown.convert source).normalForm.start ∉ ["S", "U", "V"] := by
  have accepted : ofRules overgrown.start overgrown.rules = .ok overgrown := by decide
  have generates : overgrown.Generates overgrown.start := by decide
  refine ⟨accepted, generates, fun source => ?_⟩
  obtain ⟨useful, -, kept⟩ := convert_leaves_nothing_useless accepted source rfl
  obtain ⟨number, -, fresh, -⟩ := kept generates
  exact ⟨fun name defined => ((useful ⟨"S", by decide, generates⟩).1 name defined).2, fresh⟩

end ContextFree.Grammar
