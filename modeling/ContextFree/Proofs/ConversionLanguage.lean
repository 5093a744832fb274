import ContextFree.Proofs.Conversion
import ContextFree.Proofs.Recognizer

/-!
# The language of a conversion

A grammar whose start symbol derives a word keeps its language in the conversion, and the
recognizer of the normal form decides it. For any other grammar the random source may have a
say: it chooses, among the nonterminals that do derive a word, the one whose language the
normal form gets. Where there is none, the normal form has no words at all.
-/

namespace ContextFree.Grammar

variable {g : Grammar} {start : String} {rules : RuleTable (List Alternative)} {word : Word}

/-- The recognizer of a conversion looks for what the start symbol derives in the prepared
grammar. -/
theorem WellFormed.recognise_convert_iff_prepared {σ : Type} [RandomSource σ]
    (wellFormed : g.WellFormed) (source : σ) :
    (Recognizer.ofNormalForm (g.convert source).normalForm).recognise word = true ↔
      g.prepared.Derives (g.convert source).normalForm.start word := by
  rw [Recognizer.recognise_eq_true_iff]
  exact wellFormed.accepts_convert_iff source

/-- The recognizer of the normal form decides the language of a grammar whose start symbol
derives a word. -/
theorem recognise_convert_iff_accepts {σ : Type} [RandomSource σ]
    (accepted : ofRules start rules = .ok g) (generates : g.Generates g.start) (source : σ)
    (word : Word) :
    (Recognizer.ofNormalForm (g.convert source).normalForm).recognise word = true ↔
      g.Accepts word := by
  have wellFormed := wellFormed_of_ofRules accepted
  obtain ⟨converted, -⟩ := wellFormed.convert_of_generates generates source
  rw [wellFormed.recognise_convert_iff_prepared, converted, start_reshape, start_usefulFrom]
  exact wellFormed.derives_prepared_start_iff

/-- Any number of `a`, a `c` and as many `b`, with a cycle of unit productions and a useless
nonterminal. -/
def nested : Grammar :=
  ⟨"S", ⟨[("S", [[.nonterminal "T"], [.terminal 'a', .nonterminal "S", .terminal 'b']]),
    ("T", [[.nonterminal "S"], [.terminal 'c']]), ("U", [[.nonterminal "U", .nonterminal "T"]])],
    by decide⟩⟩

theorem recognise_convert_iff_accepts_nested :
    ofRules nested.start nested.rules = .ok nested ∧ nested.Generates nested.start ∧
      ∀ word, (Recognizer.ofNormalForm (nested.convert (Script.mk [])).normalForm).recognise word =
        true ↔ nested.Accepts word := by
  have accepted : ofRules nested.start nested.rules = .ok nested := by decide
  have generates : nested.Generates nested.start := by decide
  exact ⟨accepted, generates, recognise_convert_iff_accepts accepted generates (Script.mk [])⟩

/-- The random source counts only where the start symbol derives no word and another
nonterminal does. Then one draw chooses the nonterminal that starts the normal form, and the
words of the normal form are those that the grammar derives from it. -/
theorem convert_depends_on_substitute (accepted : ofRules start rules = .ok g) :
    ((g.Generates g.start ∨ ∀ name ∈ g.nonterminals, ¬ g.Generates name) →
      (∀ (σ τ : Type) [RandomSource σ] [RandomSource τ] (first : σ) (second : τ),
        (g.convert first).source = first ∧
          (g.convert first).normalForm = (g.convert second).normalForm)) ∧
    ((∀ name ∈ g.nonterminals, ¬ g.Generates name) →
      ∀ (σ : Type) [RandomSource σ] (source : σ) (word : Word),
        (Recognizer.ofNormalForm (g.convert source).normalForm).recognise word = false) ∧
    (¬ g.Generates g.start → (∃ name ∈ g.nonterminals, g.Generates name) →
      ∀ (σ : Type) [RandomSource σ] (source : σ),
        ∃ substitute, (g.nonterminals.filter (g.Generates ·))[(RandomSource.below64
            (g.nonterminals.filter (g.Generates ·)).length source).1]? = some substitute ∧
          (g.convert source).source = (RandomSource.below64
            (g.nonterminals.filter (g.Generates ·)).length source).2 ∧
          (g.convert source).normalForm.start = substitute ∧
          ∀ word, (Recognizer.ofNormalForm (g.convert source).normalForm).recognise word = true ↔
            g.Derives substitute word) := by
  have wellFormed := wellFormed_of_ofRules accepted
  have everywhere : (∀ name ∈ g.nonterminals, ¬ g.Generates name) → ∀ name, ¬ g.Generates name :=
    fun empty name generates => empty name generates.mem_nonterminals generates
  refine ⟨?_, ?_, ?_⟩
  · rintro (generates | empty) σ τ _ _ first second
    · obtain ⟨same, unread⟩ := wellFormed.convert_of_generates generates first
      rw [same, (wellFormed.convert_of_generates generates second).1]
      exact ⟨unread, rfl⟩
    · obtain ⟨same, unread⟩ := wellFormed.convert_of_empty (everywhere empty) first
      rw [same, (wellFormed.convert_of_empty (everywhere empty) second).1]
      exact ⟨unread, rfl⟩
  · intro empty σ _ source word
    rw [Bool.eq_false_iff]
    intro recognised
    have derives := (wellFormed.recognise_convert_iff_prepared source).mp recognised
    exact wellFormed.not_generates_prepared (everywhere empty) _ ⟨word, derives⟩
  · rintro useless ⟨name, -, generates⟩ σ _ source
    obtain ⟨substitute, chosen, started, drawn⟩ :=
      wellFormed.convert_of_not_generates useless generates source
    refine ⟨substitute, chosen, drawn, started, fun word => ?_⟩
    have old : substitute ∈ g.nonterminals :=
      (List.mem_filter.mp (List.mem_of_getElem? chosen)).1
    rw [wellFormed.recognise_convert_iff_prepared, started]
    exact wellFormed.derives_prepared_iff old

/-- A start symbol that only leads back to itself, and two nonterminals that can stand in for
it. -/
def startless : Grammar :=
  ⟨"S", ⟨[("S", [[.nonterminal "S", .nonterminal "A"]]), ("A", [[.terminal 'a']]),
    ("B", [[.terminal 'b', .nonterminal "A"], [.nonterminal "S"]])], by decide⟩⟩

theorem convert_depends_on_substitute_startless :
    ofRules startless.start startless.rules = .ok startless ∧
      ¬ startless.Generates startless.start ∧
      startless.nonterminals.filter (startless.Generates ·) = ["A", "B"] ∧
      ∀ source : Script,
        ∃ substitute, ["A", "B"][(RandomSource.below64 2 source).1]? = some substitute ∧
          ∀ word, (Recognizer.ofNormalForm (startless.convert source).normalForm).recognise word =
            true ↔ startless.Derives substitute word := by
  have accepted : ofRules startless.start startless.rules = .ok startless := by decide
  have useless : ¬ startless.Generates startless.start := by decide
  have listed : startless.nonterminals.filter (startless.Generates ·) = ["A", "B"] := by decide
  refine ⟨accepted, useless, listed, fun source => ?_⟩
  obtain ⟨substitute, chosen, -, -, decides⟩ :=
    (convert_depends_on_substitute accepted).2.2 useless ⟨"A", by decide, by decide⟩ Script source
  rw [listed] at chosen
  exact ⟨substitute, chosen, decides⟩

end ContextFree.Grammar
