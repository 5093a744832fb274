import ContextFree.Proofs.ConversionChecks
import ContextFree.Proofs.Form

/-!
# Normal forms as grammars and back

A normal form and the grammar with the same productions are two views of one thing: they are
printed alike, use the same terminals and derive the same words, and the normal form comes back
from the grammar as it was.

The other way round, a grammar is a normal form if all of its alternatives have one of the two
shapes, and then it comes back as it was, too. If one has not, the first such alternative in
definition order is named (`Grammar.FirstMisfit`).
-/

namespace ContextFree

/-- The alternative is a single terminal or two nonterminals. -/
def Alternative.InShape (alternative : Alternative) : Prop :=
  (∃ char, alternative = [.terminal char]) ∨
    ∃ left right, alternative = [.nonterminal left, .nonterminal right]

namespace Production

theorem chars_alternative (production : Production) :
    Alternative.chars production.alternative = production.chars := by
  cases production <;> rfl

theorem ofAlternative?_eq_none_iff {alternative : Alternative} :
    ofAlternative? alternative = none ↔ ¬ Alternative.InShape alternative := by
  constructor
  · rintro misfit (⟨char, rfl⟩ | ⟨left, right, rfl⟩)
    · cases misfit
    · cases misfit
  · intro misfit
    unfold ofAlternative?
    split
    · exact absurd (.inl ⟨_, rfl⟩) misfit
    · exact absurd (.inr ⟨_, _, rfl⟩) misfit
    · rfl

theorem exists_ofAlternative?_eq {alternative : Alternative}
    (shaped : Alternative.InShape alternative) :
    ∃ production, ofAlternative? alternative = some production := by
  rcases shaped with ⟨char, rfl⟩ | ⟨left, right, rfl⟩
  · exact ⟨_, rfl⟩
  · exact ⟨_, rfl⟩

/-- Alternatives of the two shapes come back from the productions that they are taken for. -/
theorem map_alternative_filterMap {alternatives : List Alternative}
    (shaped : ∀ alternative ∈ alternatives, Alternative.InShape alternative) :
    (alternatives.filterMap ofAlternative?).map alternative = alternatives := by
  induction alternatives with
  | nil => rfl
  | cons first rest ih =>
    obtain ⟨production, taken⟩ := exists_ofAlternative?_eq (shaped first List.mem_cons_self)
    rw [List.filterMap_cons_some taken, List.map_cons, ← eq_alternative_of_ofAlternative? taken,
      ih fun alternative member => shaped alternative (List.mem_cons_of_mem _ member)]

end Production

/-! ## The grammar with the same productions -/

namespace NormalForm

theorem terminals_toGrammar (c : NormalForm) : c.toGrammar.terminals = c.terminals := by
  have listed : c.toGrammar.rules.values.flatten =
      c.rules.values.flatten.map Production.alternative := by
    simp [toGrammar, RuleTable.mapValues, RuleTable.values, List.map_flatten, Function.comp_def]
  rw [Grammar.terminals, terminals, listed, List.flatMap_map]
  simp only [Production.chars_alternative]

/-- A nonterminal derives the same words in both. -/
theorem derives_toGrammar_iff {c : NormalForm} {name : String} {word : Word} :
    c.toGrammar.Derives name word ↔ c.Derives name word := by
  constructor
  · intro derives
    refine derives.of_closed c.Derives fun name alternative member word reads => ?_
    rw [alternatives_toGrammar] at member
    obtain ⟨production, listed, rfl⟩ := List.mem_map.mp member
    exact derives_iff_produces.mpr ⟨production, listed, produces_iff_reads.mpr reads⟩
  · intro derives
    induction derives with
    | terminal member =>
      refine Grammar.derives_iff_reads.mpr ⟨_, alternative_mem_toGrammar member, ?_⟩
      exact reads_terminal.mpr rfl
    | pair member _ _ derivesLeft derivesRight =>
      refine Grammar.derives_iff_reads.mpr ⟨_, alternative_mem_toGrammar member, ?_⟩
      exact ⟨_, _, rfl, derivesLeft, reads_nonterminal.mpr derivesRight⟩

end NormalForm

/-! ## Grammars of the shape of a normal form -/

namespace Grammar

/-- The alternative of `lhs` is the first one, in definition order, that has neither shape. -/
def FirstMisfit (g : Grammar) (lhs : String) (alternative : Alternative) : Prop :=
  ¬ Alternative.InShape alternative ∧ ∃ before after,
    g.productions = before ++ (lhs, alternative) :: after ∧
    ∀ production ∈ before, Alternative.InShape production.2

end Grammar

namespace NormalForm

variable {g : Grammar} {c : NormalForm}

theorem misfits_eq (g : Grammar) :
    misfits g = (g.productions.filter fun production =>
      (Production.ofAlternative? production.2).isNone).map fun production =>
        .notNormalForm production.1 (Alternative.text production.2) := by
  simp [misfits, Grammar.productions, Grammar.productionsOf, List.filter_flatMap,
    List.map_flatMap, List.filter_map, Function.comp_def]

theorem misfits_eq_nil_iff :
    misfits g = [] ↔
      ∀ name, ∀ alternative ∈ g.alternatives name, Alternative.InShape alternative := by
  simp only [misfits_eq, List.map_eq_nil_iff, List.filter_eq_nil_iff, Option.isNone_iff_eq_none,
    Production.ofAlternative?_eq_none_iff, not_not, Prod.forall, Grammar.mem_productions_iff]

theorem exists_ofGrammar_eq_ok_iff :
    (∃ c, ofGrammar g = .ok c) ↔
      ∀ name, ∀ alternative ∈ g.alternatives name, Alternative.InShape alternative := by
  rw [← misfits_eq_nil_iff, ofGrammar]
  cases misfits g with
  | nil => simp
  | cons error rest => simp

theorem firstMisfit_iff {lhs : String} {alternative : Alternative} :
    g.FirstMisfit lhs alternative ↔ g.productions.find? (fun production =>
      (Production.ofAlternative? production.2).isNone) = some (lhs, alternative) := by
  have shaped (alternative : Alternative) : (Production.ofAlternative? alternative).isNone = false ↔
      Alternative.InShape alternative := by
    rw [← not_iff_not, Bool.not_eq_false, Option.isNone_iff_eq_none,
      Production.ofAlternative?_eq_none_iff]
  rw [List.find?_eq_some_iff_append, Option.isNone_iff_eq_none,
    Production.ofAlternative?_eq_none_iff]
  simp only [Bool.not_eq_true', shaped]
  rfl

/-- A grammar with an alternative of another shape is refused for the first one. -/
theorem ofGrammar_eq_error_iff {error : GrammarError} :
    ofGrammar g = .error error ↔ ∃ lhs alternative, g.FirstMisfit lhs alternative ∧
      error = .notNormalForm lhs (Alternative.text alternative) := by
  have head : ofGrammar g = .error error ↔ (misfits g).head? = some error := by
    rw [ofGrammar]
    cases misfits g with
    | nil => simp
    | cons first rest => simp
  rw [head, misfits_eq, List.head?_map, List.head?_filter, Option.map_eq_some_iff]
  simp only [Prod.exists, firstMisfit_iff, eq_comm]

/-- The grammar comes back from its normal form, with its rules in their order. -/
theorem toGrammar_of_ofGrammar (converted : ofGrammar g = .ok c) : c.toGrammar = g := by
  have shaped := exists_ofGrammar_eq_ok_iff.mp ⟨c, converted⟩
  have rules : c.toGrammar.rules = g.rules := by
    apply RuleTable.ext_getD
    · rw [← Grammar.nonterminals, nonterminals_toGrammar, nonterminals_of_ofGrammar converted,
        Grammar.nonterminals]
    · intro name
      rw [← Grammar.alternatives, ← Grammar.alternatives, alternatives_toGrammar,
        productions_of_ofGrammar converted]
      exact Production.map_alternative_filterMap (shaped name)
  rw [eq_of_ofGrammar converted] at rules ⊢
  exact congrArg (Grammar.mk g.start) rules

/-! ## No loss either way -/

/-- A normal form and the grammar with its productions are printed alike, have the same terminals
and derive the same words, and the grammar is taken for that normal form again. A grammar is taken
for a normal form exactly if all of its alternatives have one of the two shapes, and comes back
from it as it was; otherwise the first alternative of another shape is named, with its left-hand
side. -/
theorem ofGrammar_inverts_toGrammar :
    (∀ c : NormalForm, ofGrammar c.toGrammar = .ok c ∧ c.toGrammar.render = c.render ∧
      c.toGrammar.terminals = c.terminals ∧
      ∀ name word, c.toGrammar.Derives name word ↔ c.Derives name word) ∧
    (∀ g : Grammar, ((∃ c, ofGrammar g = .ok c) ↔
        ∀ name, ∀ alternative ∈ g.alternatives name, Alternative.InShape alternative) ∧
      (∀ c, ofGrammar g = .ok c → c.toGrammar = g) ∧
      ∀ error, ofGrammar g = .error error ↔ ∃ lhs alternative, g.FirstMisfit lhs alternative ∧
        error = .notNormalForm lhs (String.intercalate " " (alternative.map Symbol.text))) := by
  constructor
  · intro c
    exact ⟨c.ofGrammar_toGrammar, c.render_toGrammar, c.terminals_toGrammar,
      fun name word => derives_toGrammar_iff⟩
  · intro g
    exact ⟨exists_ofGrammar_eq_ok_iff, fun c => toGrammar_of_ofGrammar,
      fun error => ofGrammar_eq_error_iff⟩

/-- A production is repeated, a rule is empty, and the start symbol is not the first one. -/
def disordered : NormalForm :=
  ⟨"S", ⟨[("A", [.terminal 'a', .pair "S" "A", .terminal 'a']), ("E", []),
    ("S", [.pair "A" "A", .pair "A" "E"])], by decide⟩⟩

/-- Three alternatives are no productions in normal form, two of them of the same rule. -/
def misshapen : Grammar :=
  ⟨"S", ⟨[("S", [[.nonterminal "A", .nonterminal "A"]]),
    ("A", [[.terminal 'a'], [.terminal 'a', .nonterminal "S"], [.nonterminal "S"]]),
    ("B", [[.nonterminal "B"]])], by decide⟩⟩

theorem ofGrammar_inverts_toGrammar_disordered :
    ofRules disordered.start disordered.rules = .ok disordered ∧
      ofGrammar disordered.toGrammar = .ok disordered ∧
      disordered.toGrammar.render = "A -> a\nA -> S A\nA -> a\nS -> A A\nS -> A E\n" ∧
      (∀ word, disordered.toGrammar.Derives "S" word ↔ disordered.Derives "S" word) ∧
      (∀ alternative ∈ disordered.toGrammar.alternatives "A", Alternative.InShape alternative) ∧
      Grammar.ofRules misshapen.start misshapen.rules = .ok misshapen ∧
      (¬ ∃ c, ofGrammar misshapen = .ok c) ∧
      ofGrammar misshapen = .error (.notNormalForm "A" "a S") := by
  obtain ⟨back, printed, -, derives⟩ := ofGrammar_inverts_toGrammar.1 disordered
  have shaped := (ofGrammar_inverts_toGrammar.2 disordered.toGrammar).1.mp ⟨_, back⟩
  obtain ⟨converts, -, refused⟩ := ofGrammar_inverts_toGrammar.2 misshapen
  have unshaped : ¬ Alternative.InShape [.terminal 'a', .nonterminal "S"] := by
    simp [Alternative.InShape]
  have first : misshapen.FirstMisfit "A" [.terminal 'a', .nonterminal "S"] :=
    ⟨unshaped, [("S", [.nonterminal "A", .nonterminal "A"]), ("A", [.terminal 'a'])], _, rfl,
      by simp [Alternative.InShape]⟩
  refine ⟨by decide, back, printed.trans (by decide), derives "S", shaped "A", by decide,
    fun taken => ?_, (refused _).mpr ⟨_, _, first, by decide⟩⟩
  exact unshaped (converts.mp taken "A" _ (by decide))

end NormalForm

end ContextFree
