import ContextFree.Alphabet
import ContextFree.RuleTable
import ContextFree.Symbol

/-!
# Context-free grammars

A grammar has a start symbol and, for each of its nonterminals, a list of alternatives. It is
well formed when its start symbol has a rule, no alternative is empty and every nonterminal
in an alternative has a rule. `Grammar.ofRules` accepts exactly the well-formed grammars and
names the first fault of any other.
-/

namespace ContextFree

/-- Why something is not a grammar of the wanted kind. -/
inductive GrammarError where
  | noRules
  | missingStart (name : String)
  | emptyAlternative (lhs : String)
  | undefinedNonterminal (lhs name : String)
  | notNormalForm (lhs production : String)
deriving DecidableEq, Repr

/-- The wording of a grammar error. -/
def GrammarError.message : GrammarError → String
  | noRules => "grammar has no rules"
  | missingStart name => "start symbol `" ++ name ++ "` has no rule"
  | emptyAlternative lhs =>
    "`" ++ lhs ++ "` has an empty alternative, empty productions are not supported"
  | undefinedNonterminal lhs name =>
    "`" ++ lhs ++ "` refers to undefined nonterminal `" ++ name ++ "`"
  | notNormalForm lhs production =>
    "`" ++ lhs ++ " -> " ++ production ++ "` is not in Chomsky normal form"

/-- A start symbol and the alternatives of each nonterminal, in definition order. -/
structure Grammar where
  start : String
  rules : RuleTable (List Alternative)
deriving DecidableEq

namespace Grammar

/-- The nonterminals that have a rule, in definition order. -/
def nonterminals (g : Grammar) : List String := g.rules.names

/-- The alternatives of a nonterminal, none for a name without a rule. -/
def alternatives (g : Grammar) (name : String) : List Alternative :=
  (g.rules.get? name).getD []

/-- The terminals in use, in ascending order. -/
def terminals (g : Grammar) : List Char :=
  Alphabet.ofChars (g.rules.values.flatten.flatMap Alternative.chars)

/-- The number of productions. -/
def productionCount (g : Grammar) : Nat := g.rules.values.flatten.length

/-- The line that shows one production. -/
def productionLine (lhs : String) (alternative : Alternative) : String :=
  lhs ++ " -> " ++ Alternative.text alternative ++ "\n"

/-- A grammar as text, one line for each production. -/
def render (g : Grammar) : String :=
  String.join (g.rules.entries.flatMap fun entry => entry.2.map (productionLine entry.1))

/-! ## Faults -/

/-- What is wrong with one alternative of `lhs`: it is empty, or it uses a name that is not
among `defined`. -/
def alternativeFaults (defined : List String) (lhs : String) (alternative : Alternative) :
    List GrammarError :=
  if alternative.isEmpty then [.emptyAlternative lhs]
  else ((Alternative.names alternative).filter (!defined.contains ·)).map
    (.undefinedNonterminal lhs)

/-- All that is wrong with a grammar, in the order in which it is looked for: no rules at all,
a start symbol without a rule, then the alternatives rule by rule. -/
def faults (g : Grammar) : List GrammarError :=
  (if g.rules.names.isEmpty then [.noRules] else []) ++
  (if g.rules.contains g.start then [] else [.missingStart g.start]) ++
  g.rules.entries.flatMap fun entry =>
    entry.2.flatMap (alternativeFaults g.rules.names entry.1)

/-- The grammar with the given start symbol and rules, or its first fault. -/
def ofRules (start : String) (rules : RuleTable (List Alternative)) :
    Except GrammarError Grammar :=
  match faults ⟨start, rules⟩ with
  | [] => .ok ⟨start, rules⟩
  | fault :: _ => .error fault

/-- The start symbol has a rule, no alternative is empty and every nonterminal in use has a
rule. -/
structure WellFormed (g : Grammar) : Prop where
  start_mem : g.start ∈ g.nonterminals
  ne_nil : ∀ entry ∈ g.rules.entries, ∀ alternative ∈ entry.2, alternative ≠ []
  defined : ∀ entry ∈ g.rules.entries, ∀ alternative ∈ entry.2,
    ∀ name ∈ Alternative.names alternative, name ∈ g.nonterminals

theorem alternativeFaults_eq_nil_iff {defined : List String} {lhs : String}
    {alternative : Alternative} :
    alternativeFaults defined lhs alternative = [] ↔
      alternative ≠ [] ∧ ∀ name ∈ Alternative.names alternative, name ∈ defined := by
  unfold alternativeFaults
  cases alternative with
  | nil => simp
  | cons symbol rest => simp

/-- A grammar without faults is a well-formed one. -/
theorem faults_eq_nil_iff {g : Grammar} : g.faults = [] ↔ g.WellFormed := by
  constructor
  · intro h
    simp only [faults, List.append_eq_nil_iff, List.flatMap_eq_nil_iff,
      alternativeFaults_eq_nil_iff] at h
    obtain ⟨⟨_, hstart⟩, hrules⟩ := h
    refine ⟨?_, fun entry he alternative ha => (hrules entry he alternative ha).1,
      fun entry he alternative ha => (hrules entry he alternative ha).2⟩
    by_cases hc : g.rules.contains g.start = true
    · exact RuleTable.contains_iff_mem.mp hc
    · rw [if_neg hc] at hstart
      exact absurd hstart (by simp)
  · intro h
    simp only [faults, List.append_eq_nil_iff, List.flatMap_eq_nil_iff,
      alternativeFaults_eq_nil_iff]
    refine ⟨⟨?_, ?_⟩, fun entry he alternative ha =>
      ⟨h.ne_nil entry he alternative ha, h.defined entry he alternative ha⟩⟩
    · have hne : g.rules.names ≠ [] := List.ne_nil_of_mem h.start_mem
      simp [hne]
    · rw [if_pos (RuleTable.contains_iff_mem.mpr h.start_mem)]

/-- `ofRules` accepts exactly the well-formed grammars, and changes nothing. -/
theorem ofRules_eq_ok_iff {start : String} {rules : RuleTable (List Alternative)} {g : Grammar} :
    ofRules start rules = .ok g ↔ g = ⟨start, rules⟩ ∧ g.WellFormed := by
  unfold ofRules
  cases h : faults ⟨start, rules⟩ with
  | nil =>
    simp only [Except.ok.injEq]
    constructor
    · intro hg
      exact ⟨hg.symm, hg ▸ faults_eq_nil_iff.mp h⟩
    · intro hg
      exact hg.1.symm
  | cons fault rest =>
    simp only [reduceCtorEq, false_iff, not_and]
    rintro rfl hw
    rw [faults_eq_nil_iff.mpr hw] at h
    cases h

end Grammar

end ContextFree
