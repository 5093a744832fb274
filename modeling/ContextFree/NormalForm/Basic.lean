import ContextFree.Grammar.Basic

/-!
# Chomsky normal form

In normal form a production is a single terminal or a pair of nonterminals. A normal form is
well formed when its start symbol and both sides of every pair have a rule. It can be seen as
a grammar, and a grammar whose alternatives all have one of the two shapes as a normal form.
-/

namespace ContextFree

/-- A production in normal form. -/
inductive Production where
  | terminal (char : Char)
  | pair (left right : String)
deriving DecidableEq, Repr, Inhabited

namespace Production

/-- A production as it is printed. -/
def text : Production → String
  | terminal char => String.singleton char
  | pair left right => left ++ " " ++ right

/-- The right-hand side that a production stands for. -/
def alternative : Production → Alternative
  | terminal char => [.terminal char]
  | pair left right => [.nonterminal left, .nonterminal right]

/-- The production for a right-hand side of one of the two shapes. -/
def ofAlternative? : Alternative → Option Production
  | [.terminal char] => some (terminal char)
  | [.nonterminal left, .nonterminal right] => some (pair left right)
  | _ => none

/-- The nonterminals of a production. -/
def names : Production → List String
  | terminal _ => []
  | pair left right => [left, right]

/-- The terminals of a production. -/
def chars : Production → List Char
  | terminal char => [char]
  | pair _ _ => []

end Production

/-- A start symbol and the productions of each nonterminal, in definition order. -/
structure NormalForm where
  start : String
  rules : RuleTable (List Production)
deriving DecidableEq

namespace NormalForm

/-- The nonterminals that have a rule, in definition order. -/
def nonterminals (c : NormalForm) : List String := c.rules.names

/-- The productions of a nonterminal, none for a name without a rule. -/
def productions (c : NormalForm) (name : String) : List Production :=
  (c.rules.get? name).getD []

/-- The terminals in use, in ascending order. -/
def terminals (c : NormalForm) : List Char :=
  Alphabet.ofChars (c.rules.values.flatten.flatMap Production.chars)

/-- The number of productions. -/
def productionCount (c : NormalForm) : Nat := c.rules.values.flatten.length

/-- The start symbol has nothing to derive. -/
def isEmptyLanguage (c : NormalForm) : Bool := (c.productions c.start).isEmpty

/-- The line that shows one production. -/
def productionLine (lhs : String) (production : Production) : String :=
  lhs ++ " -> " ++ production.text ++ "\n"

/-- A normal form as text, one line for each production. -/
def render (c : NormalForm) : String :=
  String.join (c.rules.entries.flatMap fun entry => entry.2.map (productionLine entry.1))

/-! ## Faults -/

/-- All that is wrong with a normal form, in the order in which it is looked for: a start
symbol without a rule, then the sides of the pairs. -/
def faults (c : NormalForm) : List GrammarError :=
  (if c.rules.contains c.start then [] else [.missingStart c.start]) ++
  c.rules.entries.flatMap fun entry =>
    entry.2.flatMap fun production =>
      (production.names.filter (!c.rules.contains ·)).map (.undefinedNonterminal entry.1)

/-- The normal form with the given start symbol and rules, or its first fault. -/
def ofRules (start : String) (rules : RuleTable (List Production)) :
    Except GrammarError NormalForm :=
  match faults ⟨start, rules⟩ with
  | [] => .ok ⟨start, rules⟩
  | fault :: _ => .error fault

/-- The start symbol and both sides of every pair have a rule. -/
structure WellFormed (c : NormalForm) : Prop where
  start_mem : c.start ∈ c.nonterminals
  defined : ∀ entry ∈ c.rules.entries, ∀ production ∈ entry.2,
    ∀ name ∈ production.names, name ∈ c.nonterminals

/-- A normal form without faults is a well-formed one. -/
theorem faults_eq_nil_iff {c : NormalForm} : c.faults = [] ↔ c.WellFormed := by
  simp only [faults, List.append_eq_nil_iff, List.flatMap_eq_nil_iff, List.map_eq_nil_iff,
    List.filter_eq_nil_iff, Bool.not_eq_true', Bool.not_eq_false, RuleTable.contains_iff_mem]
  constructor
  · rintro ⟨hstart, hrules⟩
    refine ⟨?_, hrules⟩
    by_cases hc : c.start ∈ c.rules.names
    · exact hc
    · rw [if_neg hc] at hstart
      exact absurd hstart (by simp)
  · intro h
    exact ⟨if_pos h.start_mem, h.defined⟩

/-- `ofRules` accepts exactly the well-formed normal forms, and changes nothing. -/
theorem ofRules_eq_ok_iff {start : String} {rules : RuleTable (List Production)}
    {c : NormalForm} : ofRules start rules = .ok c ↔ c = ⟨start, rules⟩ ∧ c.WellFormed := by
  unfold ofRules
  cases h : faults ⟨start, rules⟩ with
  | nil =>
    simp only [Except.ok.injEq]
    constructor
    · intro hc
      exact ⟨hc.symm, hc ▸ faults_eq_nil_iff.mp h⟩
    · intro hc
      exact hc.1.symm
  | cons fault rest =>
    simp only [reduceCtorEq, false_iff, not_and]
    rintro rfl hw
    rw [faults_eq_nil_iff.mpr hw] at h
    cases h

/-! ## Normal forms and grammars -/

/-- The grammar with the same productions. -/
def toGrammar (c : NormalForm) : Grammar :=
  ⟨c.start, c.rules.mapValues fun _ productions => productions.map Production.alternative⟩

/-- One error for each alternative of the grammar that has neither of the two shapes. -/
def misfits (g : Grammar) : List GrammarError :=
  g.rules.entries.flatMap fun entry =>
    (entry.2.filter fun alternative => (Production.ofAlternative? alternative).isNone).map
      fun alternative => .notNormalForm entry.1 (Alternative.text alternative)

/-- The grammar seen as a normal form, or the error for its first alternative that has neither
of the two shapes. -/
def ofGrammar (g : Grammar) : Except GrammarError NormalForm :=
  match misfits g with
  | [] => .ok ⟨g.start, g.rules.mapValues fun _ alternatives =>
      alternatives.filterMap Production.ofAlternative?⟩
  | error :: _ => .error error

/-! ## Derivations -/

/-- The nonterminal derives the word: by a terminal, or by a pair whose sides derive its two
parts. -/
inductive Derives (c : NormalForm) : String → Word → Prop
  | terminal {name : String} {char : Char} :
      .terminal char ∈ c.productions name → Derives c name [char]
  | pair {name left right : String} {front back : Word} :
      .pair left right ∈ c.productions name → Derives c left front → Derives c right back →
      Derives c name (front ++ back)

/-- The word belongs to the language of the normal form. -/
def Accepts (c : NormalForm) (word : Word) : Prop := c.Derives c.start word

end NormalForm

end ContextFree
