import ContextFree.NormalForm.Basic
import ContextFree.Proofs.RuleTable
import Mathlib.Logic.Relation

/-!
# Derivations in normal form

A nonterminal in normal form is useful when it can be reached from the start symbol and derives
a word. Where all nonterminals are useful nothing is idle: every production is applied in the
derivation of some word of the language (`Trim.exists_derivesUsing`).
-/

namespace ContextFree.NormalForm

variable {c : NormalForm} {name lhs : String} {production : Production} {word : Word}

theorem productions_eq_of_mem_entries {productions : List Production}
    (filed : (name, productions) ∈ c.rules.entries) : c.productions name = productions := by
  rw [NormalForm.productions, RuleTable.get?_eq_some_iff.mpr filed, Option.getD_some]

theorem mem_productions_iff :
    production ∈ c.productions name ↔
      ∃ productions, (name, productions) ∈ c.rules.entries ∧ production ∈ productions :=
  RuleTable.mem_getD_iff

theorem mem_nonterminals_of_mem_productions (member : production ∈ c.productions name) :
    name ∈ c.nonterminals := by
  obtain ⟨productions, filed, -⟩ := mem_productions_iff.mp member
  exact RuleTable.mem_names_iff.mpr ⟨productions, filed⟩

theorem wellFormed_iff :
    c.WellFormed ↔ c.start ∈ c.nonterminals ∧ ∀ name, ∀ production ∈ c.productions name,
      ∀ other ∈ production.names, other ∈ c.nonterminals := by
  refine ⟨fun wellFormed => ⟨wellFormed.start_mem, ?_⟩, fun ⟨startMember, defined⟩ => ?_⟩
  · intro name production member
    obtain ⟨productions, filed, member⟩ := mem_productions_iff.mp member
    exact wellFormed.defined _ filed production member
  · refine ⟨startMember, fun entry filed production member => ?_⟩
    exact defined entry.1 production (mem_productions_iff.mpr ⟨entry.2, filed, member⟩)

theorem mem_terminals_iff {char : Char} :
    char ∈ c.terminals ↔ ∃ name, .terminal char ∈ c.productions name := by
  rw [terminals, Alphabet.mem_ofChars, List.mem_flatMap]
  simp only [mem_productions_iff, RuleTable.values, List.mem_flatten, List.mem_map]
  constructor
  · intro listed
    rcases listed with ⟨production, ⟨_, ⟨⟨name, productions⟩, filed, rfl⟩, member⟩, occurs⟩
    cases production with
    | terminal other =>
      cases List.mem_singleton.mp occurs
      exact ⟨name, productions, filed, member⟩
    | pair left right => cases occurs
  · intro listed
    rcases listed with ⟨name, productions, filed, member⟩
    exact ⟨.terminal char, ⟨productions, ⟨(name, productions), filed, rfl⟩, member⟩,
      List.mem_singleton.mpr rfl⟩

/-! ## What a production derives -/

/-- The word that a production stands for, or the parts of it that both sides derive. -/
def Produces (c : NormalForm) : Production → Word → Prop
  | .terminal char, word => word = [char]
  | .pair left right, word =>
    ∃ front back, word = front ++ back ∧ c.Derives left front ∧ c.Derives right back

theorem derives_iff_produces :
    c.Derives name word ↔ ∃ production ∈ c.productions name, c.Produces production word := by
  constructor
  · intro derives
    cases derives with
    | terminal member => exact ⟨_, member, rfl⟩
    | pair member left right => exact ⟨_, member, _, _, rfl, left, right⟩
  · rintro ⟨production, member, produces⟩
    cases production with
    | terminal char =>
      obtain rfl := produces
      exact .terminal member
    | pair left right =>
      obtain ⟨front, back, rfl, derivesLeft, derivesRight⟩ := produces
      exact .pair member derivesLeft derivesRight

theorem Derives.mem_nonterminals (derives : c.Derives name word) : name ∈ c.nonterminals := by
  obtain ⟨production, member, -⟩ := derives_iff_produces.mp derives
  exact mem_nonterminals_of_mem_productions member

theorem Derives.ne_nil (derives : c.Derives name word) : word ≠ [] := by
  induction derives with
  | terminal => exact List.cons_ne_nil _ _
  | pair _ _ _ nonempty _ => exact List.append_ne_nil_of_left_ne_nil nonempty _

/-! ## Useful nonterminals -/

/-- The nonterminal derives at least one word. -/
def Generates (c : NormalForm) (name : String) : Prop := ∃ word, c.Derives name word

/-- Pairs, one after another, lead from one nonterminal to another. -/
def Reaches (c : NormalForm) : String → String → Prop :=
  Relation.ReflTransGen fun origin target => ∃ production ∈ c.productions origin,
    target ∈ production.names

/-- The name is reached from the start symbol and derives a word. -/
structure Useful (c : NormalForm) (name : String) : Prop where
  reached : c.Reaches c.start name
  generates : c.Generates name

/-- Every nonterminal is useful. -/
def Trim (c : NormalForm) : Prop := ∀ name ∈ c.nonterminals, c.Useful name

/-- The nonterminal derives the word, and somewhere in the derivation `lhs` is replaced by
`production`. -/
inductive DerivesUsing (c : NormalForm) (lhs : String) (production : Production) :
    String → Word → Prop
  | here {word : Word} : production ∈ c.productions lhs → c.Produces production word →
      DerivesUsing c lhs production lhs word
  | left {name left right : String} {front back : Word} :
      .pair left right ∈ c.productions name → DerivesUsing c lhs production left front →
      c.Derives right back → DerivesUsing c lhs production name (front ++ back)
  | right {name left right : String} {front back : Word} :
      .pair left right ∈ c.productions name → c.Derives left front →
      DerivesUsing c lhs production right back → DerivesUsing c lhs production name (front ++ back)

theorem DerivesUsing.derives (derives : c.DerivesUsing lhs production name word) :
    c.Derives name word := by
  induction derives with
  | here member produces => exact derives_iff_produces.mpr ⟨_, member, produces⟩
  | left member _ other ih => exact .pair member ih other
  | right member other _ ih => exact .pair member other ih

theorem Trim.exists_produces (trim : c.Trim) (wellFormed : c.WellFormed)
    (member : production ∈ c.productions name) : ∃ word, c.Produces production word := by
  have sides : ∀ other ∈ production.names, c.Generates other := by
    intro other occurs
    have defined := (wellFormed_iff.mp wellFormed).2 name production member other occurs
    exact (trim other defined).generates
  cases production with
  | terminal char => exact ⟨[char], rfl⟩
  | pair left right =>
    obtain ⟨front, derivesLeft⟩ := sides left List.mem_cons_self
    obtain ⟨back, derivesRight⟩ := sides right (List.mem_cons_of_mem _ List.mem_cons_self)
    exact ⟨front ++ back, front, back, rfl, derivesLeft, derivesRight⟩

theorem Trim.exists_derivesUsing_of_reaches (trim : c.Trim) (wellFormed : c.WellFormed)
    (member : production ∈ c.productions lhs) (reached : c.Reaches name lhs) :
    ∃ word, c.DerivesUsing lhs production name word := by
  -- From `lhs` back to `name`, with words of their own for the sides that are passed by.
  induction reached using Relation.ReflTransGen.head_induction_on with
  | refl =>
    obtain ⟨word, produces⟩ := trim.exists_produces wellFormed member
    exact ⟨word, .here member produces⟩
  | head step _ ih =>
    obtain ⟨word, derives⟩ := ih
    obtain ⟨used, taken, occurs⟩ := step
    have produces := trim.exists_produces wellFormed taken
    cases used with
    | terminal char => cases occurs
    | pair left right =>
      obtain ⟨-, front, back, -, derivesLeft, derivesRight⟩ := produces
      rcases List.mem_cons.mp occurs with equal | occurs
      · subst equal
        exact ⟨word ++ back, .left taken derives derivesRight⟩
      · cases List.mem_singleton.mp occurs
        exact ⟨front ++ word, .right taken derivesLeft derives⟩

/-- Where all nonterminals are useful, every production occurs in the derivation of a word of
the language. -/
theorem Trim.exists_derivesUsing (trim : c.Trim) (wellFormed : c.WellFormed)
    (member : production ∈ c.productions lhs) :
    ∃ word, c.DerivesUsing lhs production c.start word :=
  trim.exists_derivesUsing_of_reaches wellFormed member
    (trim lhs (mem_nonterminals_of_mem_productions member)).reached

end ContextFree.NormalForm
