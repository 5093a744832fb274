import ContextFree.Grammar.Basic

/-!
# Derivations

`g.Yields form word` holds when every nonterminal of the form can be replaced, step by step,
until the word is left; `g.Derives name word` is the case of a form with a single nonterminal.
-/

namespace ContextFree.Grammar

/-- The form can be rewritten to the word: a terminal stands for itself, and a nonterminal for
whatever one of its alternatives yields. -/
inductive Yields (g : Grammar) : Alternative → Word → Prop
  | nil : Yields g [] []
  | terminal {char : Char} {rest : Alternative} {word : Word} :
      Yields g rest word → Yields g (.terminal char :: rest) (char :: word)
  | nonterminal {name : String} {alternative rest : Alternative} {left right : Word} :
      alternative ∈ g.alternatives name → Yields g alternative left → Yields g rest right →
      Yields g (.nonterminal name :: rest) (left ++ right)

/-- The nonterminal derives the word. -/
def Derives (g : Grammar) (name : String) (word : Word) : Prop :=
  g.Yields [.nonterminal name] word

/-- The nonterminal derives at least one word. -/
def Generates (g : Grammar) (name : String) : Prop :=
  ∃ word, g.Derives name word

/-- The word belongs to the language of the grammar. -/
def Accepts (g : Grammar) (word : Word) : Prop :=
  g.Derives g.start word

/-- A derivation from a nonterminal begins with one of its alternatives. -/
theorem derives_iff {g : Grammar} {name : String} {word : Word} :
    g.Derives name word ↔ ∃ alternative ∈ g.alternatives name, g.Yields alternative word := by
  constructor
  · intro h
    cases h with
    | nonterminal hmem hleft hright =>
      cases hright
      rw [List.append_nil]
      exact ⟨_, hmem, hleft⟩
  · rintro ⟨alternative, hmem, hyields⟩
    have h := Yields.nonterminal hmem hyields (Yields.nil (g := g))
    rwa [List.append_nil] at h

end ContextFree.Grammar
