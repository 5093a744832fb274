import ContextFree.Binary.Basic
import ContextFree.Proofs.NameSupply
import ContextFree.Proofs.UnitFree
import ContextFree.Proofs.Useful

/-!
# Chains of pairs

A long alternative becomes a chain: a pair of its first symbol and a link, whose only production
is the chain for the symbols that are left. `Chain` describes the outcome without the supply
that the names of the links come from, a `Piece` is an alternative with its chain, and a `Cut`
has the pieces of all rules in order. `Splits` ties a grammar and its binary form together
through a cut. All that follows is read off the pieces: the nonterminals of the grammar derive
the words they did, and where all of them are useful, so are the links.
-/

namespace ContextFree.BinaryGrammar

/-- The production stands for the alternative, given the links. -/
inductive Chain : Alternative → BinaryProduction → Links → Prop
  | terminal (char : Char) : Chain [.terminal char] (.terminal char) []
  | pair (first second : Symbol) : Chain [first, second] (.pair first second) []
  | link (first : Symbol) (name : String) {second third : Symbol} {rest : Alternative}
      {production : BinaryProduction} {links : Links} :
      Chain (second :: third :: rest) production links →
      Chain (first :: second :: third :: rest) (.pair first (.nonterminal name))
        ((name, production) :: links)

/-- An alternative with its chain. -/
structure Piece where
  alternative : Alternative
  production : BinaryProduction
  links : Links
  chain : Chain alternative production links

/-- The pieces of each rule, in order. -/
abbrev Cut := List (String × List Piece)

namespace Cut

/-- The rules before they were cut. -/
def rules (cut : Cut) : List (String × List Alternative) :=
  cut.map fun rule => (rule.1, rule.2.map Piece.alternative)

/-- The rules after they were cut. -/
def entries (cut : Cut) : List (String × List BinaryProduction) :=
  cut.map fun rule => (rule.1, rule.2.map Piece.production)

/-- All links, in the order in which they were made. -/
def links (cut : Cut) : Links := cut.flatMap fun rule => rule.2.flatMap Piece.links

/-- The piece belongs to a rule for the name. -/
def Has (cut : Cut) (name : String) (piece : Piece) : Prop :=
  ∃ pieces, (name, pieces) ∈ cut ∧ piece ∈ pieces

theorem map_fst_rules (cut : Cut) : cut.rules.map Prod.fst = cut.map Prod.fst := by
  simp [rules]

theorem map_fst_entries (cut : Cut) : cut.entries.map Prod.fst = cut.map Prod.fst := by
  simp [entries]

theorem mem_links_iff {cut : Cut} {link : String × BinaryProduction} :
    link ∈ cut.links ↔ ∃ name piece, cut.Has name piece ∧ link ∈ piece.links := by
  simp only [links, List.mem_flatMap]
  constructor
  · intro linked
    rcases linked with ⟨⟨name, pieces⟩, member, piece, inPieces, inLinks⟩
    exact ⟨name, piece, ⟨pieces, member, inPieces⟩, inLinks⟩
  · intro linked
    rcases linked with ⟨name, piece, ⟨pieces, member, inPieces⟩, inLinks⟩
    exact ⟨(name, pieces), member, piece, inPieces, inLinks⟩

end Cut

/-! ## What the construction makes -/

theorem chain_chain (first second : Symbol) (rest : List Symbol) (supply : NameSupply) :
    Chain (first :: second :: rest) (chain first second rest supply).1
        (chain first second rest supply).2.1 ∧
      supply.Issues ((chain first second rest supply).2.1.map Prod.fst)
        (chain first second rest supply).2.2 := by
  induction rest generalizing first second supply with
  | nil => exact ⟨.pair first second, .nil supply⟩
  | cons third rest ih =>
    obtain ⟨chained, issues⟩ := ih second third (supply.fresh .link).2
    exact ⟨.link first _ chained, .cons .link issues⟩

/-- An alternative that has a binary form: it is neither empty nor a unit production. -/
def Proper (alternative : Alternative) : Prop :=
  alternative ≠ [] ∧ ¬ Alternative.isUnit alternative = true

theorem exists_pieces_ofAlternatives (alternatives : List Alternative) (supply : NameSupply)
    (proper : ∀ alternative ∈ alternatives, Proper alternative) :
    ∃ pieces : List Piece, alternatives = pieces.map Piece.alternative ∧
      (ofAlternatives alternatives supply).1 = pieces.map Piece.production ∧
      (ofAlternatives alternatives supply).2.1 = pieces.flatMap Piece.links ∧
      supply.Issues ((pieces.flatMap Piece.links).map Prod.fst)
        (ofAlternatives alternatives supply).2.2 := by
  induction alternatives generalizing supply with
  | nil => exact ⟨[], rfl, rfl, rfl, .nil supply⟩
  | cons alternative others ih =>
    obtain ⟨nonempty, nonunit⟩ := proper alternative List.mem_cons_self
    have properOthers : ∀ other ∈ others, Proper other := fun other member =>
      proper other (List.mem_cons_of_mem _ member)
    match alternative, nonempty, nonunit with
    | [], nonempty, _ => exact absurd rfl nonempty
    | [.nonterminal name], _, nonunit => exact absurd rfl nonunit
    | [.terminal char], _, _ =>
      obtain ⟨pieces, before, after, links, issues⟩ := ih supply properOthers
      refine ⟨⟨_, _, _, .terminal char⟩ :: pieces, congrArg _ before, ?_, ?_, issues⟩
      · exact congrArg (BinaryProduction.terminal char :: ·) after
      · exact links
    | first :: second :: rest, _, _ =>
      obtain ⟨chained, issues⟩ := chain_chain first second rest supply
      obtain ⟨pieces, before, after, links, issuesOthers⟩ :=
        ih (chain first second rest supply).2.2 properOthers
      refine ⟨⟨_, _, _, chained⟩ :: pieces, congrArg _ before, ?_⟩
      rw [ofAlternatives, List.map_cons, List.flatMap_cons, List.map_append]
      exact ⟨congrArg _ after, congrArg _ links, issues.append issuesOthers⟩

/-- Rules without unit productions are cut into pieces, with links of new names. -/
theorem exists_cut_ofEntries (rules : List (String × List Alternative)) (supply : NameSupply)
    (proper : ∀ entry ∈ rules, ∀ alternative ∈ entry.2, Proper alternative) :
    ∃ cut : Cut, rules = cut.rules ∧ (ofEntries rules supply).1 = cut.entries ∧
      (ofEntries rules supply).2.1 = cut.links ∧
      supply.Issues (cut.links.map Prod.fst) (ofEntries rules supply).2.2 := by
  induction rules generalizing supply with
  | nil => exact ⟨[], rfl, rfl, rfl, .nil supply⟩
  | cons entry others ih =>
    obtain ⟨lhs, alternatives⟩ := entry
    obtain ⟨pieces, before, after, links, issues⟩ :=
      exists_pieces_ofAlternatives alternatives supply (proper _ List.mem_cons_self)
    obtain ⟨cut, beforeOthers, afterOthers, linksOthers, issuesOthers⟩ :=
      ih (ofAlternatives alternatives supply).2.2 fun other member =>
        proper other (List.mem_cons_of_mem _ member)
    refine ⟨(lhs, pieces) :: cut, ?_, ?_, ?_, ?_⟩
    · exact congrArg₂ (fun first rest => (lhs, first) :: rest) before beforeOthers
    · exact congrArg₂ (fun first rest => (lhs, first) :: rest) after afterOthers
    · exact congrArg₂ (· ++ ·) links linksOthers
    · rw [Cut.links, List.flatMap_cons, List.map_append]
      exact issues.append issuesOthers

/-! ## A grammar and its binary form -/

/-- The productions of a nonterminal, none for a name without a rule. -/
def productions (b : BinaryGrammar) (name : String) : List BinaryProduction :=
  (b.rules.get? name).getD []

theorem productions_eq_of_mem_entries {b : BinaryGrammar} {name : String}
    {productions : List BinaryProduction} (filed : (name, productions) ∈ b.rules.entries) :
    b.productions name = productions := by
  rw [BinaryGrammar.productions, RuleTable.get?_eq_some_iff.mpr filed, Option.getD_some]

theorem mem_alternatives_toGrammar_iff {b : BinaryGrammar} {name : String}
    {alternative : Alternative} :
    alternative ∈ b.toGrammar.alternatives name ↔
      ∃ production ∈ b.productions name, production.alternative = alternative := by
  rw [Grammar.alternatives, toGrammar, RuleTable.get?_mapValues, productions]
  cases b.rules.get? name with
  | none => simp
  | some productions => simp

theorem nonterminals_toGrammar (b : BinaryGrammar) : b.toGrammar.nonterminals = b.rules.names :=
  RuleTable.names_mapValues _ _

/-- The binary grammar has the rules of the grammar, cut into pieces, and behind them the links,
each with its only production. -/
structure Splits (g : Grammar) (b : BinaryGrammar) (cut : Cut) : Prop where
  start : b.start = g.start
  rules : g.rules.entries = cut.rules
  entries : b.rules.entries = cut.entries ++ cut.links.map fun link => (link.1, [link.2])

theorem splits_ofGrammar {g : Grammar} {supply : NameSupply}
    (proper : ∀ name, ∀ alternative ∈ g.alternatives name, Proper alternative)
    (inUse : g.nonterminals ⊆ supply.used) :
    ∃ cut : Cut, Splits g (ofGrammar g supply).1 cut ∧
      supply.Issues (cut.links.map Prod.fst) (ofGrammar g supply).2 := by
  obtain ⟨cut, before, after, links, issues⟩ := exists_cut_ofEntries g.rules.entries supply
    fun entry filed alternative member =>
      proper entry.1 alternative (Grammar.mem_alternatives_iff.mpr ⟨_, filed, member⟩)
  refine ⟨cut, ⟨rfl, before, ?_⟩, issues⟩
  have names : cut.entries.map Prod.fst = g.nonterminals := by
    rw [cut.map_fst_entries, ← cut.map_fst_rules, ← before]
    rfl
  rw [ofGrammar, ← after, ← links]
  apply RuleTable.entries_ofList
  rw [List.map_append, List.map_map, after, links, names, List.nodup_append]
  refine ⟨g.rules.nodup_names, issues.nodup, ?_⟩
  intro old inGrammar link inLinks equal
  exact issues.notMem_used link inLinks (inUse (equal ▸ inGrammar))

namespace Splits

variable {g : Grammar} {b : BinaryGrammar} {cut : Cut} {name : String}

theorem nonterminals_eq (splits : Splits g b cut) : g.nonterminals = cut.map Prod.fst := by
  rw [Grammar.nonterminals, RuleTable.names, splits.rules, cut.map_fst_rules]

theorem names (splits : Splits g b cut) :
    b.rules.names = g.nonterminals ++ cut.links.map Prod.fst := by
  rw [RuleTable.names, splits.entries, List.map_append, cut.map_fst_entries,
    splits.nonterminals_eq, List.map_map]
  rfl

theorem nodup_names (splits : Splits g b cut) :
    (g.nonterminals ++ cut.links.map Prod.fst).Nodup :=
  splits.names ▸ b.rules.nodup_names

theorem mem_alternatives_iff (splits : Splits g b cut) {alternative : Alternative} :
    alternative ∈ g.alternatives name ↔
      ∃ piece, cut.Has name piece ∧ piece.alternative = alternative := by
  rw [Grammar.mem_alternatives_iff, splits.rules]
  constructor
  · intro listed
    rcases listed with ⟨alternatives, filed, member⟩
    obtain ⟨⟨_, pieces⟩, inCut, equal⟩ := List.mem_map.mp filed
    cases equal
    obtain ⟨piece, inPieces, equal⟩ := List.mem_map.mp member
    exact ⟨piece, ⟨pieces, inCut, inPieces⟩, equal⟩
  · intro has
    rcases has with ⟨piece, ⟨pieces, inCut, inPieces⟩, equal⟩
    exact ⟨_, List.mem_map.mpr ⟨_, inCut, rfl⟩, List.mem_map.mpr ⟨piece, inPieces, equal⟩⟩

theorem productions_eq (splits : Splits g b cut) {pieces : List Piece}
    (inCut : (name, pieces) ∈ cut) : b.productions name = pieces.map Piece.production := by
  apply productions_eq_of_mem_entries
  rw [splits.entries]
  exact List.mem_append_left _ (List.mem_map.mpr ⟨_, inCut, rfl⟩)

theorem production_mem (splits : Splits g b cut) {piece : Piece} (has : cut.Has name piece) :
    piece.production ∈ b.productions name := by
  obtain ⟨pieces, inCut, inPieces⟩ := has
  rw [splits.productions_eq inCut]
  exact List.mem_map.mpr ⟨piece, inPieces, rfl⟩

theorem productions_link (splits : Splits g b cut) {link : String × BinaryProduction}
    (member : link ∈ cut.links) : b.productions link.1 = [link.2] := by
  apply productions_eq_of_mem_entries
  rw [splits.entries]
  exact List.mem_append_right _ (List.mem_map.mpr ⟨link, member, rfl⟩)

/-- A link is no nonterminal of the grammar. -/
theorem link_notMem (splits : Splits g b cut) {link : String × BinaryProduction}
    (member : link ∈ cut.links) : link.1 ∉ g.nonterminals := by
  intro defined
  have inLinks : link.1 ∈ cut.links.map Prod.fst := List.mem_map.mpr ⟨link, member, rfl⟩
  exact (List.nodup_append.mp splits.nodup_names).2.2 _ defined _ inLinks rfl

/-- A production is that of a piece, or it is that of a link. -/
theorem production_cases (splits : Splits g b cut) {production : BinaryProduction}
    (member : production ∈ b.productions name) :
    (∃ piece, cut.Has name piece ∧ piece.production = production) ∨
      (name, production) ∈ cut.links := by
  obtain ⟨productions, filed, member⟩ := RuleTable.mem_getD_iff.mp member
  rw [splits.entries] at filed
  rcases List.mem_append.mp filed with filed | filed
  · obtain ⟨⟨_, pieces⟩, inCut, equal⟩ := List.mem_map.mp filed
    cases equal
    obtain ⟨piece, inPieces, equal⟩ := List.mem_map.mp member
    exact .inl ⟨piece, ⟨pieces, inCut, inPieces⟩, equal⟩
  · obtain ⟨link, inLinks, equal⟩ := List.mem_map.mp filed
    cases equal
    rw [List.mem_singleton.mp member]
    exact .inr inLinks

end Splits

end ContextFree.BinaryGrammar
