import ContextFree.Proofs.Binary
import Mathlib.Data.List.Forall2
import Mathlib.Data.List.Nodup

/-!
# Reading chains back

Nothing is lost when long alternatives are split into chains: whoever knows which names are links
can put the alternatives together again (`joined`). A link refers to no link but the one made right
after it, so the links are read from the last to the first.

No chain shares a link with another one either. `perm_occurrences` counts the nonterminals on the
right-hand sides: those of the grammar, and each link once.
-/

namespace ContextFree

/-- The nonterminals on all right-hand sides, each as often as it stands there. -/
def Grammar.occurrences (g : Grammar) : List String :=
  g.rules.values.flatten.flatMap Alternative.names

theorem Alternative.names_cons (symbol : Symbol) (rest : Alternative) :
    names (symbol :: rest) = names [symbol] ++ names rest := by
  rw [names, ← List.singleton_append, List.filterMap_append]
  rfl

namespace BinaryGrammar

variable {g : Grammar} {b : BinaryGrammar} {cut : Cut} {name : String}
variable {alternative : Alternative} {production : BinaryProduction} {links before after : Links}

/-! ## Putting alternatives together -/

/-- The symbols on the right of a pair, given what the links cover. -/
def unlinked (covers : List (String × Alternative)) : Symbol → Alternative
  | .terminal char => [.terminal char]
  | .nonterminal name => (covers.lookup name).getD [.nonterminal name]

/-- The alternative that a production has been made for, given what the links cover. -/
def spelled (covers : List (String × Alternative)) : BinaryProduction → Alternative
  | .terminal char => [.terminal char]
  | .pair left right => left :: unlinked covers right

/-- The symbols that each link covers. -/
def coverage : Links → List (String × Alternative)
  | [] => []
  | (link, production) :: later => (link, spelled (coverage later) production) :: coverage later

/-- The grammar that is left when the links are put back into the alternatives they come from. -/
def joined (b : BinaryGrammar) (links : List String) : Grammar :=
  let linked := b.rules.entries.filter fun entry => links.contains entry.1
  let covers := coverage (linked.flatMap fun entry => entry.2.map (entry.1, ·))
  let own := b.rules.filterNames (!links.contains ·)
  ⟨b.start, own.mapValues fun _ productions => productions.map (spelled covers)⟩

theorem lookup_coverage_append (absent : name ∉ before.map Prod.fst) :
    (coverage (before ++ links)).lookup name = (coverage links).lookup name := by
  induction before with
  | nil => rfl
  | cons link later ih =>
    rw [List.map_cons, List.mem_cons, not_or] at absent
    have missed : (name == link.1) = false := by simpa using absent.1
    rw [List.cons_append, coverage, List.lookup_cons, missed]
    exact ih absent.2

theorem lookup_coverage_of_notMem (absent : name ∉ links.map Prod.fst) :
    (coverage links).lookup name = none := by
  rw [← List.append_nil links, lookup_coverage_append absent]
  rfl

/-- A chain among other ones is read as the alternative that it has been made for. -/
theorem Chain.spelled_eq (chain : Chain alternative production links)
    (distinct : ((before ++ (links ++ after)).map Prod.fst).Nodup)
    (apart : ∀ name ∈ Alternative.names alternative,
      name ∉ (before ++ (links ++ after)).map Prod.fst) :
    spelled (coverage (before ++ (links ++ after))) production = alternative := by
  induction chain generalizing before with
  | terminal char => rfl
  | pair first second =>
    cases second with
    | terminal char => rfl
    | nonterminal name =>
      have absent := apart name (Alternative.mem_names_iff.mpr (by simp))
      rw [spelled, unlinked, lookup_coverage_of_notMem absent, Option.getD_none]
  | @link first name second third rest production links chain ih =>
    rw [List.map_append, List.nodup_append] at distinct
    obtain ⟨-, distinct, disjoint⟩ := distinct
    have absent : name ∉ before.map Prod.fst := fun member =>
      disjoint name member name List.mem_cons_self rfl
    -- The rest of the chain begins with the rule of the link, and nothing comes before it there.
    have covered : spelled (coverage (links ++ after)) production = second :: third :: rest := by
      refine @ih [] (List.nodup_cons.mp distinct).2 fun other occurs member => ?_
      refine apart other ?_ ?_
      · rw [Alternative.mem_names_iff] at occurs ⊢
        exact List.mem_cons_of_mem _ occurs
      · rw [List.map_append]
        exact List.mem_append_right _ (List.mem_cons_of_mem _ member)
    rw [spelled, unlinked, lookup_coverage_append absent, List.cons_append, coverage,
      List.lookup_cons_self, Option.getD_some, covered]

/-- The links of a piece stand together among all links. -/
theorem Cut.Has.exists_links_eq {piece : Piece} (has : cut.Has name piece) :
    ∃ before after, cut.links = before ++ (piece.links ++ after) := by
  obtain ⟨pieces, inCut, inPieces⟩ := has
  obtain ⟨earlier, later, rfl⟩ := List.append_of_mem inCut
  obtain ⟨front, back, rfl⟩ := List.append_of_mem inPieces
  refine ⟨Cut.links earlier ++ front.flatMap Piece.links,
    back.flatMap Piece.links ++ Cut.links later, ?_⟩
  simp [Cut.links, List.append_assoc]

theorem Cut.fst_mem_links {entry : String × List BinaryProduction}
    (filed : entry ∈ cut.links.map fun link => (link.1, [link.2])) :
    entry.1 ∈ cut.links.map Prod.fst := by
  obtain ⟨link, inLinks, rfl⟩ := List.mem_map.mp filed
  exact List.mem_map.mpr ⟨link, inLinks, rfl⟩

namespace Splits

variable (splits : Splits g b cut)
include splits

theorem nodup_links : (cut.links.map Prod.fst).Nodup :=
  (List.nodup_append.mp splits.nodup_names).2.1

/-- A nonterminal of the grammar is no link. -/
theorem notMem_links (defined : name ∈ g.nonterminals) : name ∉ cut.links.map Prod.fst := by
  intro member
  obtain ⟨link, inLinks, rfl⟩ := List.mem_map.mp member
  exact splits.link_notMem inLinks defined

theorem spelled_piece (wellFormed : g.WellFormed) {piece : Piece} (has : cut.Has name piece) :
    spelled (coverage cut.links) piece.production = piece.alternative := by
  have taken := splits.mem_alternatives_iff.mpr ⟨piece, has, rfl⟩
  have apart : ∀ other ∈ Alternative.names piece.alternative, other ∉ cut.links.map Prod.fst :=
    fun other occurs => splits.notMem_links (wellFormed.mem_nonterminals taken occurs)
  have distinct := splits.nodup_links
  obtain ⟨before, after, equal⟩ := has.exists_links_eq
  rw [equal] at distinct apart ⊢
  exact piece.chain.spelled_eq distinct apart

theorem fst_notMem_links {entry : String × List BinaryProduction} (filed : entry ∈ cut.entries) :
    entry.1 ∉ cut.links.map Prod.fst := by
  refine splits.notMem_links ?_
  rw [splits.nonterminals_eq, ← cut.map_fst_entries]
  exact List.mem_map.mpr ⟨entry, filed, rfl⟩

/-- The rules of the nonterminals that are no links are those of the grammar, cut into pieces. -/
theorem filter_entries :
    (b.rules.entries.filter fun entry => !(cut.links.map Prod.fst).contains entry.1) =
      cut.entries := by
  rw [splits.entries, List.filter_append, List.filter_eq_self.mpr, List.filter_eq_nil_iff.mpr,
    List.append_nil]
  · intro entry filed
    simpa using Cut.fst_mem_links filed
  · intro entry filed
    simpa using splits.fst_notMem_links filed

/-- The rules of the links, with the one production that each of them has. -/
theorem flatMap_linked :
    ((b.rules.entries.filter fun entry => (cut.links.map Prod.fst).contains entry.1).flatMap
      fun entry => entry.2.map (entry.1, ·)) = cut.links := by
  rw [splits.entries, List.filter_append, List.filter_eq_nil_iff.mpr, List.nil_append,
    List.filter_eq_self.mpr, List.flatMap_map]
  · exact List.flatMap_singleton' cut.links
  · intro entry filed
    simpa using Cut.fst_mem_links filed
  · intro entry filed
    simpa using splits.fst_notMem_links filed

/-- Reading the chains back gives the grammar they have been made for. -/
theorem joined_eq (wellFormed : g.WellFormed) : b.joined (cut.links.map Prod.fst) = g := by
  have entries : (b.joined (cut.links.map Prod.fst)).rules.entries = g.rules.entries := by
    rw [joined]
    dsimp only [RuleTable.mapValues, RuleTable.filterNames]
    rw [splits.filter_entries, splits.flatMap_linked, splits.rules, Cut.entries, Cut.rules,
      List.map_map]
    refine List.map_congr_left fun rule inCut => ?_
    rw [Function.comp_apply, List.map_map]
    refine congrArg (Prod.mk rule.1) (List.map_congr_left fun piece inPieces => ?_)
    exact splits.spelled_piece wellFormed ⟨rule.2, inCut, inPieces⟩
  have started : (b.joined (cut.links.map Prod.fst)).start = g.start := splits.start
  have rules := RuleTable.eq_of_entries_eq entries
  cases g
  exact congrArg₂ Grammar.mk started rules

end Splits

/-! ## Counting references -/

theorem Chain.length_links (chain : Chain alternative production links) :
    links.length = alternative.length - 2 := by
  induction chain with
  | terminal char => rfl
  | pair first second => rfl
  | link first name chain ih =>
    rw [List.length_cons, ih]
    simp only [List.length_cons]
    omega

/-- The productions of a chain refer to what the alternative refers to, and once to each link. -/
theorem Chain.perm_names (chain : Chain alternative production links) :
    (Alternative.names production.alternative ++
        links.flatMap fun link => Alternative.names link.2.alternative).Perm
      (Alternative.names alternative ++ links.map Prod.fst) := by
  induction chain with
  | terminal char => exact .refl _
  | pair first second => exact .refl _
  | @link first name second third rest production links chain ih =>
    rw [BinaryProduction.alternative, Alternative.names_cons first [.nonterminal name],
      Alternative.names_cons first (second :: third :: rest), List.flatMap_cons, List.map_cons,
      List.append_assoc, List.append_assoc]
    exact ((ih.cons name).trans List.perm_middle.symm).append_left _

/-- The binary form of a grammar refers to what the grammar refers to, and once to each link. -/
theorem Splits.perm_occurrences (splits : Splits g b cut) :
    b.toGrammar.occurrences.Perm (g.occurrences ++ cut.links.map Prod.fst) := by
  have made : b.toGrammar.occurrences =
      ((cut.flatMap Prod.snd).flatMap fun piece =>
          Alternative.names piece.production.alternative) ++
        (cut.flatMap Prod.snd).flatMap fun piece =>
          piece.links.flatMap fun link => Alternative.names link.2.alternative := by
    simp [Grammar.occurrences, toGrammar, RuleTable.mapValues, RuleTable.values, splits.entries,
      Cut.entries, Cut.links, List.flatMap_assoc, List.flatMap_map, List.map_flatMap,
      List.flatten_eq_flatMap, Function.comp_def]
  have origin : g.occurrences =
      (cut.flatMap Prod.snd).flatMap fun piece => Alternative.names piece.alternative := by
    simp [Grammar.occurrences, RuleTable.values, splits.rules, Cut.rules, List.flatMap_assoc,
      List.flatMap_map, List.flatten_eq_flatMap, Function.comp_def]
  have linkNames : cut.links.map Prod.fst =
      (cut.flatMap Prod.snd).flatMap fun piece => piece.links.map Prod.fst := by
    simp [Cut.links, List.flatMap_assoc, List.map_flatMap]
  rw [made, origin, linkNames]
  refine (List.flatMap_append_perm _ _ _).trans (.trans ?_ (List.flatMap_append_perm _ _ _).symm)
  exact List.Perm.flatMap_left _ fun piece _ => piece.chain.perm_names

theorem Splits.count_link (splits : Splits g b cut) (wellFormed : g.WellFormed)
    (link : name ∈ cut.links.map Prod.fst) : b.toGrammar.occurrences.count name = 1 := by
  have absent : name ∉ g.occurrences := by
    intro occurs
    obtain ⟨alternative, listed, inside⟩ := List.mem_flatMap.mp occurs
    obtain ⟨alternatives, inValues, member⟩ := List.mem_flatten.mp listed
    obtain ⟨entry, filed, rfl⟩ := List.mem_map.mp inValues
    exact splits.notMem_links (wellFormed.defined entry filed alternative member name inside) link
  rw [splits.perm_occurrences.count_eq, List.count_append, List.count_eq_zero.mpr absent,
    List.count_eq_one_of_mem splits.nodup_links link]

/-! ## The binary form of a grammar -/

/-- What an alternative becomes: the first production of a chain of links that follow one another
among all links and have no other productions. -/
def StemsFrom (b : BinaryGrammar) (links : List String) (alternative : Alternative)
    (production : BinaryProduction) : Prop :=
  ∃ own, Chain alternative production own ∧ own.length = alternative.length - 2 ∧
    own.map Prod.fst <:+: links ∧ b.Linked own

theorem Splits.forall₂_stemsFrom (splits : Splits g b cut) (defined : name ∈ g.nonterminals) :
    List.Forall₂ (b.StemsFrom (cut.links.map Prod.fst)) (g.alternatives name)
      (b.productions name) := by
  rw [splits.nonterminals_eq] at defined
  obtain ⟨rule, inCut, rfl⟩ := List.mem_map.mp defined
  have alternatives : g.alternatives rule.1 = rule.2.map Piece.alternative := by
    apply Grammar.alternatives_eq_of_mem_entries
    rw [splits.rules]
    exact List.mem_map.mpr ⟨_, inCut, rfl⟩
  rw [alternatives, splits.productions_eq inCut, List.forall₂_map_left_iff,
    List.forall₂_map_right_iff, List.forall₂_same]
  intro piece inPieces
  have has : cut.Has rule.1 piece := ⟨rule.2, inCut, inPieces⟩
  obtain ⟨before, after, equal⟩ := has.exists_links_eq
  refine ⟨piece.links, piece.chain, piece.chain.length_links, ?_, splits.linked has⟩
  exact ⟨before.map Prod.fst, after.map Prod.fst, by rw [equal]; simp⟩

/-- The binary form has the nonterminals of the grammar, in order, and then the links as they were
made. Each production of a nonterminal begins the chain for the alternative at the same place. A
link is new, has one production and stands in one pair. The chains can be read back, and the
nonterminals derive what they did. -/
theorem ofGrammar_splits_and_joins {start : String} {rules : RuleTable (List Alternative)}
    (accepted : Grammar.ofRules start rules = .ok g)
    (unitFree : ∀ name target, [.nonterminal target] ∉ g.alternatives name) {supply : NameSupply}
    (inUse : g.nonterminals ⊆ supply.used) :
    ∃ b links, (ofGrammar g supply).1 = b ∧ supply.Issues links (ofGrammar g supply).2 ∧
      b.start = g.start ∧ b.rules.names = g.nonterminals ++ links ∧
      (∀ name ∈ g.nonterminals,
        List.Forall₂ (b.StemsFrom links) (g.alternatives name) (b.productions name)) ∧
      (∀ link ∈ links, link ∉ supply.used ∧ (∃ production, b.productions link = [production]) ∧
        b.toGrammar.occurrences.count link = 1) ∧
      b.joined links = g ∧
      ∀ name ∈ g.nonterminals, ∀ word, b.toGrammar.Derives name word ↔ g.Derives name word := by
  have wellFormed : g.WellFormed := (Grammar.ofRules_eq_ok_iff.mp accepted).2
  have proper : ∀ name, ∀ alternative ∈ g.alternatives name, Proper alternative := by
    refine fun name alternative member => ⟨wellFormed.ne_nil_of_mem member, fun unit => ?_⟩
    obtain ⟨target, rfl⟩ := Alternative.isUnit_iff.mp unit
    exact unitFree name target member
  obtain ⟨cut, splits, issues⟩ := splits_ofGrammar proper inUse
  refine ⟨_, cut.links.map Prod.fst, rfl, issues, splits.start, splits.names,
    fun name defined => splits.forall₂_stemsFrom defined, fun link inLinks => ⟨?_, ?_, ?_⟩,
    splits.joined_eq wellFormed, fun name defined word => splits.derives_iff wellFormed defined⟩
  · exact issues.notMem_used link inLinks
  · obtain ⟨link, member, rfl⟩ := List.mem_map.mp inLinks
    exact ⟨link.2, splits.productions_link member⟩
  · exact splits.count_link wellFormed inLinks

/-- An alternative of four symbols, one of three, and a nonterminal with the name of a link. -/
def elongated : Grammar :=
  ⟨"S", ⟨[("S", [[.nonterminal "A", .terminal 'b', .nonterminal "[BIN2]", .terminal 'd'],
      [.nonterminal "A", .terminal 'b']]),
    ("A", [[.terminal 'a'], [.nonterminal "S", .nonterminal "A", .terminal 'b']]),
    ("[BIN2]", [[.terminal 'c']])], by decide⟩⟩

theorem ofGrammar_splits_and_joins_elongated :
    Grammar.ofRules elongated.start elongated.rules = .ok elongated ∧
      (ofGrammar elongated (.ofGrammar elongated)).1.rules.names =
        ["S", "A", "[BIN2]", "[BIN1]", "[BIN3]", "[BIN4]"] ∧
      (ofGrammar elongated (.ofGrammar elongated)).1.productions "S" =
        [.pair (.nonterminal "A") (.nonterminal "[BIN1]"),
          .pair (.nonterminal "A") (.terminal 'b')] ∧
      (ofGrammar elongated (.ofGrammar elongated)).1.toGrammar.occurrences.count "[BIN3]" = 1 ∧
      (ofGrammar elongated (.ofGrammar elongated)).1.joined ["[BIN1]", "[BIN3]", "[BIN4]"] =
        elongated ∧
      ∀ word, (ofGrammar elongated (.ofGrammar elongated)).1.toGrammar.Derives "A" word ↔
        elongated.Derives "A" word := by
  have accepted : Grammar.ofRules elongated.start elongated.rules = .ok elongated := by decide
  have unitFree : ∀ name target, [.nonterminal target] ∉ elongated.alternatives name := by
    intro name target member
    obtain ⟨alternatives, filed, member⟩ := Grammar.mem_alternatives_iff.mp member
    have all : ∀ entry ∈ elongated.rules.entries, ∀ alternative ∈ entry.2,
        Alternative.isUnit alternative = false := by decide
    have unit := all _ filed _ member
    cases unit
  have names : (ofGrammar elongated (.ofGrammar elongated)).1.rules.names =
      ["S", "A", "[BIN2]", "[BIN1]", "[BIN3]", "[BIN4]"] := by decide +kernel
  have inUse : elongated.nonterminals ⊆ (NameSupply.ofGrammar elongated).used :=
    List.Subset.refl _
  obtain ⟨_, links, rfl, -, -, split, -, each, read, derives⟩ :=
    ofGrammar_splits_and_joins accepted unitFree inUse
  have made : ["[BIN1]", "[BIN3]", "[BIN4]"] = links :=
    (List.append_right_inj elongated.nonterminals).mp (names.symm.trans split)
  subst made
  exact ⟨accepted, names, by decide +kernel, (each "[BIN3]" (by decide)).2.2, read,
    derives "A" (by decide)⟩

end BinaryGrammar

end ContextFree
