import ContextFree.Proofs.Chain

/-!
# The language of a binary grammar

Seen as a grammar, the binary form of a grammar derives the same words from the nonterminals
of the grammar (`Splits.derives_iff`). In one direction a chain is put together from its last
pair to its first. In the other one, each link is read as the symbols that its chain covers.
-/

namespace ContextFree.BinaryGrammar

variable {g : Grammar} {b : BinaryGrammar} {cut : Cut} {name : String} {word : Word}
variable {alternative : Alternative} {production : BinaryProduction} {links : Links}

theorem derives_iff_of_productions_eq (only : b.productions name = [production]) :
    b.toGrammar.Derives name word ↔ Reads b.toGrammar.Derives production.alternative word := by
  rw [Grammar.derives_iff_reads]
  simp only [mem_alternatives_toGrammar_iff, only, List.mem_singleton]
  constructor
  · rintro ⟨_, ⟨_, rfl, rfl⟩, reads⟩
    exact reads
  · intro reads
    exact ⟨_, ⟨_, rfl, rfl⟩, reads⟩

theorem derives_of_mem_productions (member : production ∈ b.productions name)
    (reads : Reads b.toGrammar.Derives production.alternative word) :
    b.toGrammar.Derives name word :=
  Grammar.derives_iff_reads.mpr
    ⟨_, mem_alternatives_toGrammar_iff.mpr ⟨production, member, rfl⟩, reads⟩

/-! ## From the grammar to its binary form -/

/-- The links of a chain have rules in the binary grammar. -/
def Linked (b : BinaryGrammar) (links : Links) : Prop :=
  ∀ link ∈ links, b.productions link.1 = [link.2]

theorem Linked.of_cons {link : String × BinaryProduction} (linked : b.Linked (link :: links)) :
    b.productions link.1 = [link.2] ∧ b.Linked links :=
  ⟨linked link List.mem_cons_self, fun other member =>
    linked other (List.mem_cons_of_mem _ member)⟩

theorem Chain.reads_production (chain : Chain alternative production links)
    (linked : b.Linked links) (reads : Reads b.toGrammar.Derives alternative word) :
    Reads b.toGrammar.Derives production.alternative word := by
  induction chain generalizing word with
  | terminal char => exact reads
  | pair first second => exact reads
  | link first name chain ih =>
    obtain ⟨only, linkedRest⟩ := linked.of_cons
    obtain ⟨front, back, rfl, readsFirst, readsRest⟩ := reads_cons.mp reads
    have derives := (derives_iff_of_productions_eq only).mpr (ih linkedRest readsRest)
    exact reads_cons.mpr ⟨front, back, rfl, readsFirst, reads_nonterminal.mpr derives⟩

/-- If the nonterminals of the alternative derive something, so do the links of its chain. -/
theorem Chain.generates_link (chain : Chain alternative production links)
    (linked : b.Linked links)
    (generate : ∀ other ∈ Alternative.names alternative, b.toGrammar.Generates other) :
    ∀ link ∈ links, b.toGrammar.Generates link.1 := by
  induction chain with
  | terminal char =>
    intro link member
    cases member
  | pair first second =>
    intro link member
    cases member
  | @link first name second third rest production links chain ih =>
    obtain ⟨only, linkedRest⟩ := linked.of_cons
    have generateRest : ∀ other ∈ Alternative.names (second :: third :: rest),
        b.toGrammar.Generates other := by
      intro other occurs
      apply generate
      rw [Alternative.mem_names_iff] at occurs ⊢
      exact List.mem_cons_of_mem _ occurs
    intro link member
    rcases List.mem_cons.mp member with equal | member
    · subst equal
      obtain ⟨word, reads⟩ := exists_reads generateRest
      have readsLink := chain.reads_production linkedRest reads
      exact ⟨word, (derives_iff_of_productions_eq only).mpr readsLink⟩
    · exact ih linkedRest generateRest link member

theorem reaches_of_mem_productions {target : String} (member : production ∈ b.productions name)
    (occurs : .nonterminal target ∈ production.alternative) :
    b.toGrammar.Reaches name target :=
  .single (Grammar.mem_referenced_iff.mpr ⟨_, mem_alternatives_toGrammar_iff.mpr ⟨_, member, rfl⟩,
    Alternative.mem_names_iff.mpr occurs⟩)

/-- A chain leads to all its links and to all nonterminals of the alternative. -/
theorem Chain.reaches (chain : Chain alternative production links) (linked : b.Linked links)
    (member : production ∈ b.productions name) :
    (∀ other ∈ Alternative.names alternative, b.toGrammar.Reaches name other) ∧
      ∀ link ∈ links, b.toGrammar.Reaches name link.1 := by
  induction chain generalizing name with
  | terminal char =>
    refine ⟨fun other occurs => ?_, fun link inLinks => ?_⟩
    · cases occurs
    · cases inLinks
  | pair first second =>
    refine ⟨fun other occurs => ?_, fun link inLinks => ?_⟩
    · exact reaches_of_mem_productions member (Alternative.mem_names_iff.mp occurs)
    · cases inLinks
  | @link first name' second third rest production links chain ih =>
    obtain ⟨only, linkedRest⟩ := linked.of_cons
    have toLink : b.toGrammar.Reaches name name' :=
      reaches_of_mem_productions member (List.mem_cons_of_mem _ List.mem_cons_self)
    have listed : production ∈ b.productions name' := by
      rw [only]
      exact List.mem_cons_self
    obtain ⟨toNames, toLinks⟩ := ih linkedRest listed
    refine ⟨fun other occurs => ?_, fun link inLinks => ?_⟩
    · rcases List.mem_cons.mp (Alternative.mem_names_iff.mp occurs) with equal | occurs
      · exact reaches_of_mem_productions member (equal ▸ List.mem_cons_self)
      · exact toLink.trans (toNames other (Alternative.mem_names_iff.mpr occurs))
    · rcases List.mem_cons.mp inLinks with equal | inLinks
      · exact equal ▸ toLink
      · exact toLink.trans (toLinks link inLinks)

theorem Splits.linked (splits : Splits g b cut) {piece : Piece} (has : cut.Has name piece) :
    b.Linked piece.links := fun _ member =>
  splits.productions_link (Cut.mem_links_iff.mpr ⟨name, piece, has, member⟩)

theorem Splits.derives_of_derives (splits : Splits g b cut) (derives : g.Derives name word) :
    b.toGrammar.Derives name word := by
  refine derives.of_closed b.toGrammar.Derives ?_
  intro name alternative member word reads
  obtain ⟨piece, has, rfl⟩ := splits.mem_alternatives_iff.mp member
  have readsPiece := piece.chain.reads_production (splits.linked has) reads
  exact derives_of_mem_productions (splits.production_mem has) readsPiece

/-! ## From the binary form to the grammar -/

/-- A name of the binary grammar, read in the grammar: a nonterminal stands for what it derives,
and a link for what the symbols stand for that a chain from its production covers. -/
def linkReading (g : Grammar) (links : Links) : Reading := fun name word =>
  (name ∈ g.nonterminals → g.Derives name word) ∧
    ∀ production covered own, (name, production) ∈ links → own ⊆ links →
      Chain covered production own → Alternative.names covered ⊆ g.nonterminals →
      Reads g.Derives covered word

theorem Chain.reads_alternative {own : Links} (chain : Chain alternative production own)
    (included : own ⊆ links) (defined : Alternative.names alternative ⊆ g.nonterminals)
    (reads : Reads (linkReading g links) production.alternative word) :
    Reads g.Derives alternative word := by
  cases chain with
  | terminal char => exact reads
  | pair first second => exact reads.imp fun other occurs _ reading => reading.1 (defined occurs)
  | @link first name second third rest production others chain =>
    obtain ⟨front, back, rfl, readsFirst, readsLink⟩ := reads_cons.mp reads
    have definedAll : ∀ other, Symbol.nonterminal other ∈ first :: second :: third :: rest →
        other ∈ g.nonterminals := fun other occurs =>
      defined (Alternative.mem_names_iff.mpr occurs)
    refine reads_cons.mpr ⟨front, back, rfl, readsFirst.imp ?_, ?_⟩
    · intro other occurs part reading
      apply reading.1
      rw [Alternative.mem_names_iff, List.mem_singleton] at occurs
      exact definedAll other (occurs ▸ List.mem_cons_self)
    -- What the link stands for is read off the rest of the chain, which starts with its rule.
    · obtain ⟨-, covers⟩ := reads_nonterminal.mp readsLink
      refine covers production _ others (included List.mem_cons_self) ?_ chain ?_
      · exact fun link member => included (List.mem_cons_of_mem _ member)
      · intro other occurs
        exact definedAll other (List.mem_cons_of_mem _ (Alternative.mem_names_iff.mp occurs))

/-- The nonterminals of the grammar derive the same words in its binary form. -/
theorem Splits.derives_iff (splits : Splits g b cut) (wellFormed : g.WellFormed)
    (defined : name ∈ g.nonterminals) :
    b.toGrammar.Derives name word ↔ g.Derives name word := by
  refine ⟨fun derives => ?_, splits.derives_of_derives⟩
  -- A production is that of a piece or of a link; either way its chain says what is covered.
  refine (derives.of_closed (linkReading g cut.links) ?_).1 defined
  intro name alternative member word reads
  obtain ⟨production, listed, rfl⟩ := mem_alternatives_toGrammar_iff.mp member
  constructor
  · intro defined
    rcases splits.production_cases listed with ⟨piece, has, rfl⟩ | linked
    · have taken := splits.mem_alternatives_iff.mpr ⟨piece, has, rfl⟩
      refine Grammar.derives_iff_reads.mpr ⟨piece.alternative, taken, ?_⟩
      refine piece.chain.reads_alternative (fun link inPiece => ?_) (fun other occurs => ?_) reads
      · exact Cut.mem_links_iff.mpr ⟨name, piece, has, inPiece⟩
      · exact wellFormed.mem_nonterminals taken occurs
    · exact absurd defined (splits.link_notMem linked)
  · intro production' covered own linked included chain definedAll
    rw [splits.productions_link linked, List.mem_singleton] at listed
    subst listed
    exact chain.reads_alternative included definedAll reads

/-! ## Useful symbols -/

theorem Chain.names_cases (chain : Chain alternative production links) {other : String}
    (occurs : other ∈ Alternative.names production.alternative ∨
      ∃ link ∈ links, other ∈ Alternative.names link.2.alternative) :
    other ∈ Alternative.names alternative ∨ other ∈ links.map Prod.fst := by
  simp only [Alternative.mem_names_iff] at occurs ⊢
  induction chain with
  | terminal char => simp [BinaryProduction.alternative] at occurs
  | pair first second => simpa [BinaryProduction.alternative] using occurs
  | @link first name second third rest production links chain ih =>
    rcases occurs with occurs | ⟨link, member, occurs⟩
    · rcases List.mem_cons.mp occurs with equal | occurs
      · exact .inl (equal ▸ List.mem_cons_self)
      · cases List.mem_singleton.mp occurs
        exact .inr List.mem_cons_self
    · have later : .nonterminal other ∈ production.alternative ∨
          ∃ link ∈ links, .nonterminal other ∈ link.2.alternative := by
        rcases List.mem_cons.mp member with equal | member
        · subst equal
          exact .inl occurs
        · exact .inr ⟨link, member, occurs⟩
      rcases ih later with covered | linked
      · exact .inl (List.mem_cons_of_mem _ covered)
      · exact .inr (List.mem_cons_of_mem _ linked)

/-- A name in a pair stands in an alternative of the grammar, or it is a link. -/
theorem Splits.names_cases (splits : Splits g b cut) {other : String}
    (member : alternative ∈ b.toGrammar.alternatives name)
    (occurs : other ∈ Alternative.names alternative) :
    (∃ origin, other ∈ g.referenced origin) ∨ other ∈ cut.links.map Prod.fst := by
  obtain ⟨production, listed, rfl⟩ := mem_alternatives_toGrammar_iff.mp member
  have inPiece : ∃ origin piece, cut.Has origin piece ∧
      (other ∈ Alternative.names piece.production.alternative ∨
        ∃ link ∈ piece.links, other ∈ Alternative.names link.2.alternative) := by
    rcases splits.production_cases listed with ⟨piece, has, rfl⟩ | linked
    · exact ⟨name, piece, has, .inl occurs⟩
    · obtain ⟨origin, piece, has, inLinks⟩ := Cut.mem_links_iff.mp linked
      exact ⟨origin, piece, has, .inr ⟨_, inLinks, occurs⟩⟩
  obtain ⟨origin, piece, has, occurs⟩ := inPiece
  rcases piece.chain.names_cases occurs with covered | linked
  · have taken := splits.mem_alternatives_iff.mpr ⟨piece, has, rfl⟩
    exact .inl ⟨origin, Grammar.mem_referenced_iff.mpr ⟨_, taken, covered⟩⟩
  · obtain ⟨link, inLinks, equal⟩ := List.mem_map.mp linked
    have inCut := Cut.mem_links_iff.mpr ⟨origin, piece, has, inLinks⟩
    exact .inr (List.mem_map.mpr ⟨link, inCut, equal⟩)

theorem Splits.wellFormed (splits : Splits g b cut) (wellFormed : g.WellFormed) :
    b.toGrammar.WellFormed := by
  rw [Grammar.wellFormed_iff, nonterminals_toGrammar, splits.names]
  have started : b.toGrammar.start = g.start := splits.start
  refine ⟨List.mem_append_left _ (started ▸ wellFormed.start_mem), ?_⟩
  intro name alternative member
  refine ⟨?_, fun other occurs => ?_⟩
  · obtain ⟨production, -, rfl⟩ := mem_alternatives_toGrammar_iff.mp member
    cases production with
    | terminal char => exact List.cons_ne_nil _ _
    | pair left right => exact List.cons_ne_nil _ _
  · rcases splits.names_cases member occurs with ⟨origin, refers⟩ | linked
    · obtain ⟨alternative, taken, covered⟩ := Grammar.mem_referenced_iff.mp refers
      exact List.mem_append_left _ (wellFormed.mem_nonterminals taken covered)
    · exact List.mem_append_right _ linked

theorem Splits.reaches (splits : Splits g b cut) {target : String}
    (reached : g.Reaches name target) : b.toGrammar.Reaches name target := by
  induction reached with
  | refl => exact .refl
  | tail _ refers ih =>
    obtain ⟨alternative, member, occurs⟩ := Grammar.mem_referenced_iff.mp refers
    obtain ⟨piece, has, rfl⟩ := splits.mem_alternatives_iff.mp member
    have further := (piece.chain.reaches (splits.linked has) (splits.production_mem has)).1
    exact ih.trans (further _ occurs)

/-- Where the nonterminals of the grammar are useful, so are they and the links in its binary
form. -/
theorem Splits.trim (splits : Splits g b cut) (wellFormed : g.WellFormed) (trim : g.Trim) :
    b.toGrammar.Trim := by
  have original : ∀ name ∈ g.nonterminals, b.toGrammar.Useful name := by
    intro name defined
    obtain ⟨reached, word, derives⟩ := trim name defined
    have started : b.toGrammar.start = g.start := splits.start
    exact ⟨started ▸ splits.reaches reached, word, splits.derives_of_derives derives⟩
  intro name defined
  rw [nonterminals_toGrammar, splits.names] at defined
  rcases List.mem_append.mp defined with defined | linked
  · exact original name defined
  · obtain ⟨link, inLinks, rfl⟩ := List.mem_map.mp linked
    obtain ⟨origin, piece, has, inPiece⟩ := Cut.mem_links_iff.mp inLinks
    have taken := splits.mem_alternatives_iff.mpr ⟨piece, has, rfl⟩
    have fromOrigin := (piece.chain.reaches (splits.linked has) (splits.production_mem has)).2
    have toOrigin := (original origin (Grammar.mem_nonterminals_of_mem_alternatives taken)).reached
    refine ⟨toOrigin.trans (fromOrigin link inPiece), ?_⟩
    refine piece.chain.generates_link (splits.linked has) (fun other occurs => ?_) link inPiece
    exact (original other (wellFormed.mem_nonterminals taken occurs)).generates

end ContextFree.BinaryGrammar
