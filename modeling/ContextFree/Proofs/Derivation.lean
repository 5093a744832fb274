import ContextFree.Grammar.Derivation
import ContextFree.Proofs.RuleTable

/-!
# Derivations as the least reading

A reading says which words each nonterminal stands for. Reading an alternative is then a matter
of its symbols from left to right. What the nonterminals of a grammar derive is the least
reading that its rules keep: `derives_iff_reads` says that it is such a reading and
`Derives.of_closed` that it is contained in every other one. The second is the induction
principle for all that is proved of the words a grammar derives.
-/

namespace ContextFree

/-- Which words each nonterminal stands for. -/
abbrev Reading := String → Word → Prop

/-- The alternative stands for the word when its nonterminals stand for what the reading says. -/
def Reads (reading : Reading) : Alternative → Word → Prop
  | [], word => word = []
  | .terminal char :: rest, word => ∃ tail, word = char :: tail ∧ Reads reading rest tail
  | .nonterminal name :: rest, word =>
    ∃ front back, word = front ++ back ∧ reading name front ∧ Reads reading rest back

theorem Alternative.mem_names_iff {alternative : Alternative} {name : String} :
    name ∈ names alternative ↔ .nonterminal name ∈ alternative := by
  rw [names, List.mem_filterMap]
  constructor
  · intro named
    rcases named with ⟨symbol, member, named⟩
    cases symbol with
    | terminal char => cases named
    | nonterminal other =>
      cases named
      exact member
  · intro member
    exact ⟨_, member, rfl⟩

theorem Alternative.within_iff {known : List String} {alternative : Alternative} :
    within known alternative = true ↔ ∀ name ∈ names alternative, name ∈ known := by
  simp [within]

/-! ## Readings of an alternative -/

section Reads

variable {first second : Reading} {alternative : Alternative} {word : Word}

/-- Only the nonterminals of an alternative matter to what it stands for. -/
theorem Reads.imp (reads : Reads first alternative word)
    (covered : ∀ name ∈ Alternative.names alternative, ∀ part, first name part → second name part) :
    Reads second alternative word := by
  induction alternative generalizing word with
  | nil => exact reads
  | cons symbol rest ih =>
    cases symbol with
    | terminal char =>
      obtain ⟨tail, rfl, readsRest⟩ := reads
      exact ⟨tail, rfl, ih readsRest covered⟩
    | nonterminal name =>
      obtain ⟨front, back, rfl, stands, readsRest⟩ := reads
      have coveredRest : ∀ other ∈ Alternative.names rest, ∀ part,
          first other part → second other part :=
        fun other member => covered other (List.mem_cons_of_mem _ member)
      exact ⟨front, back, rfl, covered name List.mem_cons_self front stands,
        ih readsRest coveredRest⟩

/-- An alternative that stands for a word has only nonterminals that stand for one. -/
theorem Reads.exists_of_mem_names (reads : Reads first alternative word) {name : String}
    (member : name ∈ Alternative.names alternative) : ∃ part, first name part := by
  induction alternative generalizing word with
  | nil => cases member
  | cons symbol rest ih =>
    cases symbol with
    | terminal char =>
      obtain ⟨tail, -, readsRest⟩ := reads
      exact ih readsRest member
    | nonterminal other =>
      obtain ⟨front, back, -, stands, readsRest⟩ := reads
      rcases List.mem_cons.mp member with equal | member
      · exact ⟨front, equal ▸ stands⟩
      · exact ih readsRest member

/-- If each nonterminal of an alternative stands for a word, so does the alternative. -/
theorem exists_reads (stands : ∀ name ∈ Alternative.names alternative, ∃ part, first name part) :
    ∃ word, Reads first alternative word := by
  induction alternative with
  | nil => exact ⟨[], rfl⟩
  | cons symbol rest ih =>
    cases symbol with
    | terminal char =>
      obtain ⟨tail, readsRest⟩ := ih stands
      exact ⟨char :: tail, tail, rfl, readsRest⟩
    | nonterminal name =>
      obtain ⟨front, standsFor⟩ := stands name List.mem_cons_self
      obtain ⟨back, readsRest⟩ := ih fun other member =>
        stands other (List.mem_cons_of_mem _ member)
      exact ⟨front ++ back, front, back, rfl, standsFor, readsRest⟩

@[simp]
theorem reads_terminal {char : Char} : Reads first [.terminal char] word ↔ word = [char] := by
  simp [Reads]

@[simp]
theorem reads_nonterminal {name : String} :
    Reads first [.nonterminal name] word ↔ first name word := by
  simp [Reads]

theorem reads_cons {symbol : Symbol} {rest : Alternative} :
    Reads first (symbol :: rest) word ↔
      ∃ front back, word = front ++ back ∧ Reads first [symbol] front ∧ Reads first rest back := by
  cases symbol with
  | terminal char =>
    simp only [reads_terminal]
    constructor
    · rintro ⟨tail, rfl, readsRest⟩
      exact ⟨[char], tail, rfl, rfl, readsRest⟩
    · rintro ⟨front, back, rfl, rfl, readsRest⟩
      exact ⟨back, rfl, readsRest⟩
  | nonterminal name =>
    simp only [reads_nonterminal]
    exact Iff.rfl

/-- An alternative in two parts stands for what its parts stand for, one after the other. -/
theorem reads_append {front back : Alternative} :
    Reads first (front ++ back) word ↔
      ∃ left right, word = left ++ right ∧ Reads first front left ∧ Reads first back right := by
  induction front generalizing word with
  | nil =>
    constructor
    · intro reads
      exact ⟨[], word, rfl, rfl, reads⟩
    · rintro ⟨left, right, rfl, rfl, reads⟩
      exact reads
  | cons symbol rest ih =>
    rw [List.cons_append, reads_cons]
    constructor
    · rintro ⟨head, tail, rfl, readsSymbol, readsTail⟩
      obtain ⟨left, right, rfl, readsRest, readsBack⟩ := ih.mp readsTail
      refine ⟨head ++ left, right, (List.append_assoc ..).symm, ?_, readsBack⟩
      exact reads_cons.mpr ⟨head, left, rfl, readsSymbol, readsRest⟩
    · rintro ⟨left, right, rfl, readsFront, readsBack⟩
      obtain ⟨head, tail, rfl, readsSymbol, readsRest⟩ := reads_cons.mp readsFront
      refine ⟨head, tail ++ right, List.append_assoc .., readsSymbol, ?_⟩
      exact ih.mpr ⟨tail, right, rfl, readsRest, readsBack⟩

/-- Terminals stand for themselves only. -/
theorem reads_map_terminal {done : Word} :
    Reads first (done.map .terminal) word ↔ word = done := by
  induction done generalizing word with
  | nil => rfl
  | cons char rest ih => simp [Reads, ih]

end Reads

namespace Grammar

variable {g : Grammar} {name : String} {word : Word}

/-! ## The alternatives of a grammar -/

theorem mem_alternatives_iff {alternative : Alternative} :
    alternative ∈ g.alternatives name ↔
      ∃ alternatives, (name, alternatives) ∈ g.rules.entries ∧ alternative ∈ alternatives :=
  RuleTable.mem_getD_iff

/-- Only a nonterminal with a rule has alternatives. -/
theorem mem_nonterminals_of_mem_alternatives {alternative : Alternative}
    (member : alternative ∈ g.alternatives name) : name ∈ g.nonterminals := by
  obtain ⟨alternatives, filed, -⟩ := mem_alternatives_iff.mp member
  exact RuleTable.mem_names_iff.mpr ⟨alternatives, filed⟩

theorem alternatives_eq_of_mem_entries {alternatives : List Alternative}
    (filed : (name, alternatives) ∈ g.rules.entries) : g.alternatives name = alternatives := by
  rw [Grammar.alternatives, RuleTable.get?_eq_some_iff.mpr filed, Option.getD_some]

/-- Well-formedness, as a condition on the alternatives of each name. -/
theorem wellFormed_iff :
    g.WellFormed ↔ g.start ∈ g.nonterminals ∧ ∀ name, ∀ alternative ∈ g.alternatives name,
      alternative ≠ [] ∧ ∀ other ∈ Alternative.names alternative, other ∈ g.nonterminals := by
  constructor
  · intro wellFormed
    refine ⟨wellFormed.start_mem, fun name alternative member => ?_⟩
    obtain ⟨alternatives, filed, member⟩ := mem_alternatives_iff.mp member
    exact ⟨wellFormed.ne_nil _ filed _ member, wellFormed.defined _ filed _ member⟩
  · intro checks
    rcases checks with ⟨startMember, checked⟩
    have listed : ∀ entry ∈ g.rules.entries, ∀ alternative ∈ entry.2,
        alternative ∈ g.alternatives entry.1 := fun entry filed alternative member =>
      mem_alternatives_iff.mpr ⟨entry.2, filed, member⟩
    exact ⟨startMember, fun entry filed alternative member =>
      (checked _ _ (listed entry filed alternative member)).1, fun entry filed alternative member =>
      (checked _ _ (listed entry filed alternative member)).2⟩

theorem WellFormed.ne_nil_of_mem (wellFormed : g.WellFormed) {alternative : Alternative}
    (member : alternative ∈ g.alternatives name) : alternative ≠ [] :=
  ((wellFormed_iff.mp wellFormed).2 name alternative member).1

theorem WellFormed.mem_nonterminals (wellFormed : g.WellFormed) {alternative : Alternative}
    (member : alternative ∈ g.alternatives name) {other : String}
    (occurs : other ∈ Alternative.names alternative) : other ∈ g.nonterminals :=
  ((wellFormed_iff.mp wellFormed).2 name alternative member).2 other occurs

/-! ## The words that a grammar derives -/

/-- What a form yields is what it stands for when nonterminals stand for what they derive. -/
theorem yields_iff_reads {form : Alternative} : g.Yields form word ↔ Reads g.Derives form word := by
  constructor
  · intro yields
    induction yields with
    | nil => rfl
    | terminal _ ih => exact ⟨_, rfl, ih⟩
    | nonterminal member left _ _ ih =>
      exact ⟨_, _, rfl, derives_iff.mpr ⟨_, member, left⟩, ih⟩
  · intro reads
    induction form generalizing word with
    | nil =>
      obtain rfl := reads
      exact .nil
    | cons symbol rest ih =>
      cases symbol with
      | terminal char =>
        obtain ⟨tail, rfl, readsRest⟩ := reads
        exact .terminal (ih readsRest)
      | nonterminal name =>
        obtain ⟨front, back, rfl, derives, readsRest⟩ := reads
        obtain ⟨alternative, member, yields⟩ := derives_iff.mp derives
        exact .nonterminal member yields (ih readsRest)

/-- What nonterminals derive is a reading that the rules keep, and nothing more than they give. -/
theorem derives_iff_reads :
    g.Derives name word ↔
      ∃ alternative ∈ g.alternatives name, Reads g.Derives alternative word := by
  rw [derives_iff]
  exact exists_congr fun alternative => and_congr_right fun _ => yields_iff_reads

/-- The induction principle: a reading that the rules keep holds of all that is derived. -/
theorem Derives.of_closed (reading : Reading) (derives : g.Derives name word)
    (closed : ∀ name, ∀ alternative ∈ g.alternatives name, ∀ word,
      Reads reading alternative word → reading name word) : reading name word := by
  have reads : ∀ form word, g.Yields form word → Reads reading form word := by
    intro form word yields
    induction yields with
    | nil => rfl
    | terminal _ ih => exact ⟨_, rfl, ih⟩
    | nonterminal member _ _ ihLeft ihRight =>
      exact ⟨_, _, rfl, closed _ _ member _ ihLeft, ihRight⟩
  exact reads_nonterminal.mp (reads _ _ derives)

/-- A grammar with more productions derives no fewer words. -/
theorem Derives.mono {h : Grammar} (derives : g.Derives name word)
    (included : ∀ name, ∀ alternative ∈ g.alternatives name, alternative ∈ h.alternatives name) :
    h.Derives name word :=
  derives.of_closed h.Derives fun name alternative member _ reads =>
    derives_iff_reads.mpr ⟨alternative, included name alternative member, reads⟩

/-- A nonterminal that derives a word has a rule. -/
theorem Derives.mem_nonterminals (derives : g.Derives name word) : name ∈ g.nonterminals := by
  obtain ⟨alternative, member, -⟩ := derives_iff.mp derives
  exact mem_nonterminals_of_mem_alternatives member

theorem generates_iff :
    g.Generates name ↔ ∃ alternative ∈ g.alternatives name,
      ∀ other ∈ Alternative.names alternative, g.Generates other := by
  constructor
  · intro generates
    rcases generates with ⟨word, derives⟩
    obtain ⟨alternative, member, reads⟩ := derives_iff_reads.mp derives
    exact ⟨alternative, member, fun other occurs => reads.exists_of_mem_names occurs⟩
  · intro generates
    rcases generates with ⟨alternative, member, generate⟩
    obtain ⟨word, reads⟩ := exists_reads generate
    exact ⟨word, derives_iff_reads.mpr ⟨alternative, member, reads⟩⟩

end Grammar

end ContextFree
