import ContextFree.Binary.Helper
import ContextFree.Proofs.Binary
import ContextFree.Proofs.NormalForm

/-!
# Helpers stand for their terminals

Every terminal that stands in a pair has one helper, a nonterminal other than the start symbol
whose only production is that terminal. Putting helpers in place of the terminals therefore
changes nothing about the words that the nonterminals of the binary grammar derive
(`derives_toNormalForm_iff`), and a helper is reached wherever its terminal was.
-/

namespace ContextFree.BinaryGrammar

variable {b : BinaryGrammar} {supply : NameSupply} {char : Char} {name : String} {word : Word}

/-- The helper of each terminal that stands in a pair: the rules that serve already, then the
fresh ones. -/
def helpers (b : BinaryGrammar) (supply : NameSupply) : List (Char × String) :=
  b.existingHelpers ++ (b.freshHelpers supply).1

theorem mem_pairChars_iff {left right : Symbol} :
    char ∈ pairChars (.pair left right) ↔ left = .terminal char ∨ right = .terminal char := by
  cases left <;> cases right <;> simp [pairChars, Symbol.char?, eq_comm]

theorem mem_pairedChars_iff :
    char ∈ b.pairedChars ↔
      ∃ name, ∃ production ∈ b.productions name, char ∈ pairChars production := by
  rw [pairedChars, List.mem_eraseDups, List.mem_flatMap]
  constructor
  · intro paired
    rcases paired with ⟨production, listed, occurs⟩
    obtain ⟨productions, inValues, member⟩ := List.mem_flatten.mp listed
    obtain ⟨⟨name, _⟩, filed, rfl⟩ := List.mem_map.mp inValues
    exact ⟨name, production, RuleTable.mem_getD_iff.mpr ⟨_, filed, member⟩, occurs⟩
  · intro paired
    rcases paired with ⟨name, production, listed, occurs⟩
    obtain ⟨productions, filed, member⟩ := RuleTable.mem_getD_iff.mp listed
    have inValues : productions ∈ b.rules.values := List.mem_map.mpr ⟨_, filed, rfl⟩
    exact ⟨production, List.mem_flatten.mpr ⟨productions, inValues, member⟩, occurs⟩

theorem existingHelper?_spec (found : b.existingHelper? char = some name) :
    name ≠ b.start ∧ (name, [.terminal char]) ∈ b.rules.entries := by
  obtain ⟨⟨other, productions⟩, first, equal⟩ := Option.map_eq_some_iff.mp found
  have passes := List.find?_some first
  have filed := List.mem_of_find?_eq_some first
  simp only [Bool.and_eq_true, bne_iff_ne, beq_iff_eq] at passes
  obtain ⟨different, rfl⟩ := passes
  subst equal
  exact ⟨different, filed⟩

theorem map_fst_existingHelpers (b : BinaryGrammar) :
    b.existingHelpers.map Prod.fst =
      b.pairedChars.filter fun char => (b.existingHelper? char).isSome := by
  rw [existingHelpers]
  induction b.pairedChars with
  | nil => rfl
  | cons char rest ih =>
    cases found : b.existingHelper? char with
    | none => simpa [found] using ih
    | some name => simpa [found] using ih

/-- No terminal has two helpers. -/
theorem nodup_map_fst_helpers (b : BinaryGrammar) (supply : NameSupply) :
    ((b.helpers supply).map Prod.fst).Nodup := by
  have distinct : b.pairedChars.Nodup := nodup_eraseDups _
  rw [helpers, List.map_append, map_fst_existingHelpers, freshHelpers, NameSupply.map_fst_freshFor,
    List.nodup_append]
  refine ⟨distinct.filter _, distinct.filter _, ?_⟩
  intro char served other unserved equal
  subst equal
  have some := (List.mem_filter.mp served).2
  have none := (List.mem_filter.mp unserved).2
  rw [Option.isNone_iff_eq_none.mp none] at some
  cases some

/-- Every terminal in a pair has a helper. -/
theorem exists_lookup_helpers (supply : NameSupply) (paired : char ∈ b.pairedChars) :
    ∃ name, (b.helpers supply).lookup char = some name := by
  have listed : char ∈ (b.helpers supply).map Prod.fst := by
    rw [helpers, List.map_append, map_fst_existingHelpers, freshHelpers,
      NameSupply.map_fst_freshFor, List.mem_append, List.mem_filter, List.mem_filter]
    cases b.existingHelper? char with
    | none => exact .inr ⟨paired, rfl⟩
    | some name => exact .inl ⟨paired, rfl⟩
  obtain ⟨⟨_, name⟩, member, rfl⟩ := List.mem_map.mp listed
  exact ⟨name, (RuleTable.lookup_eq_some_iff_mem (nodup_map_fst_helpers b supply)).mpr member⟩

/-- A helper is a rule that serves already, or it is fresh. -/
theorem lookup_helpers_cases (helper : (b.helpers supply).lookup char = some name) :
    char ∈ b.pairedChars ∧
      (b.existingHelper? char = some name ∨ (char, name) ∈ (b.freshHelpers supply).1) := by
  have member := (RuleTable.lookup_eq_some_iff_mem (nodup_map_fst_helpers b supply)).mp helper
  rcases List.mem_append.mp member with served | fresh
  · obtain ⟨other, paired, found⟩ := List.mem_filterMap.mp served
    obtain ⟨_, found, equal⟩ := Option.map_eq_some_iff.mp found
    cases equal
    exact ⟨paired, .inl found⟩
  · have unserved : char ∈ (b.freshHelpers supply).1.map Prod.fst :=
      List.mem_map.mpr ⟨_, fresh, rfl⟩
    rw [freshHelpers, NameSupply.map_fst_freshFor, List.mem_filter] at unserved
    exact ⟨unserved.1, .inr fresh⟩

/-! ## The rules of the normal form -/

theorem issues_freshHelpers (b : BinaryGrammar) (supply : NameSupply) :
    supply.Issues ((b.freshHelpers supply).1.map Prod.snd) (b.freshHelpers supply).2 :=
  NameSupply.issues_freshFor _ _ _

section ToNormalForm

variable (inUse : b.rules.names ⊆ supply.used)
include inUse

theorem fresh_notMem_names (fresh : name ∈ (b.freshHelpers supply).1.map Prod.snd) :
    name ∉ b.rules.names := fun defined =>
  (b.issues_freshHelpers supply).notMem_used name fresh (inUse defined)

theorem entries_toNormalForm :
    (b.toNormalForm supply).1.rules.entries =
      (b.rules.entries.map fun entry => (entry.1, entry.2.map (isolate (b.helpers supply)))) ++
        (b.freshHelpers supply).1.map fun helper => (helper.2, [.terminal helper.1]) := by
  apply RuleTable.entries_ofList
  rw [List.map_append, List.map_map, List.map_map, List.nodup_append]
  refine ⟨b.rules.nodup_names, (b.issues_freshHelpers supply).nodup, ?_⟩
  intro old defined new fresh equal
  exact fresh_notMem_names inUse fresh (equal ▸ defined)

theorem nonterminals_toNormalForm :
    (b.toNormalForm supply).1.nonterminals =
      b.rules.names ++ (b.freshHelpers supply).1.map Prod.snd := by
  rw [NormalForm.nonterminals, RuleTable.names, entries_toNormalForm inUse, List.map_append,
    List.map_map, List.map_map]
  rfl

/-- A nonterminal keeps its productions, with helpers inside the pairs. -/
theorem productions_toNormalForm (defined : name ∈ b.rules.names) :
    (b.toNormalForm supply).1.productions name =
      (b.productions name).map (isolate (b.helpers supply)) := by
  obtain ⟨productions, filed⟩ := RuleTable.mem_names_iff.mp defined
  rw [productions_eq_of_mem_entries filed]
  apply NormalForm.productions_eq_of_mem_entries
  rw [entries_toNormalForm inUse]
  exact List.mem_append_left _ (List.mem_map.mpr ⟨_, filed, rfl⟩)

/-- A helper has its terminal as its only production. -/
theorem productions_helper (helper : (b.helpers supply).lookup char = some name) :
    (b.toNormalForm supply).1.productions name = [.terminal char] := by
  rcases (lookup_helpers_cases helper).2 with found | fresh
  · obtain ⟨-, filed⟩ := existingHelper?_spec found
    rw [productions_toNormalForm inUse (RuleTable.mem_names_iff.mpr ⟨_, filed⟩),
      productions_eq_of_mem_entries filed]
    rfl
  · apply NormalForm.productions_eq_of_mem_entries
    rw [entries_toNormalForm inUse]
    exact List.mem_append_right _ (List.mem_map.mpr ⟨_, fresh, rfl⟩)

theorem helper_mem_nonterminals (helper : (b.helpers supply).lookup char = some name) :
    name ∈ (b.toNormalForm supply).1.nonterminals := by
  apply NormalForm.mem_nonterminals_of_mem_productions
  rw [productions_helper inUse helper]
  exact List.mem_cons_self

/-- The start symbol is no helper. -/
theorem helper_ne_start (defined : b.start ∈ b.rules.names)
    (helper : (b.helpers supply).lookup char = some name) : name ≠ b.start := by
  rcases (lookup_helpers_cases helper).2 with found | fresh
  · exact (existingHelper?_spec found).1
  · intro equal
    exact fresh_notMem_names inUse (List.mem_map.mpr ⟨_, fresh, rfl⟩) (equal ▸ defined)

/-- A nonterminal of the normal form is one of the binary grammar, or it is a helper. -/
theorem nonterminals_cases (member : name ∈ (b.toNormalForm supply).1.nonterminals) :
    name ∈ b.rules.names ∨
      ∃ char ∈ b.pairedChars, (b.helpers supply).lookup char = some name := by
  rw [nonterminals_toNormalForm inUse] at member
  rcases List.mem_append.mp member with defined | fresh
  · exact .inl defined
  · obtain ⟨⟨char, _⟩, created, rfl⟩ := List.mem_map.mp fresh
    have helper := (RuleTable.lookup_eq_some_iff_mem (nodup_map_fst_helpers b supply)).mpr
      (List.mem_append_right _ created)
    exact .inr ⟨char, (lookup_helpers_cases helper).1, helper⟩

end ToNormalForm

/-! ## The language of the normal form -/

/-- What stands for a side of a pair: the nonterminal itself, or the helper of the terminal. -/
theorem sideName_cases {left right symbol : Symbol} (side : symbol = left ∨ symbol = right)
    (member : .pair left right ∈ b.productions name) :
    symbol = .nonterminal (sideName (b.helpers supply) symbol) ∨
      ∃ char, symbol = .terminal char ∧
        (b.helpers supply).lookup char = some (sideName (b.helpers supply) symbol) := by
  cases symbol with
  | nonterminal other => exact .inl rfl
  | terminal char =>
    have occurs : char ∈ pairChars (.pair left right) :=
      mem_pairChars_iff.mpr (side.imp Eq.symm Eq.symm)
    have paired := mem_pairedChars_iff.mpr ⟨name, _, member, occurs⟩
    obtain ⟨helper, found⟩ := exists_lookup_helpers supply paired
    exact .inr ⟨char, rfl, by rw [sideName, found, Option.getD_some]⟩

/-- A name of the normal form, read in the binary grammar: a nonterminal stands for what it
derives, and a helper for its terminal. -/
def helperReading (b : BinaryGrammar) (supply : NameSupply) : Reading := fun name word =>
  (name ∈ b.rules.names → b.toGrammar.Derives name word) ∧
    ∀ char, (b.helpers supply).lookup char = some name → word = [char]

/-- If what stands for a side of a pair is read so, the side stands for the word as well. -/
theorem reads_of_helperReading (wellFormed : b.toGrammar.WellFormed) {left right symbol : Symbol}
    (side : symbol = left ∨ symbol = right) (member : .pair left right ∈ b.productions name)
    (reading : helperReading b supply (sideName (b.helpers supply) symbol) word) :
    Reads b.toGrammar.Derives [symbol] word := by
  obtain ⟨derives, spells⟩ := reading
  rcases sideName_cases side member with equal | ⟨char, rfl, helper⟩
  · have listed : [left, right] ∈ b.toGrammar.alternatives name :=
      mem_alternatives_toGrammar_iff.mpr ⟨_, member, rfl⟩
    have occurs : symbol ∈ [left, right] := by simpa using side
    rw [equal, ← Alternative.mem_names_iff] at occurs
    have defined := wellFormed.mem_nonterminals listed occurs
    rw [nonterminals_toGrammar] at defined
    rw [equal]
    exact reads_nonterminal.mpr (derives defined)
  · rw [spells char helper]
    exact reads_terminal.mpr rfl

section Language

variable (inUse : b.rules.names ⊆ supply.used)
include inUse

theorem derives_sideName {left right symbol : Symbol} (side : symbol = left ∨ symbol = right)
    (member : .pair left right ∈ b.productions name)
    (reads : Reads (b.toNormalForm supply).1.Derives [symbol] word) :
    (b.toNormalForm supply).1.Derives (sideName (b.helpers supply) symbol) word := by
  rcases sideName_cases side member with equal | ⟨char, rfl, helper⟩
  · rw [equal] at reads
    exact reads_nonterminal.mp reads
  · rw [reads_terminal.mp reads]
    apply NormalForm.Derives.terminal
    rw [productions_helper inUse helper]
    exact List.mem_cons_self

theorem derives_toNormalForm_of_derives (derives : b.toGrammar.Derives name word) :
    (b.toNormalForm supply).1.Derives name word := by
  refine derives.of_closed (b.toNormalForm supply).1.Derives ?_
  intro name alternative member word reads
  have defined := Grammar.mem_nonterminals_of_mem_alternatives member
  rw [nonterminals_toGrammar] at defined
  obtain ⟨production, listed, rfl⟩ := mem_alternatives_toGrammar_iff.mp member
  have kept : isolate (b.helpers supply) production ∈
      (b.toNormalForm supply).1.productions name := by
    rw [productions_toNormalForm inUse defined]
    exact List.mem_map.mpr ⟨production, listed, rfl⟩
  cases production with
  | terminal char =>
    rw [reads_terminal.mp reads]
    exact .terminal kept
  | pair left right =>
    obtain ⟨front, back, rfl, readsLeft, readsRight⟩ := reads_cons.mp reads
    have derivesLeft := derives_sideName inUse (.inl rfl) listed readsLeft
    have derivesRight := derives_sideName inUse (.inr rfl) listed readsRight
    exact .pair kept derivesLeft derivesRight

theorem helperReading_of_derives (wellFormed : b.toGrammar.WellFormed)
    (derives : (b.toNormalForm supply).1.Derives name word) : helperReading b supply name word := by
  induction derives with
  | @terminal name char member =>
    refine ⟨fun defined => ?_, fun other helper => ?_⟩
    · rw [productions_toNormalForm inUse defined] at member
      obtain ⟨production, listed, isolated⟩ := List.mem_map.mp member
      cases production with
      | terminal other =>
        cases isolated
        exact derives_of_mem_productions listed (reads_terminal.mpr rfl)
      | pair left right => cases isolated
    · rw [productions_helper inUse helper] at member
      cases List.mem_singleton.mp member
      rfl
  | @pair name left right front back member _ _ readingLeft readingRight =>
    refine ⟨fun defined => ?_, fun other helper => ?_⟩
    · rw [productions_toNormalForm inUse defined] at member
      obtain ⟨production, listed, isolated⟩ := List.mem_map.mp member
      cases production with
      | terminal char => cases isolated
      | pair first second =>
        cases isolated
        have readsLeft := reads_of_helperReading wellFormed (.inl rfl) listed readingLeft
        have readsRight := reads_of_helperReading wellFormed (.inr rfl) listed readingRight
        exact derives_of_mem_productions listed
          (reads_cons.mpr ⟨front, back, rfl, readsLeft, readsRight⟩)
    · rw [productions_helper inUse helper] at member
      cases List.mem_singleton.mp member

/-- The nonterminals of the binary grammar derive the same words in the normal form. -/
theorem derives_toNormalForm_iff (wellFormed : b.toGrammar.WellFormed)
    (defined : name ∈ b.rules.names) :
    (b.toNormalForm supply).1.Derives name word ↔ b.toGrammar.Derives name word :=
  ⟨fun derives => (helperReading_of_derives inUse wellFormed derives).1 defined,
    derives_toNormalForm_of_derives inUse⟩

end Language

/-! ## Useful symbols -/

section Useful

variable (inUse : b.rules.names ⊆ supply.used)
include inUse

/-- A name in a pair of the normal form is a name in an alternative of the binary grammar, or the
helper of a terminal in it. -/
theorem names_toNormalForm_cases {production : Production} {other : String}
    (member : production ∈ (b.toNormalForm supply).1.productions name)
    (occurs : other ∈ production.names) :
    (∃ origin, other ∈ b.toGrammar.referenced origin) ∨
      ∃ char, (b.helpers supply).lookup char = some other := by
  rcases nonterminals_cases inUse (NormalForm.mem_nonterminals_of_mem_productions member) with
    defined | ⟨char, -, helper⟩
  · rw [productions_toNormalForm inUse defined] at member
    obtain ⟨production, listed, rfl⟩ := List.mem_map.mp member
    cases production with
    | terminal char => cases occurs
    | pair left right =>
      have side : ∃ symbol, (symbol = left ∨ symbol = right) ∧
          other = sideName (b.helpers supply) symbol := by
        rcases List.mem_cons.mp occurs with equal | occurs
        · exact ⟨left, .inl rfl, equal⟩
        · exact ⟨right, .inr rfl, List.mem_singleton.mp occurs⟩
      obtain ⟨symbol, side, rfl⟩ := side
      rcases sideName_cases side listed with equal | ⟨char, -, helper⟩
      · have inPair : symbol ∈ [left, right] := by simpa using side
        rw [equal, ← Alternative.mem_names_iff] at inPair
        exact .inl ⟨name, Grammar.mem_referenced_iff.mpr
          ⟨_, mem_alternatives_toGrammar_iff.mpr ⟨_, listed, rfl⟩, inPair⟩⟩
      · exact .inr ⟨char, helper⟩
  · rw [productions_helper inUse helper, List.mem_singleton] at member
    subst member
    cases occurs

theorem wellFormed_toNormalForm (wellFormed : b.toGrammar.WellFormed) :
    (b.toNormalForm supply).1.WellFormed := by
  have kept : ∀ other ∈ b.toGrammar.nonterminals,
      other ∈ (b.toNormalForm supply).1.nonterminals := by
    intro other defined
    rw [nonterminals_toGrammar] at defined
    rw [nonterminals_toNormalForm inUse]
    exact List.mem_append_left _ defined
  rw [NormalForm.wellFormed_iff]
  refine ⟨kept _ wellFormed.start_mem, fun name production member other occurs => ?_⟩
  rcases names_toNormalForm_cases inUse member occurs with ⟨origin, refers⟩ | ⟨_, helper⟩
  · obtain ⟨alternative, listed, occurs⟩ := Grammar.mem_referenced_iff.mp refers
    exact kept other (wellFormed.mem_nonterminals listed occurs)
  · exact helper_mem_nonterminals inUse helper

/-- A pair leads to what stands for its sides. -/
theorem reaches_sideName {left right symbol : Symbol} (side : symbol = left ∨ symbol = right)
    (member : .pair left right ∈ b.productions name) :
    (b.toNormalForm supply).1.Reaches name (sideName (b.helpers supply) symbol) := by
  have listed : [left, right] ∈ b.toGrammar.alternatives name :=
    mem_alternatives_toGrammar_iff.mpr ⟨_, member, rfl⟩
  have defined := Grammar.mem_nonterminals_of_mem_alternatives listed
  rw [nonterminals_toGrammar] at defined
  have kept : isolate (b.helpers supply) (.pair left right) ∈
      (b.toNormalForm supply).1.productions name := by
    rw [productions_toNormalForm inUse defined]
    exact List.mem_map.mpr ⟨_, member, rfl⟩
  refine .single ⟨_, kept, ?_⟩
  rcases side with rfl | rfl
  · exact List.mem_cons_self
  · exact List.mem_cons_of_mem _ List.mem_cons_self

theorem reaches_toNormalForm {target : String} (reached : b.toGrammar.Reaches name target) :
    (b.toNormalForm supply).1.Reaches name target := by
  induction reached with
  | refl => exact .refl
  | @tail origin target _ refers ih =>
    obtain ⟨alternative, listed, occurs⟩ := Grammar.mem_referenced_iff.mp refers
    obtain ⟨production, member, rfl⟩ := mem_alternatives_toGrammar_iff.mp listed
    rw [Alternative.mem_names_iff] at occurs
    cases production with
    | terminal char => simp [BinaryProduction.alternative] at occurs
    | pair left right =>
      have side : .nonterminal target = left ∨ .nonterminal target = right := by
        simpa [BinaryProduction.alternative] using occurs
      exact ih.trans (reaches_sideName inUse side member)

/-- Where the nonterminals of the binary grammar are useful, so are they and the helpers in the
normal form. -/
theorem trim_toNormalForm (trim : b.toGrammar.Trim) : (b.toNormalForm supply).1.Trim := by
  have original : ∀ name ∈ b.rules.names, (b.toNormalForm supply).1.Useful name := by
    intro name defined
    rw [← nonterminals_toGrammar] at defined
    obtain ⟨reached, word, derives⟩ := trim name defined
    exact ⟨reaches_toNormalForm inUse reached, word, derives_toNormalForm_of_derives inUse derives⟩
  intro name member
  rcases nonterminals_cases inUse member with defined | ⟨char, paired, helper⟩
  · exact original name defined
  · obtain ⟨origin, production, member, occurs⟩ := mem_pairedChars_iff.mp paired
    cases production with
    | terminal other => cases occurs
    | pair left right =>
      have side := (mem_pairChars_iff.mp occurs).imp Eq.symm Eq.symm
      have toHelper := reaches_sideName inUse side member
      rw [sideName, helper, Option.getD_some] at toHelper
      obtain ⟨productions, filed, -⟩ := RuleTable.mem_getD_iff.mp member
      have toOrigin := (original origin (RuleTable.mem_names_iff.mpr ⟨_, filed⟩)).reached
      refine ⟨toOrigin.trans toHelper, [char], .terminal ?_⟩
      rw [productions_helper inUse helper]
      exact List.mem_cons_self

end Useful

end ContextFree.BinaryGrammar
