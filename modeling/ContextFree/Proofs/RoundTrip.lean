import ContextFree.Proofs.Grouping

/-!
# Printing a grammar and reading it back

A grammar comes back from its printed form exactly when it is printable: its names are names of
the notation, its terminals cannot be taken for anything else, every nonterminal shows up on a
line and the start symbol does so first. A grammar that was read from a text is always printable.

The lines of the printed form are the productions one by one, so that reading and grouping them
undoes the printing as long as no rule is without a line.
-/

namespace ContextFree

/-! ## Lines -/

namespace Text

variable {line chars : List Char}

theorem dropReturn_of_notMem (absent : '\r' ∉ chars) : dropReturn chars = chars := by
  unfold dropReturn
  split
  · exact absurd List.mem_cons_self absent
  · rfl

/-- A line goes on to the next line feed. -/
theorem linesFrom_append (unbroken : '\n' ∉ chars) (rest : List Char) :
    linesFrom line (chars ++ '\n' :: rest) =
      (dropReturn (chars.reverse ++ line)).reverse :: linesFrom [] rest := by
  induction chars generalizing line with
  | nil => simp [linesFrom]
  | cons char others ih =>
    rw [List.mem_cons, not_or] at unbroken
    rw [List.cons_append, linesFrom, if_neg (Ne.symm unbroken.1), ih unbroken.2]
    simp

/-- Lines that are written one below the other are the lines of the text. -/
theorem lines_flatMap {written : List (List Char)}
    (plain : ∀ line ∈ written, '\n' ∉ line ∧ '\r' ∉ line) :
    lines (written.flatMap (· ++ ['\n'])) = written := by
  induction written with
  | nil => rfl
  | cons line others ih =>
    obtain ⟨unbroken, returnless⟩ := plain line List.mem_cons_self
    have readOthers := ih fun other member => plain other (List.mem_cons_of_mem _ member)
    rw [List.flatMap_cons, List.append_assoc, List.singleton_append, lines,
      linesFrom_append unbroken, List.append_nil, dropReturn_of_notMem (by simpa using returnless),
      List.reverse_reverse, ← lines, readOthers]

end Text

/-! ## The printed form -/

namespace Grammar

variable {g : Grammar} {name : String} {alternative : Alternative}

/-- The productions of a list of rules, one by one. -/
def productionsOf (entries : List (String × List Alternative)) : List (String × Alternative) :=
  entries.flatMap fun entry => entry.2.map (Prod.mk entry.1)

/-- The productions of a grammar, in the order in which they are printed. -/
def productions (g : Grammar) : List (String × Alternative) := productionsOf g.rules.entries

theorem map_fst_productionsOf_subset (entries : List (String × List Alternative)) :
    (productionsOf entries).map Prod.fst ⊆ entries.map Prod.fst := by
  intro name member
  simp only [productionsOf, List.map_flatMap, List.mem_flatMap, List.map_map, List.mem_map,
    Function.comp_apply] at member
  obtain ⟨entry, filed, _, -, rfl⟩ := member
  exact List.mem_map.mpr ⟨entry, filed, rfl⟩

theorem mem_productions_iff :
    (name, alternative) ∈ g.productions ↔ alternative ∈ g.alternatives name := by
  rw [mem_alternatives_iff, productions, productionsOf, List.mem_flatMap]
  constructor
  · rintro ⟨⟨lhs, alternatives⟩, filed, member⟩
    obtain ⟨other, listed, equal⟩ := List.mem_map.mp member
    cases equal
    exact ⟨alternatives, filed, listed⟩
  · rintro ⟨alternatives, filed, listed⟩
    exact ⟨(name, alternatives), filed, List.mem_map.mpr ⟨alternative, listed, rfl⟩⟩

theorem symbolChars_eq (nonempty : alternative ≠ []) :
    Source.symbolChars alternative = ' ' :: (Alternative.text alternative).toList := by
  rw [Alternative.text, String.toList_intercalate, List.map_map]
  induction alternative with
  | nil => exact absurd rfl nonempty
  | cons symbol rest ih =>
    cases rest with
    | nil => simp [Source.symbolChars]
    | cons next rest =>
      have behind := ih (List.cons_ne_nil _ _)
      rw [Source.symbolChars, List.flatMap_cons, ← Source.symbolChars, behind]
      simp [List.intercalate_cons_cons]

theorem toList_productionLine (lhs : String) (nonempty : alternative ≠ []) :
    (productionLine lhs alternative).toList = Source.ruleChars lhs alternative ++ ['\n'] := by
  simp [productionLine, Source.ruleChars, symbolChars_eq nonempty]

theorem toList_render (wellFormed : g.WellFormed) :
    g.render.toList = (g.productions.map fun production =>
      Source.ruleChars production.1 production.2).flatMap (· ++ ['\n']) := by
  have lines : g.render.toList = g.productions.flatMap fun production =>
      (productionLine production.1 production.2).toList := by
    simp [render, productions, productionsOf, List.flatMap_assoc, List.flatMap_map,
      String.toList_join]
  rw [lines, List.flatMap_map, List.flatMap_def, List.flatMap_def]
  congr 1
  refine List.map_congr_left fun production member => ?_
  exact toList_productionLine production.1
    (wellFormed.ne_nil_of_mem (mem_productions_iff.mp member))

/-! ## Printable grammars -/

/-- The grammar can be told from its printed form. -/
structure Printable (g : Grammar) : Prop where
  names : ∀ name ∈ g.nonterminals, Name.isNonterminalName name = true
  terminals : ∀ char ∈ g.terminals, Source.isTerminal char = true
  inhabited : ∀ name ∈ g.nonterminals, g.alternatives name ≠ []
  start_first : g.nonterminals.head? = some g.start

theorem mem_chars_iff {char : Char} :
    char ∈ Alternative.chars alternative ↔ .terminal char ∈ alternative := by
  rw [Alternative.chars, List.mem_filterMap]
  constructor
  · rintro ⟨symbol, member, spelled⟩
    cases symbol with
    | terminal other =>
      cases spelled
      exact member
    | nonterminal name => cases spelled
  · intro member
    exact ⟨_, member, rfl⟩

theorem mem_terminals_iff {char : Char} :
    char ∈ g.terminals ↔
      ∃ name, ∃ alternative ∈ g.alternatives name, .terminal char ∈ alternative := by
  rw [terminals, Alphabet.mem_ofChars, List.mem_flatMap]
  simp only [mem_alternatives_iff, ← mem_chars_iff, RuleTable.values,
    List.mem_flatten, List.mem_map]
  constructor
  · rintro ⟨alternative, ⟨_, ⟨⟨name, alternatives⟩, filed, rfl⟩, listed⟩, occurs⟩
    exact ⟨name, alternative, ⟨alternatives, filed, listed⟩, occurs⟩
  · rintro ⟨name, alternative, ⟨alternatives, filed, listed⟩, occurs⟩
    exact ⟨alternative, ⟨alternatives, ⟨(name, alternatives), filed, rfl⟩, listed⟩, occurs⟩

theorem Printable.writable (printable : g.Printable) (wellFormed : g.WellFormed)
    (member : alternative ∈ g.alternatives name) : Source.Writable name alternative where
  name := printable.names name (mem_nonterminals_of_mem_alternatives member)
  ne_nil := wellFormed.ne_nil_of_mem member
  symbols symbol occurs := by
    cases symbol with
    | terminal char =>
      exact printable.terminals char (mem_terminals_iff.mpr ⟨name, alternative, member, occurs⟩)
    | nonterminal other =>
      exact printable.names other
        (wellFormed.mem_nonterminals member (Alternative.mem_names_iff.mpr occurs))

/-! ## Reading the printed form -/

theorem alternativesFor_rule (lhs : String) (alternatives : List Alternative) (name : String) :
    Source.alternativesFor (alternatives.map (Prod.mk lhs)) name =
      if name = lhs then alternatives else [] := by
  by_cases equal : name = lhs
  · subst equal
    simp [Source.alternativesFor, List.filter_map, Function.comp_def]
  · simp [Source.alternativesFor, equal, Ne.symm equal]

theorem alternativesFor_productionsOf {entries : List (String × List Alternative)}
    (distinct : (entries.map Prod.fst).Nodup) (name : String) :
    Source.alternativesFor (productionsOf entries) name = (entries.lookup name).getD [] := by
  induction entries with
  | nil => rfl
  | cons entry rest ih =>
    obtain ⟨lhs, alternatives⟩ := entry
    rw [List.map_cons, List.nodup_cons] at distinct
    rw [productionsOf, List.flatMap_cons, ← productionsOf, Source.alternativesFor_append,
      alternativesFor_rule, ih distinct.2, List.lookup_cons]
    by_cases equal : name = lhs
    · subst equal
      have absent : rest.lookup name = none := by
        rw [List.lookup_eq_none_iff]
        intro entry filed
        exact bne_iff_ne.mpr fun same =>
          distinct.1 (List.mem_map.mpr ⟨entry, filed, same.symm⟩)
      simp [absent]
    · have missed : (name == lhs) = false := by simpa using equal
      simp [missed, equal]

theorem eraseDups_map_fst_productionsOf {entries : List (String × List Alternative)}
    (distinct : (entries.map Prod.fst).Nodup) (inhabited : ∀ entry ∈ entries, entry.2 ≠ []) :
    ((productionsOf entries).map Prod.fst).eraseDups = entries.map Prod.fst := by
  induction entries with
  | nil => rfl
  | cons entry rest ih =>
    obtain ⟨lhs, alternatives⟩ := entry
    rw [List.map_cons, List.nodup_cons] at distinct
    have behind := ih distinct.2 fun entry filed => inhabited entry (List.mem_cons_of_mem _ filed)
    rw [productionsOf, List.flatMap_cons, ← productionsOf, List.map_append, List.map_map]
    have once : (alternatives.map (Prod.fst ∘ Prod.mk lhs)).eraseDups = [lhs] := by
      cases alternatives with
      | nil => exact absurd rfl (inhabited _ List.mem_cons_self)
      | cons alternative others => simp [List.eraseDups_cons, Function.comp_def]
    have others : ((productionsOf rest).map Prod.fst).removeAll
        (alternatives.map (Prod.fst ∘ Prod.mk lhs)) = (productionsOf rest).map Prod.fst := by
      rw [List.removeAll, List.filter_eq_self]
      intro name member
      have other : name ∉ alternatives.map (Prod.fst ∘ Prod.mk lhs) := by
        intro again
        obtain ⟨_, -, rfl⟩ := List.mem_map.mp again
        exact distinct.1 (map_fst_productionsOf_subset rest member)
      rw [List.elem_eq_mem, decide_eq_false other, Bool.not_false]
    rw [List.eraseDups_append, once, others, behind]
    rfl

theorem alternativesFor_productions (g : Grammar) (name : String) :
    Source.alternativesFor g.productions name = g.alternatives name :=
  alternativesFor_productionsOf g.rules.nodup_names name

theorem head?_eraseDups (names : List String) : names.eraseDups.head? = names.head? := by
  cases names with
  | nil => rfl
  | cons name rest => simp [List.eraseDups_cons]

theorem Printable.eraseDups_map_fst_productions (printable : g.Printable) :
    (g.productions.map Prod.fst).eraseDups = g.nonterminals := by
  refine eraseDups_map_fst_productionsOf g.rules.nodup_names fun entry filed => ?_
  rw [← alternatives_eq_of_mem_entries filed]
  exact printable.inhabited entry.1 (RuleTable.mem_names_iff.mpr ⟨entry.2, filed⟩)

/-- Rules that say what the lines of a printable grammar say make up that grammar. -/
theorem Printable.grammarFrom_eq (printable : g.Printable) {first : Source.Rule}
    {rules : List Source.Rule} (leads : rules.head? = some first)
    (same : rules.map Source.Rule.production = g.productions) :
    Source.grammarFrom first rules = g := by
  have names : (rules.map Source.Rule.lhs).eraseDups = g.nonterminals := by
    rw [← printable.eraseDups_map_fst_productions, ← same, List.map_map]
    rfl
  have table : Source.tableOf rules = g.rules := by
    apply RuleTable.ext_getD
    · rw [Source.names_tableOf, names]
      rfl
    · intro name
      rw [Source.getD_tableOf, same, alternativesFor_productions]
      rfl
  have start : first.lhs = g.start := by
    have leading := printable.start_first
    rw [← names, head?_eraseDups, List.head?_map, leads] at leading
    exact Option.some.inj leading
  rw [Source.grammarFrom, table, start]

theorem Printable.lines_render (printable : g.Printable) (wellFormed : g.WellFormed) :
    Text.lines g.render.toList =
      g.productions.map fun production => Source.ruleChars production.1 production.2 := by
  rw [toList_render wellFormed]
  apply Text.lines_flatMap
  intro line member
  obtain ⟨production, listed, rfl⟩ := List.mem_map.mp member
  have writable := printable.writable wellFormed (mem_productions_iff.mp listed)
  refine ⟨fun occurs => ?_, fun occurs => ?_⟩
  · exact absurd (Source.eq_space_of_mem_ruleChars writable occurs (by decide)) (by decide)
  · exact absurd (Source.eq_space_of_mem_ruleChars writable occurs (by decide)) (by decide)

theorem Printable.ruleLines_render (printable : g.Printable) (wellFormed : g.WellFormed) :
    (Text.lines g.render.toList).filter Source.isRuleLine =
      g.productions.map fun production => Source.ruleChars production.1 production.2 := by
  rw [printable.lines_render wellFormed, List.filter_eq_self, List.forall_mem_map]
  intro production listed
  exact Source.isRuleLine_ruleChars
    (printable.writable wellFormed (mem_productions_iff.mp listed)).name

theorem Printable.readRule_render (printable : g.Printable) (wellFormed : g.WellFormed)
    {production : String × Alternative} (listed : production ∈ g.productions) :
    Source.readRule (Source.ruleChars production.1 production.2) = .ok production :=
  Source.readRule_ruleChars (printable.writable wellFormed (mem_productions_iff.mp listed))

/-- The rules of the printed form say what the grammar says. -/
theorem Printable.map_production_rulesOf_render (printable : g.Printable)
    (wellFormed : g.WellFormed) :
    (Source.rulesOf g.render.toList).map Source.Rule.production = g.productions := by
  rw [Source.map_production_rulesOf, printable.ruleLines_render wellFormed, List.filterMap_map]
  refine (List.filterMap_congr fun production listed => ?_).trans List.filterMap_some
  rw [Function.comp_apply, printable.readRule_render wellFormed listed]
  rfl

/-- A printable grammar comes back from its printed form. -/
theorem Printable.read_render (printable : g.Printable) (wellFormed : g.WellFormed) :
    read g.render = .ok g := by
  have same := printable.map_production_rulesOf_render wellFormed
  have leftHandSides : (Source.rulesOf g.render.toList).map Source.Rule.lhs =
      g.productions.map Prod.fst := by
    rw [← same, List.map_map]
    rfl
  have defined : Source.AllDefined (Source.rulesOf g.render.toList) := by
    intro rule member name occurs
    have listed : rule.production ∈ g.productions := same ▸ List.mem_map.mpr ⟨rule, member, rfl⟩
    have known := wellFormed.mem_nonterminals (mem_productions_iff.mp listed) occurs
    rw [← printable.eraseDups_map_fst_productions, List.mem_eraseDups] at known
    rwa [leftHandSides]
  have leads : ∃ first, (Source.rulesOf g.render.toList).head? = some first := by
    have leading := printable.start_first
    rw [← printable.eraseDups_map_fst_productions, head?_eraseDups, ← leftHandSides,
      List.head?_map, Option.map_eq_some_iff] at leading
    obtain ⟨first, leads, -⟩ := leading
    exact ⟨first, leads⟩
  obtain ⟨first, leads⟩ := leads
  refine readNamed_eq_ok_iff.mpr ⟨?_, defined, first, leads, ?_⟩
  · rw [printable.ruleLines_render wellFormed, List.forall_mem_map]
    exact fun production listed => ⟨_, printable.readRule_render wellFormed listed⟩
  · exact (printable.grammarFrom_eq leads same).symm

/-! ## What is read is printable -/

/-- A grammar that was read from a text is well formed and printable. -/
theorem printable_of_read {text : String} (accepted : read text = .ok g) :
    g.WellFormed ∧ g.Printable := by
  obtain ⟨-, defined, first, leads, rfl⟩ := readNamed_eq_ok_iff.mp accepted
  have writable : ∀ rule ∈ Source.rulesOf text.toList, Source.Writable rule.lhs rule.alternative :=
    fun rule => Source.writable_of_mem_rulesOf
  have ofRule : ∀ name ∈ (Source.grammarFrom first (Source.rulesOf text.toList)).nonterminals,
      ∃ rule ∈ Source.rulesOf text.toList, rule.lhs = name := by
    intro name defined
    rw [Source.nonterminals_grammarFrom, List.mem_eraseDups] at defined
    exact List.mem_map.mp defined
  refine ⟨Source.wellFormed_grammarFrom (List.mem_of_mem_head? leads)
    (fun rule member => (writable rule member).ne_nil) defined, ?_, ?_, ?_, ?_⟩
  · intro name defined
    obtain ⟨rule, member, rfl⟩ := ofRule name defined
    exact (writable rule member).name
  · intro char occurs
    obtain ⟨name, alternative, listed, occurs⟩ := mem_terminals_iff.mp occurs
    obtain ⟨rule, member, -, rfl⟩ := Source.mem_alternatives_grammarFrom_iff.mp listed
    exact (writable rule member).symbols _ occurs
  · intro name defined
    obtain ⟨rule, member, rfl⟩ := ofRule name defined
    exact List.ne_nil_of_mem
      (Source.mem_alternatives_grammarFrom_iff.mpr ⟨rule, member, rfl, rfl⟩)
  · rw [Source.nonterminals_grammarFrom, head?_eraseDups, List.head?_map, leads]
    rfl

/-- Among the grammars that are accepted exactly the printable ones come back from their printed
form, and all that is read from a text is printable. -/
theorem read_render_eq_ok_iff_printable :
    (∀ start rules g, ofRules start rules = .ok g → (read g.render = .ok g ↔ g.Printable)) ∧
      ∀ text g, read text = .ok g → g.Printable ∧ read g.render = .ok g := by
  constructor
  · intro start rules g accepted
    refine ⟨fun again => (printable_of_read again).2, fun printable => ?_⟩
    exact printable.read_render (ofRules_eq_ok_iff.mp accepted).2
  · intro text g accepted
    obtain ⟨wellFormed, printable⟩ := printable_of_read accepted
    exact ⟨printable, printable.read_render wellFormed⟩

/-- Terminals that mean something elsewhere in the notation, and names of all kinds. -/
def punctuated : Grammar :=
  ⟨"S", ⟨[("S", [[.terminal ';', .nonterminal "[a1]", .terminal ']'],
      [.terminal '-', .terminal '>', .nonterminal "E1", .terminal '1']]),
    ("[a1]", [[.terminal 'é'], [.terminal 'é']]), ("E1", [[.nonterminal "S", .terminal 'z']])],
    by decide⟩⟩

/-- The same rules with the start symbol behind another nonterminal. -/
def startedLate : Grammar := ⟨"E1", punctuated.rules⟩

theorem read_render_eq_ok_iff_printable_punctuated :
    ofRules punctuated.start punctuated.rules = .ok punctuated ∧
      read punctuated.render = .ok punctuated ∧
      ofRules startedLate.start startedLate.rules = .ok startedLate ∧
      read startedLate.render ≠ .ok startedLate := by
  obtain ⟨comesBack, -⟩ := read_render_eq_ok_iff_printable
  have accepted : ofRules punctuated.start punctuated.rules = .ok punctuated := by decide
  have acceptedLate : ofRules startedLate.start startedLate.rules = .ok startedLate := by decide
  have terminals : ∀ char ∈ punctuated.terminals, Source.isTerminal char = true := by
    rw [← List.all_eq_true]
    decide
  have printable : punctuated.Printable := ⟨by decide, terminals, by decide, by decide⟩
  refine ⟨accepted, (comesBack _ _ _ accepted).mpr printable, acceptedLate, fun again => ?_⟩
  have first := ((comesBack _ _ _ acceptedLate).mp again).start_first
  exact absurd first (by decide)

end Grammar

end ContextFree
