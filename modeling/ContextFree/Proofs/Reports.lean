import ContextFree.Proofs.Uses

/-!
# Reports on a grammar text

A text is refused for the faults of its rule lines, for having no rule line, or for the uses of
names that no line defines (`readNamed_reports_faults`). What is reported is given by two lists, of
faults and of uses, that hold all there is of their kind in the order of the text (`Lists`). A text
that is not refused is grouped as its lines stand (`readNamed_groups_rule_lines`).
-/

namespace ContextFree

namespace Source

variable {line : List Char}

/-! ## Faults of rule lines -/

/-- The number and the fault of a rule line, if it has one. -/
def fault? (numbered : List Char × Nat) : Option (Nat × Fault) :=
  match readRule numbered.1 with
  | .error fault => some (numbered.2, fault)
  | .ok _ => none

/-- The faults of the rule lines of a text. -/
def faultsOf (text : List Char) : List (Nat × Fault) := (ruleLines text).filterMap fault?

/-- A rule line of the text has this number and this fault. -/
def FaultAt (text : List Char) (found : Nat × Fault) : Prop :=
  ∃ line, RuleLineAt text found.1 line ∧ Faulty line found.2

/-- The report on a fault of a line. -/
def faultReport (source : String) (found : Nat × Fault) : Report := ⟨⟨source, found.1⟩, found.2⟩

theorem fault?_eq_some_iff {numbered : List Char × Nat} {found : Nat × Fault} :
    fault? numbered = some found ↔ numbered.2 = found.1 ∧ Faulty numbered.1 found.2 := by
  obtain ⟨number, fault⟩ := found
  rw [← readRule_eq_error_iff, fault?]
  cases readRule numbered.1 <;> simp

theorem lists_faultsOf (text : List Char) :
    Lists (fun first second => first.1 < second.1) (FaultAt text) (faultsOf text) where
  ascending := by
    rw [faultsOf, List.pairwise_filterMap]
    refine (pairwise_ruleLines text).imp fun {first second} before found is found' is' => ?_
    rw [← (fault?_eq_some_iff.mp is).1, ← (fault?_eq_some_iff.mp is').1]
    exact before
  mem_iff found := by
    rw [faultsOf, List.mem_filterMap]
    constructor
    · rintro ⟨⟨line, number⟩, listed, foundIs⟩
      obtain ⟨rfl, faulty⟩ := fault?_eq_some_iff.mp foundIs
      exact ⟨line, mem_ruleLines_iff.mp listed, faulty⟩
    · rintro ⟨line, ruleLine, faulty⟩
      exact ⟨(line, found.1), mem_ruleLines_iff.mpr ruleLine, fault?_eq_some_iff.mpr ⟨rfl, faulty⟩⟩

theorem filterMap_malformed? (source : String) (text : List Char) :
    (ruleLines text).filterMap (malformed? source) =
      (faultsOf text).map (faultReport source) := by
  rw [faultsOf, List.map_filterMap]
  refine List.filterMap_congr fun numbered _ => ?_
  rw [malformed?, fault?]
  cases readRule numbered.1 <;> rfl

/-! ## Lines without faults -/

theorem forall₂_states {lines : List (List Char)}
    (readable : ∀ line ∈ lines, ∃ production, readRule line = .ok production) :
    List.Forall₂ (fun line production => States line production.1 production.2) lines
      (lines.filterMap fun line => (readRule line).toOption) := by
  induction lines with
  | nil => exact .nil
  | cons line others ih =>
    obtain ⟨production, read⟩ := readable line List.mem_cons_self
    have behind := ih fun other member => readable other (List.mem_cons_of_mem _ member)
    rw [List.filterMap_cons, read]
    exact .cons (readRule_eq_ok_iff.mp read) behind

theorem Faulty.ne_grammar {fault : Fault} (faulty : Faulty line fault)
    (error : GrammarError) : fault ≠ .grammar error := by
  cases faulty with
  | missingArrow | leftHandSide | emptyRightHandSide => simp
  | rightHandSide _ _ _ _ misfit => cases misfit <;> simp

end Source

/-! ## What is reported -/

namespace Grammar

open Source

variable {source text : String} {g : Grammar}

theorem readNamed_of_faults (faulty : faultsOf text.toList ≠ []) :
    readNamed source text = .error ((faultsOf text.toList).map (faultReport source)) := by
  have malformed := filterMap_malformed? source text.toList
  obtain ⟨found, others, faults⟩ := List.exists_cons_of_ne_nil faulty
  rw [faults, List.map_cons] at malformed
  simp only [readNamed, malformed, faults, List.map_cons]

theorem readNamed_of_clean (clean : faultsOf text.toList = []) :
    readNamed source text = grammarOfRules source (rulesOf text.toList) := by
  have malformed := filterMap_malformed? source text.toList
  rw [clean, List.map_nil] at malformed
  simp only [readNamed, malformed, rulesOf]

theorem exists_first_of_clean (clean : faultsOf text.toList = []) {number : Nat}
    {line : List Char} (ruleLine : RuleLineAt text.toList number line) :
    ∃ first, (rulesOf text.toList).head? = some first := by
  have states : ∃ lhs alternative, States line lhs alternative := by
    refine (states_or_faulty line).resolve_right ?_
    rintro ⟨fault, faulty⟩
    have listed : (number, fault) ∈ faultsOf text.toList :=
      ((lists_faultsOf text.toList).mem_iff _).mpr ⟨line, ruleLine, faulty⟩
    rw [clean] at listed
    cases listed
  obtain ⟨lhs, alternative, states⟩ := states
  have listed : ⟨number, lhs, alternative⟩ ∈ rulesOf text.toList :=
    mem_rulesOf_iff.mpr ⟨line, ruleLine, states⟩
  exact ⟨_, List.head?_eq_some_head (List.ne_nil_of_mem listed)⟩

theorem readNamed_of_undefined (clean : faultsOf text.toList = [])
    (undefined : undefinedOf (rulesOf text.toList) ≠ []) :
    readNamed source text =
      .error ((undefinedOf (rulesOf text.toList)).map (Use.report source)) := by
  have reports := undefinedUses_rulesOf source text.toList
  obtain ⟨use, others, uses⟩ := List.exists_cons_of_ne_nil undefined
  rw [uses, List.map_cons] at reports ⊢
  rw [readNamed_of_clean clean]
  cases rules : rulesOf text.toList with
  | nil => simp [rules, undefinedOf] at uses
  | cons first rest =>
    rw [rules] at reports
    simp only [grammarOfRules, reports]

theorem readNamed_of_defined (clean : faultsOf text.toList = []) {first : Rule}
    (leads : (rulesOf text.toList).head? = some first)
    (defined : undefinedOf (rulesOf text.toList) = []) :
    readNamed source text = .ok (grammarFrom first (rulesOf text.toList)) := by
  have allDefined : AllDefined (rulesOf text.toList) := by
    rw [← undefinedUses_eq_nil_iff source, undefinedUses_rulesOf, defined, List.map_nil]
  rw [readNamed_of_clean clean, grammarOfRules_eq_ok_iff source
    fun rule member => (writable_of_mem_rulesOf member).ne_nil]
  exact ⟨allDefined, first, leads, rfl⟩

/-- A text with faulty rule lines is refused with one report for each of them, one without rule
lines for that, and any other with one report for each use of a name that no rule line defines;
if there is none, it is accepted. -/
theorem readNamed_reports_faults (source text : String) :
    ∃ faults uses, Lists (fun first second => first.1 < second.1) (FaultAt text.toList) faults ∧
      Lists Use.Before (UndefinedAt text.toList) uses ∧
      (faults ≠ [] → readNamed source text = .error (faults.map (faultReport source))) ∧
      (faults = [] → (∀ number line, ¬ RuleLineAt text.toList number line) →
        readNamed source text = .error [⟨.whole source, .noRules⟩]) ∧
      (faults = [] → (∃ number line, RuleLineAt text.toList number line) →
        (uses ≠ [] → readNamed source text = .error (uses.map (Use.report source))) ∧
        (uses = [] → ∃ g, readNamed source text = .ok g)) := by
  refine ⟨faultsOf text.toList, undefinedOf (rulesOf text.toList), lists_faultsOf _,
    lists_undefinedOf _, readNamed_of_faults, ?_, ?_⟩
  · intro clean noRuleLine
    have noRules : rulesOf text.toList = [] := by
      rw [List.eq_nil_iff_forall_not_mem]
      intro rule listed
      obtain ⟨line, ruleLine, -⟩ := mem_rulesOf_iff.mp listed
      exact noRuleLine _ _ ruleLine
    rw [readNamed_of_clean clean, noRules]
    rfl
  · rintro clean ⟨number, line, ruleLine⟩
    obtain ⟨first, leads⟩ := exists_first_of_clean clean ruleLine
    refine ⟨readNamed_of_undefined clean, fun defined => ?_⟩
    exact ⟨_, readNamed_of_defined clean leads defined⟩

/-- Uses of one line are reported together, although the rules of `S` are gathered first. -/
example : readNamed "g" "S -> A S\nT -> B\nS -> C\n" =
    .error [⟨⟨"g", 1⟩, .undefinedNonterminal "A"⟩, ⟨⟨"g", 2⟩, .undefinedNonterminal "B"⟩,
      ⟨⟨"g", 3⟩, .undefinedNonterminal "C"⟩] := by cbv

/-! ## What is accepted -/

/-- A text that is accepted is grouped as its rule lines stand: the start symbol is the first
left-hand side, the nonterminals are the left-hand sides where they first occur, and each has the
alternatives of its lines, all of them in order. No text passes the checks on its lines and then
fails those on the grammar. -/
theorem readNamed_groups_rule_lines (source text : String) :
    (∀ g, readNamed source text = .ok g → ∃ productions : List (String × Alternative),
      List.Forall₂ (fun line production => States line production.1 production.2)
        ((Text.lines text.toList).filter (HoldsRule ·)) productions ∧
      productions.head?.map Prod.fst = some g.start ∧
      g.nonterminals = (productions.map Prod.fst).eraseDups ∧
      (∀ name, g.alternatives name =
        (productions.filter fun production => production.1 = name).map Prod.snd) ∧
      g.productionCount = ((Text.lines text.toList).filter (HoldsRule ·)).length) ∧
    ∀ reports, readNamed source text = .error reports →
      ∀ report ∈ reports, ∀ error, report.fault ≠ .grammar error := by
  constructor
  · intro g accepted
    obtain ⟨readable, -, first, leads, rfl⟩ := readNamed_eq_ok_iff.mp accepted
    have stated := forall₂_states readable
    rw [← map_production_rulesOf, filter_isRuleLine] at stated
    refine ⟨_, stated, ?_, ?_, fun name => alternatives_grammarFrom, ?_⟩
    · rw [List.head?_map, leads]
      rfl
    · rw [nonterminals_grammarFrom, List.map_map]
      rfl
    · rw [stated.length_eq, List.length_map]
      exact length_values_tableOf _
  · intro reports refused report member error
    by_cases clean : faultsOf text.toList = []
    · cases leads : (rulesOf text.toList).head? with
      | none =>
        rw [readNamed_of_clean clean, List.head?_eq_none_iff.mp leads] at refused
        cases refused
        rw [List.mem_singleton.mp member]
        simp
      | some first =>
        by_cases defined : undefinedOf (rulesOf text.toList) = []
        · rw [readNamed_of_defined clean leads defined] at refused
          cases refused
        · rw [readNamed_of_undefined clean defined] at refused
          cases refused
          obtain ⟨use, -, rfl⟩ := List.mem_map.mp member
          simp [Use.report]
    · rw [readNamed_of_faults clean] at refused
      cases refused
      obtain ⟨found, listed, rfl⟩ := List.mem_map.mp member
      obtain ⟨line, -, faulty⟩ := ((lists_faultsOf text.toList).mem_iff found).mp listed
      exact faulty.ne_grammar error

end Grammar

end ContextFree
