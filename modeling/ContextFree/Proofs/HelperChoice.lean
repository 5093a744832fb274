import ContextFree.Proofs.ConversionChecks

/-!
# The choice of helpers

A terminal in a pair gives way to its helper, and to the same one wherever it stands. Which one this
is does not depend on where it is needed first: the first rule that serves, if there is one. The
other helpers are fresh, and for these the order of first need is the order of their rules.

The helpers are collected before they are put in. To walk through the pairs and to choose a helper
at each terminal that has none so far would come to the same: the terminals that need a fresh one
are listed in the order in which they first stand in a pair (`firstOccurrences_unserved`), which is
where such a walk would ask for a name, and the names are issued in the order of this list
(`issues_unserved`).

`toNormalForm_replaces_terminals` gives the normal form in full, as a function of the choice.
-/

namespace ContextFree

namespace NameSupply

/-- The names that are handed out show what they are for. -/
theorem exists_number_of_mem_freshFor {α : Type} {origin : Origin} {items : List α}
    {supply : NameSupply} {named : α × String} (member : named ∈ (freshFor origin items supply).1) :
    ∃ number, named.2 = origin.name number := by
  induction items generalizing supply with
  | nil => cases member
  | cons item rest ih =>
    rcases List.mem_cons.mp member with rfl | member
    · exact supply.exists_fresh_eq origin
    · exact ih member

end NameSupply

namespace BinaryGrammar

variable {b : BinaryGrammar} {supply : NameSupply} {char : Char} {name : String}

theorem WellFormed.toGrammar (wellFormed : b.WellFormed) : b.toGrammar.WellFormed := by
  rw [Grammar.wellFormed_iff, nonterminals_toGrammar]
  refine ⟨wellFormed.start_mem, fun name alternative member => ?_⟩
  obtain ⟨production, listed, rfl⟩ := mem_alternatives_toGrammar_iff.mp member
  obtain ⟨productions, filed, listed⟩ := RuleTable.mem_getD_iff.mp listed
  cases production with
  | terminal char => simp [BinaryProduction.alternative, Alternative.names, Symbol.name?]
  | pair left right =>
    refine ⟨List.cons_ne_nil _ _, fun other occurs => ?_⟩
    apply wellFormed.defined _ filed left right listed other
    simpa [BinaryProduction.alternative] using Alternative.mem_names_iff.mp occurs

/-! ## Rules that serve -/

/-- The name can stand for the terminal: it derives nothing else, and it is not the start symbol. -/
def Serves (b : BinaryGrammar) (char : Char) (name : String) : Prop :=
  name ≠ b.start ∧ b.productions name = [.terminal char]

instance (b : BinaryGrammar) (char : Char) (name : String) : Decidable (b.Serves char name) :=
  inferInstanceAs (Decidable (_ ∧ _))

/-- The name is the first one, in definition order, that can stand for the terminal. -/
def ServesFirst (b : BinaryGrammar) (char : Char) (name : String) : Prop :=
  b.Serves char name ∧ ∃ before after, b.rules.names = before ++ name :: after ∧
    ∀ other ∈ before, ¬ b.Serves char other

theorem existingHelper?_eq_find? (b : BinaryGrammar) (char : Char) :
    b.existingHelper? char = b.rules.names.find? (b.Serves char ·) := by
  have serves : ((fun entry : String × List BinaryProduction =>
      entry.1 != b.start && entry.2 == [.terminal char]) ∘
        fun name => (name, (b.rules.get? name).getD [])) =
          fun name => decide (b.Serves char name) := by
    funext name
    rw [Bool.eq_iff_iff, decide_eq_true_iff, Serves, productions]
    simp
  rw [existingHelper?, RuleTable.entries_eq_map, List.find?_map, Option.map_map, serves]
  exact Option.map_id'

theorem existingHelper?_eq_some_iff :
    b.existingHelper? char = some name ↔ b.ServesFirst char name := by
  rw [existingHelper?_eq_find?, List.find?_eq_some_iff_append]
  simp only [decide_eq_true_eq, Bool.not_eq_true', decide_eq_false_iff_not]
  rfl

theorem existingHelper?_eq_none_iff :
    b.existingHelper? char = none ↔ ∀ name ∈ b.rules.names, ¬ b.Serves char name := by
  rw [existingHelper?_eq_find?, List.find?_eq_none]
  simp only [decide_eq_true_eq]

/-! ## The helper of a terminal -/

/-- The terminals in the pairs, rule by rule and from left to right, each as often as it stands
there. -/
def terminalsInPairs (b : BinaryGrammar) : List Char := b.rules.values.flatten.flatMap pairChars

/-- The production with names put in for the terminals in its pair. -/
def withNames (choice : Char → String) : BinaryProduction → Production
  | .terminal char => .terminal char
  | .pair left right => .pair (put left) (put right)
where
  put : Symbol → String
    | .nonterminal name => name
    | .terminal char => choice char

/-- The helper of a terminal. -/
def helperFor (b : BinaryGrammar) (supply : NameSupply) (char : Char) : String :=
  sideName (b.helpers supply) (.terminal char)

theorem isolate_eq_withNames (b : BinaryGrammar) (supply : NameSupply) :
    isolate (b.helpers supply) = withNames (b.helperFor supply) := by
  funext production
  cases production with
  | terminal char => rfl
  | pair left right => cases left <;> cases right <;> rfl

theorem mem_terminalsInPairs_iff : char ∈ b.terminalsInPairs ↔ char ∈ b.pairedChars :=
  List.mem_eraseDups.symm

theorem lookup_helpers_eq (supply : NameSupply) (paired : char ∈ b.terminalsInPairs) :
    (b.helpers supply).lookup char = some (b.helperFor supply char) := by
  obtain ⟨name, found⟩ := exists_lookup_helpers supply (mem_terminalsInPairs_iff.mp paired)
  rw [helperFor, sideName, found, Option.getD_some]

/-- The terminals that need a fresh helper. -/
def unserved (b : BinaryGrammar) : List Char :=
  b.pairedChars.filter fun char => (b.existingHelper? char).isNone

theorem firstOccurrences_unserved (b : BinaryGrammar) :
    FirstOccurrences (b.terminalsInPairs.filter fun char =>
      ∀ name ∈ b.rules.names, ¬ b.Serves char name) b.unserved := by
  have lacking : (fun char => decide (∀ name ∈ b.rules.names, ¬ b.Serves char name)) =
      fun char => (b.existingHelper? char).isNone := by
    funext char
    rw [Bool.eq_iff_iff, decide_eq_true_eq, ← existingHelper?_eq_none_iff,
      Option.isNone_iff_eq_none]
  rw [lacking, unserved, pairedChars, ← eraseDups_filter]
  exact firstOccurrences_eraseDups _

/-- The fresh helpers, with the terminals they are for. -/
theorem freshHelpers_eq_map (b : BinaryGrammar) (supply : NameSupply) :
    (b.freshHelpers supply).1 = b.unserved.map fun char => (char, b.helperFor supply char) := by
  have chars : (b.freshHelpers supply).1.map Prod.fst = b.unserved :=
    NameSupply.map_fst_freshFor _ _ _
  rw [← chars, List.map_map]
  refine (List.map_id' _).symm.trans (List.map_congr_left fun helper created => ?_)
  have found : (b.helpers supply).lookup helper.1 = some helper.2 :=
    (RuleTable.lookup_eq_some_iff_mem (nodup_map_fst_helpers b supply)).mpr
      (List.mem_append_right _ created)
  rw [Function.comp_apply, helperFor, sideName, found]
  rfl

theorem issues_unserved (b : BinaryGrammar) (supply : NameSupply) :
    supply.Issues (b.unserved.map (b.helperFor supply)) (b.toNormalForm supply).2 := by
  have issues := b.issues_freshHelpers supply
  rw [freshHelpers_eq_map, List.map_map] at issues
  exact issues

/-- A helper is the first rule that serves or, where there is none, fresh. -/
theorem helperFor_cases (paired : char ∈ b.terminalsInPairs) :
    b.ServesFirst char (b.helperFor supply char) ∨
      (∀ name ∈ b.rules.names, ¬ b.Serves char name) ∧ char ∈ b.unserved ∧
        b.helperFor supply char ∉ supply.used ∧
        ∃ number, b.helperFor supply char = Origin.helper.name number := by
  cases found : b.existingHelper? char with
  | none =>
    have lacking : char ∈ b.unserved :=
      List.mem_filter.mpr ⟨mem_terminalsInPairs_iff.mp paired, by simp [found]⟩
    have created : (char, b.helperFor supply char) ∈ (b.freshHelpers supply).1 := by
      rw [freshHelpers_eq_map]
      exact List.mem_map.mpr ⟨char, lacking, rfl⟩
    refine .inr ⟨existingHelper?_eq_none_iff.mp found, lacking, ?_,
      NameSupply.exists_number_of_mem_freshFor created⟩
    exact (b.issues_unserved supply).notMem_used _ (List.mem_map.mpr ⟨char, lacking, rfl⟩)
  | some name =>
    rcases (lookup_helpers_cases (lookup_helpers_eq supply paired)).2 with served | created
    · exact .inl (existingHelper?_eq_some_iff.mp served)
    · rw [freshHelpers_eq_map] at created
      obtain ⟨_, lacking, equal⟩ := List.mem_map.mp created
      cases equal
      simp [unserved, found] at lacking

/-- Every terminal in a pair gives way to one name, and nothing else changes. The name is that of
the first rule that serves or a fresh one, whose rule comes behind the others in the order in which
they are needed; its only production is the terminal, it is not the start symbol, and no other
terminal has it. The nonterminals of the binary grammar derive what they did. -/
theorem toNormalForm_replaces_terminals (wellFormed : b.WellFormed) {supply : NameSupply}
    (inUse : b.rules.names ⊆ supply.used) :
    ∃ c choice created, (b.toNormalForm supply).1 = c ∧ c.start = b.start ∧
      c.rules.entries =
        (b.rules.entries.map fun entry => (entry.1, entry.2.map (withNames choice))) ++
          created.map (fun char => (choice char, [.terminal char])) ∧
      FirstOccurrences (b.terminalsInPairs.filter fun char =>
        ∀ name ∈ b.rules.names, ¬ b.Serves char name) created ∧
      supply.Issues (created.map choice) (b.toNormalForm supply).2 ∧
      (∀ char ∈ b.terminalsInPairs,
        (b.ServesFirst char (choice char) ∨
          (∀ name ∈ b.rules.names, ¬ b.Serves char name) ∧ char ∈ created ∧
            choice char ∉ supply.used ∧ ∃ number, choice char = Origin.helper.name number) ∧
        choice char ≠ b.start ∧ c.productions (choice char) = [.terminal char] ∧
        ∀ other ∈ b.terminalsInPairs, choice char = choice other → char = other) ∧
      ∀ name ∈ b.rules.names, ∀ word, c.Derives name word ↔ b.toGrammar.Derives name word := by
  have only : ∀ char ∈ b.terminalsInPairs,
      (b.toNormalForm supply).1.productions (b.helperFor supply char) = [.terminal char] :=
    fun char paired => productions_helper inUse (lookup_helpers_eq supply paired)
  refine ⟨_, b.helperFor supply, b.unserved, rfl, rfl, ?_, b.firstOccurrences_unserved,
    b.issues_unserved supply, fun char paired => ⟨helperFor_cases paired, ?_, only char paired, ?_⟩,
    fun name defined word => derives_toNormalForm_iff inUse wellFormed.toGrammar defined⟩
  · rw [entries_toNormalForm inUse, freshHelpers_eq_map, isolate_eq_withNames, List.map_map]
    rfl
  · exact helper_ne_start inUse wellFormed.start_mem (lookup_helpers_eq supply paired)
  · intro other pairedOther equal
    have same := (only char paired).symm.trans (equal ▸ only other pairedOther)
    simpa using same

/-- Two rules serve for `a`. The only rule for `b` is that of the start symbol, and none is for `c`.
A name that looks like that of a helper is taken. -/
def unisolated : BinaryGrammar :=
  ⟨"S", ⟨[("S", [.terminal 'b']),
    ("A", [.pair (.terminal 'a') (.terminal 'b'), .pair (.terminal 'c') (.nonterminal "A")]),
    ("B", [.terminal 'a']), ("C", [.terminal 'a']),
    ("[TERM1]", [.pair (.terminal 'c') (.terminal 'a')])], by decide⟩⟩

theorem toNormalForm_replaces_terminals_unisolated :
    unisolated.WellFormed ∧
      unisolated.rules.names ⊆ (NameSupply.ofGrammar unisolated.toGrammar).used ∧
      (unisolated.toNormalForm (.ofGrammar unisolated.toGrammar)).1.rules.entries =
        [("S", [.terminal 'b']), ("A", [.pair "B" "[TERM2]", .pair "[TERM3]" "A"]),
          ("B", [.terminal 'a']), ("C", [.terminal 'a']), ("[TERM1]", [.pair "[TERM3]" "B"]),
          ("[TERM2]", [.terminal 'b']), ("[TERM3]", [.terminal 'c'])] ∧
      ∀ word, (unisolated.toNormalForm (.ofGrammar unisolated.toGrammar)).1.Derives "A" word ↔
        unisolated.toGrammar.Derives "A" word := by
  have wellFormed : unisolated.WellFormed :=
    wellFormed_of_toGrammar (Grammar.faults_eq_nil_iff.mp (by decide))
  have inUse : unisolated.rules.names ⊆ (NameSupply.ofGrammar unisolated.toGrammar).used := by
    rw [← nonterminals_toGrammar]
    exact List.Subset.refl _
  obtain ⟨_, -, -, rfl, -, -, -, -, -, derives⟩ := toNormalForm_replaces_terminals wellFormed inUse
  exact ⟨wellFormed, inUse, by decide +kernel, derives "A" (by decide)⟩

end BinaryGrammar

end ContextFree
