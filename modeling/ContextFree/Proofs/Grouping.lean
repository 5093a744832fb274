import ContextFree.Proofs.Derivation
import ContextFree.Proofs.RuleLine
import ContextFree.Source.Grammar
import Mathlib.Data.List.Induction
import Mathlib.Data.List.Perm.Basic

/-!
# Rules grouped into a grammar

The rules of a text are grouped by their left-hand sides. The names of the table are the
left-hand sides without repetition, and the alternatives of a name are those of its rules, all in
the order of the text. The groups together hold each rule once (`perm_values_groupsOf`). Since no
rule that is read from a line has an empty right-hand side, rules without an undefined name always
make up a grammar (`grammarOfRules_eq_ok_iff`).
-/

namespace ContextFree

namespace Source

/-- What a rule says, wherever it stands. -/
def Rule.production (rule : Rule) : String × Alternative := (rule.lhs, rule.alternative)

/-- The alternatives that the productions have for a name, in order. -/
def alternativesFor (productions : List (String × Alternative)) (name : String) :
    List Alternative :=
  (productions.filter fun production => production.1 = name).map Prod.snd

theorem alternativesFor_append (first second : List (String × Alternative)) (name : String) :
    alternativesFor (first ++ second) name =
      alternativesFor first name ++ alternativesFor second name := by
  simp [alternativesFor]

theorem groupsOf_append_singleton (rules : List Rule) (rule : Rule) :
    groupsOf (rules ++ [rule]) = (groupsOf rules).push rule.lhs rule := by
  rw [groupsOf, List.foldl_append]
  rfl

theorem eraseDups_append_singleton (names : List String) (name : String) :
    (names ++ [name]).eraseDups =
      if name ∈ names then names.eraseDups else names.eraseDups ++ [name] := by
  rw [List.eraseDups_append]
  by_cases known : name ∈ names
  · simp [known, List.removeAll]
  · simp [known, List.removeAll, List.eraseDups_cons]

theorem names_groupsOf (rules : List Rule) :
    (groupsOf rules).names = (rules.map Rule.lhs).eraseDups := by
  induction rules using List.reverseRecOn with
  | nil => rfl
  | append_singleton rules rule ih =>
    rw [groupsOf_append_singleton, RuleTable.push, RuleTable.names_insert, ih, List.map_append,
      List.map_singleton, eraseDups_append_singleton]
    simp only [List.mem_eraseDups]

theorem getD_groupsOf (rules : List Rule) (name : String) :
    ((groupsOf rules).get? name).getD [] = rules.filter fun rule => rule.lhs = name := by
  induction rules using List.reverseRecOn with
  | nil => rfl
  | append_singleton rules rule ih =>
    rw [groupsOf_append_singleton, RuleTable.getD_push, ih, List.filter_append]
    by_cases equal : name = rule.lhs
    · simp [equal]
    · simp [equal, Ne.symm equal]

/-- The rules for distinct names, taken name by name, are the rules for these names. -/
theorem perm_flatMap_filter (rules : List Rule) {names : List String} (distinct : names.Nodup) :
    (names.flatMap fun name => rules.filter fun rule => rule.lhs = name).Perm
      (rules.filter fun rule => rule.lhs ∈ names) := by
  induction names with
  | nil => simp
  | cons name others ih =>
    obtain ⟨absent, distinct⟩ := List.nodup_cons.mp distinct
    have split := List.filter_append_perm (fun rule : Rule => decide (rule.lhs = name))
      (rules.filter fun rule => rule.lhs ∈ name :: others)
    have ofName : ((rules.filter fun rule => rule.lhs ∈ name :: others).filter
        fun rule => rule.lhs = name) = rules.filter fun rule => rule.lhs = name := by
      rw [List.filter_filter]
      refine List.filter_congr fun rule _ => ?_
      by_cases equal : rule.lhs = name <;> simp [equal]
    have ofOthers : ((rules.filter fun rule => rule.lhs ∈ name :: others).filter
        fun rule => !decide (rule.lhs = name)) = rules.filter fun rule => rule.lhs ∈ others := by
      rw [List.filter_filter]
      refine List.filter_congr fun rule _ => ?_
      by_cases equal : rule.lhs = name
      · simp [equal, absent]
      · simp [equal]
    rw [ofName, ofOthers] at split
    exact ((ih distinct).append_left _).trans split

/-- The groups together hold the rules, in another order. -/
theorem perm_values_groupsOf (rules : List Rule) :
    (groupsOf rules).values.flatten.Perm rules := by
  have groups : (groupsOf rules).values.flatten =
      (groupsOf rules).names.flatMap fun name => rules.filter fun rule => rule.lhs = name := by
    rw [RuleTable.values, RuleTable.entries_eq_map, List.map_map, List.flatMap_def]
    congr 1
    exact List.map_congr_left fun name _ => getD_groupsOf rules name
  have all : (rules.filter fun rule => rule.lhs ∈ (groupsOf rules).names) = rules := by
    rw [List.filter_eq_self, names_groupsOf]
    intro rule member
    simpa using ⟨rule, member, rfl⟩
  have distinct : (groupsOf rules).names.Nodup := (groupsOf rules).nodup_names
  have gathered := perm_flatMap_filter rules distinct
  rwa [← groups, all] at gathered

theorem names_tableOf (rules : List Rule) :
    (tableOf rules).names = (rules.map Rule.lhs).eraseDups := by
  rw [tableOf, RuleTable.names_mapValues, names_groupsOf]

theorem getD_tableOf (rules : List Rule) (name : String) :
    ((tableOf rules).get? name).getD [] =
      alternativesFor (rules.map Rule.production) name := by
  have group := getD_groupsOf rules name
  have alternatives : alternativesFor (rules.map Rule.production) name =
      (rules.filter fun rule => rule.lhs = name).map Rule.alternative := by
    rw [alternativesFor, List.filter_map, List.map_map]
    rfl
  rw [tableOf, RuleTable.get?_mapValues, alternatives, ← group]
  cases (groupsOf rules).get? name <;> rfl

/-- Every rule gives one alternative. -/
theorem length_values_tableOf (rules : List Rule) :
    (tableOf rules).values.flatten.length = rules.length := by
  have values : (tableOf rules).values =
      (groupsOf rules).values.map (List.map Rule.alternative) := by
    simp [tableOf, RuleTable.values, RuleTable.mapValues]
  rw [values, ← List.map_flatten, List.length_map, (perm_values_groupsOf rules).length_eq]

theorem mem_alternativesFor_iff {productions : List (String × Alternative)} {name : String}
    {alternative : Alternative} :
    alternative ∈ alternativesFor productions name ↔ (name, alternative) ∈ productions := by
  simp [alternativesFor]

/-! ## The grammar of a list of rules -/

/-- The grammar that rules make up when `first` is the first of them. -/
def grammarFrom (first : Rule) (rules : List Rule) : Grammar := ⟨first.lhs, tableOf rules⟩

section GrammarFrom

variable {rules : List Rule} {first : Rule} {g : Grammar} {name : String}

theorem nonterminals_grammarFrom :
    (grammarFrom first rules).nonterminals = (rules.map Rule.lhs).eraseDups :=
  names_tableOf rules

theorem alternatives_grammarFrom :
    (grammarFrom first rules).alternatives name =
      alternativesFor (rules.map Rule.production) name :=
  getD_tableOf rules name

theorem mem_alternatives_grammarFrom_iff {alternative : Alternative} :
    alternative ∈ (grammarFrom first rules).alternatives name ↔
      ∃ rule ∈ rules, rule.lhs = name ∧ rule.alternative = alternative := by
  simp [alternatives_grammarFrom, mem_alternativesFor_iff, Rule.production]

/-- Every name that a rule uses is a left-hand side. -/
def AllDefined (rules : List Rule) : Prop :=
  ∀ rule ∈ rules, ∀ name ∈ Alternative.names rule.alternative, name ∈ rules.map Rule.lhs

theorem undefinedUses_eq_nil_iff (source : String) :
    undefinedUses source rules = [] ↔ AllDefined rules := by
  rw [undefinedUses, ← List.length_eq_zero_iff, List.length_mergeSort, List.length_eq_zero_iff,
    List.flatMap_eq_nil_iff]
  simp only [(perm_values_groupsOf rules).mem_iff, names_groupsOf, undefinedIn, AllDefined,
    List.map_eq_nil_iff, List.filter_eq_nil_iff]
  simp

theorem wellFormed_grammarFrom (member : first ∈ rules)
    (nonempty : ∀ rule ∈ rules, rule.alternative ≠ []) (defined : AllDefined rules) :
    (grammarFrom first rules).WellFormed := by
  rw [Grammar.wellFormed_iff, nonterminals_grammarFrom]
  simp only [List.mem_eraseDups, mem_alternatives_grammarFrom_iff]
  refine ⟨List.mem_map.mpr ⟨first, member, rfl⟩, ?_⟩
  rintro name alternative ⟨rule, listed, -, rfl⟩
  exact ⟨nonempty rule listed, defined rule listed⟩

/-- Rules make up a grammar as soon as there is one and all names are defined. -/
theorem grammarOfRules_eq_ok_iff (source : String)
    (nonempty : ∀ rule ∈ rules, rule.alternative ≠ []) :
    grammarOfRules source rules = .ok g ↔
      AllDefined rules ∧ ∃ first, rules.head? = some first ∧ g = grammarFrom first rules := by
  rw [← undefinedUses_eq_nil_iff source]
  cases rules with
  | nil => simp [grammarOfRules]
  | cons first rest =>
    cases reports : undefinedUses source (first :: rest) with
    | cons report others => simp [grammarOfRules, reports]
    | nil =>
      have defined := (undefinedUses_eq_nil_iff source).mp reports
      have accepted : Grammar.ofRules first.lhs (tableOf (first :: rest)) =
          .ok (grammarFrom first (first :: rest)) :=
        Grammar.ofRules_eq_ok_iff.mpr
          ⟨rfl, wellFormed_grammarFrom List.mem_cons_self nonempty defined⟩
      simp [grammarOfRules, reports, accepted, eq_comm]

end GrammarFrom

/-! ## The rules of a text -/

/-- The rules on the well-formed rule lines of a text. -/
def rulesOf (text : List Char) : List Rule := (ruleLines text).filterMap rule?

theorem map_fst_ruleLines (text : List Char) :
    (ruleLines text).map Prod.fst = (Text.lines text).filter isRuleLine := by
  have numbered : ((Text.lines text).zipIdx 1).map Prod.fst = Text.lines text :=
    List.zipIdx_map_fst 1 _
  rw [ruleLines, ← numbered, List.filter_map, numbered]
  rfl

theorem map_production_rule? (numbered : List Char × Nat) :
    (rule? numbered).map Rule.production = (readRule numbered.1).toOption := by
  unfold rule?
  cases readRule numbered.1 <;> rfl

/-- What the rules of a text say is what can be read line by line. -/
theorem map_production_rulesOf (text : List Char) :
    (rulesOf text).map Rule.production =
      ((Text.lines text).filter isRuleLine).filterMap fun line => (readRule line).toOption := by
  rw [rulesOf, List.map_filterMap, ← map_fst_ruleLines, List.filterMap_map]
  simp only [map_production_rule?]
  rfl

theorem writable_of_mem_rulesOf {text : List Char} {rule : Rule} (member : rule ∈ rulesOf text) :
    Writable rule.lhs rule.alternative := by
  have listed : rule.production ∈ (rulesOf text).map Rule.production :=
    List.mem_map.mpr ⟨rule, member, rfl⟩
  rw [map_production_rulesOf, List.mem_filterMap] at listed
  obtain ⟨line, -, found⟩ := listed
  cases read : readRule line with
  | error fault =>
    rw [read] at found
    cases found
  | ok production =>
    rw [read] at found
    cases found
    exact writable_of_readRule read

end Source

namespace Grammar

variable {source text : String} {g : Grammar}

/-- A text is accepted if every rule line can be read and all names are defined. -/
theorem readNamed_eq_ok_iff :
    readNamed source text = .ok g ↔
      (∀ line ∈ (Text.lines text.toList).filter Source.isRuleLine,
        ∃ production, Source.readRule line = .ok production) ∧
      Source.AllDefined (Source.rulesOf text.toList) ∧
      ∃ first, (Source.rulesOf text.toList).head? = some first ∧
        g = Source.grammarFrom first (Source.rulesOf text.toList) := by
  have clean : (Source.ruleLines text.toList).filterMap (Source.malformed? source) = [] ↔
      ∀ line ∈ (Text.lines text.toList).filter Source.isRuleLine,
        ∃ production, Source.readRule line = .ok production := by
    rw [List.filterMap_eq_nil_iff, ← Source.map_fst_ruleLines, List.forall_mem_map]
    refine forall_congr' fun numbered => imp_congr_right fun _ => ?_
    unfold Source.malformed?
    cases Source.readRule numbered.1 <;> simp
  rw [← clean, ← Source.grammarOfRules_eq_ok_iff source
    fun rule member => (Source.writable_of_mem_rulesOf member).ne_nil]
  unfold readNamed
  dsimp only
  cases (Source.ruleLines text.toList).filterMap (Source.malformed? source) with
  | nil => simp [Source.rulesOf]
  | cons report others => simp

end Grammar

end ContextFree
