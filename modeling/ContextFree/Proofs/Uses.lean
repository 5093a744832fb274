import ContextFree.Proofs.Grouping
import Mathlib.Data.List.Nodup

/-!
# Uses of undefined names

The uses of names that no rule defines are gathered group by group and sorted by their lines
afterwards. Since no two rules share a line and the sort leaves uses on one line in their order,
they come out in the order of the text (`undefinedUses_eq`). The reports are therefore those of a
list that holds every such use of the text once, line by line and from left to right
(`lists_undefinedOf`, `undefinedUses_rulesOf`).
-/

namespace ContextFree

/-! ## Sorting by a number -/

section Sorting

variable {α : Type} (key : α → Nat) {first second : List α}

theorem pairwise_mergeSort (entries : List α) :
    (entries.mergeSort fun a b => key a ≤ key b).Pairwise (key · ≤ key ·) := by
  have sorted : (entries.mergeSort fun a b => key a ≤ key b).Pairwise
      fun a b => decide (key a ≤ key b) = true :=
    List.pairwise_mergeSort (by simp; omega) (by simp; omega) entries
  simpa using sorted

/-- Sorting leaves the entries with one key in their order. -/
theorem filter_mergeSort (entries : List α) (number : Nat) :
    (entries.mergeSort fun a b => key a ≤ key b).filter (key · = number) =
      entries.filter (key · = number) := by
  have alike : (entries.filter (key · = number)).Pairwise
      fun a b => decide (key a ≤ key b) = true := by
    refine List.pairwise_of_forall_mem_list fun a ha b hb => ?_
    rw [List.mem_filter, decide_eq_true_eq] at ha hb
    rw [decide_eq_true_eq, ha.2, hb.2]
  have kept := List.sublist_mergeSort (by simp; omega) (by simp; omega) alike List.filter_sublist
  have within := kept.filter (key · = number)
  simp only [List.filter_filter, Bool.and_self] at within
  have sameLength := ((List.mergeSort_perm entries fun a b => decide (key a ≤ key b)).filter
    (key · = number)).length_eq
  exact (within.eq_of_length sameLength.symm).symm

theorem mem_iff_of_filter_eq
    (same : ∀ number, first.filter (key · = number) = second.filter (key · = number)) (entry : α) :
    entry ∈ first ↔ entry ∈ second := by
  have alike : entry ∈ first.filter (key · = key entry) ↔
      entry ∈ second.filter (key · = key entry) := by rw [same]
  simpa using alike

/-- A sorted list is determined by its entries with each key, in their order. -/
theorem eq_of_filter_eq (ascending : first.Pairwise (key · ≤ key ·))
    (ascending' : second.Pairwise (key · ≤ key ·))
    (same : ∀ number, first.filter (key · = number) = second.filter (key · = number)) :
    first = second := by
  have mem_iff := mem_iff_of_filter_eq key same
  induction first generalizing second with
  | nil =>
    rw [eq_comm, List.eq_nil_iff_forall_not_mem]
    intro entry member
    simpa using (mem_iff entry).mpr member
  | cons head tail ih =>
    cases second with
    | nil => simpa using (mem_iff head).mp List.mem_cons_self
    | cons head' tail' =>
      rw [List.pairwise_cons] at ascending ascending'
      have least : ∀ entry ∈ head :: tail, key head ≤ key entry := by simpa using ascending.1
      have least' : ∀ entry ∈ head' :: tail', key head' ≤ key entry := by simpa using ascending'.1
      have sameKey : key head = key head' := Nat.le_antisymm
        (least head' ((mem_iff head').mpr List.mem_cons_self))
        (least' head ((mem_iff head).mp List.mem_cons_self))
      -- Both heads have the least key, and each comes first among the entries with that key.
      have leading := same (key head)
      simp only [List.filter_cons, sameKey, decide_true, if_true] at leading
      obtain ⟨rfl, -⟩ := List.cons.inj leading
      have sameTail : ∀ number,
          tail.filter (key · = number) = tail'.filter (key · = number) := by
        intro number
        have entries := same number
        by_cases equal : key head = number
        · simpa [List.filter_cons, equal] using entries
        · simpa [List.filter_cons, equal] using entries
      rw [ih ascending.2 ascending'.2 sameTail (mem_iff_of_filter_eq key sameTail)]

end Sorting

/-- The list holds the entries of a kind, each of them once, in the order `before`. -/
structure Lists {α : Type} (before : α → α → Prop) (kind : α → Prop) (entries : List α) : Prop where
  ascending : entries.Pairwise before
  mem_iff : ∀ entry, entry ∈ entries ↔ kind entry

namespace Source

variable {source : String} {text line : List Char} {number : Nat} {rules : List Rule}

/-! ## Rule lines and rules -/

/-- The line holds a rule: without the blanks at its ends it is not empty and does not begin with
a semicolon. -/
def HoldsRule (line : List Char) : Prop :=
  Text.trim line ≠ [] ∧ (Text.trim line).head? ≠ some ';'

instance : DecidablePred HoldsRule := fun _ => inferInstanceAs (Decidable (_ ∧ _))

theorem isRuleLine_iff : isRuleLine line = true ↔ HoldsRule line := by
  unfold isRuleLine HoldsRule
  cases Text.trim line with
  | nil => simp
  | cons first rest => simp

theorem filter_isRuleLine (lines : List (List Char)) :
    lines.filter isRuleLine = lines.filter (HoldsRule ·) := by
  refine List.filter_congr fun line _ => ?_
  rw [Bool.eq_iff_iff, isRuleLine_iff, decide_eq_true_iff]

/-- The line is a rule line of the text, and `number` is its number, counted from 1 over all
lines. -/
def RuleLineAt (text : List Char) (number : Nat) (line : List Char) : Prop :=
  ∃ index, number = index + 1 ∧ (Text.lines text)[index]? = some line ∧ HoldsRule line

theorem mem_ruleLines_iff : (line, number) ∈ ruleLines text ↔ RuleLineAt text number line := by
  rw [ruleLines, List.mem_filter, List.mk_mem_zipIdx_iff_le_and_getElem?_sub, isRuleLine_iff]
  constructor
  · rintro ⟨⟨positive, found⟩, ruleLine⟩
    exact ⟨number - 1, by omega, found, ruleLine⟩
  · rintro ⟨index, rfl, found, ruleLine⟩
    exact ⟨⟨by omega, found⟩, ruleLine⟩

theorem pairwise_ruleLines (text : List Char) :
    (ruleLines text).Pairwise fun first second => first.2 < second.2 := by
  have numbers : (((Text.lines text).zipIdx 1).map Prod.snd).Pairwise (· < ·) := by
    rw [List.zipIdx_map_snd]
    exact List.pairwise_lt_range'
  exact (List.pairwise_map.mp numbers).filter _

theorem rule?_eq_some_iff {numbered : List Char × Nat} {rule : Rule} :
    rule? numbered = some rule ↔
      numbered.2 = rule.line ∧ States numbered.1 rule.lhs rule.alternative := by
  obtain ⟨line, lhs, alternative⟩ := rule
  rw [← readRule_eq_ok_iff, rule?]
  cases readRule numbered.1 <;> simp [Prod.ext_iff]

theorem mem_rulesOf_iff {rule : Rule} :
    rule ∈ rulesOf text ↔
      ∃ line, RuleLineAt text rule.line line ∧ States line rule.lhs rule.alternative := by
  rw [rulesOf, List.mem_filterMap]
  constructor
  · rintro ⟨⟨line, number⟩, listed, ruleIs⟩
    obtain ⟨rfl, states⟩ := rule?_eq_some_iff.mp ruleIs
    exact ⟨line, mem_ruleLines_iff.mp listed, states⟩
  · rintro ⟨line, ruleLine, states⟩
    exact ⟨(line, rule.line), mem_ruleLines_iff.mpr ruleLine,
      rule?_eq_some_iff.mpr ⟨rfl, states⟩⟩

theorem pairwise_rulesOf (text : List Char) :
    (rulesOf text).Pairwise fun first second => first.line < second.line := by
  rw [rulesOf, List.pairwise_filterMap]
  refine (pairwise_ruleLines text).imp fun {first second} before rule ruleIs rule' rule'Is => ?_
  rw [← (rule?_eq_some_iff.mp ruleIs).1, ← (rule?_eq_some_iff.mp rule'Is).1]
  exact before

/-! ## The order of the uses -/

theorem line_of_mem_undefinedIn {defined : List String} {rule : Rule} {report : Report}
    (member : report ∈ undefinedIn source defined rule) : report.place.line = rule.line := by
  obtain ⟨name, -, rfl⟩ := List.mem_map.mp member
  rfl

/-- The reports for a line are those on the rules of the line. -/
theorem filter_flatMap_undefinedIn (defined : List String) (rules : List Rule) (number : Nat) :
    (rules.flatMap (undefinedIn source defined)).filter (·.place.line = number) =
      (rules.filter (·.line = number)).flatMap (undefinedIn source defined) := by
  induction rules with
  | nil => rfl
  | cons rule others ih =>
    rw [List.flatMap_cons, List.filter_append, ih]
    by_cases equal : rule.line = number
    · have all : (undefinedIn source defined rule).filter (·.place.line = number) =
          undefinedIn source defined rule := by
        rw [List.filter_eq_self]
        intro report member
        simpa [line_of_mem_undefinedIn member] using equal
      rw [all, List.filter_cons_of_pos (by simpa using equal), List.flatMap_cons]
    · have none : (undefinedIn source defined rule).filter (·.place.line = number) = [] := by
        rw [List.filter_eq_nil_iff]
        intro report member
        simpa [line_of_mem_undefinedIn member] using equal
      rw [none, List.filter_cons_of_neg (by simpa using equal), List.nil_append]

/-- Where every rule has its own line, the order of the rules does not matter to a single line. -/
theorem filter_line_eq_of_perm {others : List Rule} (perm : others.Perm rules)
    (ascending : rules.Pairwise fun first second => first.line < second.line) (number : Nat) :
    others.filter (·.line = number) = rules.filter (·.line = number) := by
  have distinct : (rules.map Rule.line).Nodup :=
    (List.pairwise_map.mpr ascending).imp fun before => Nat.ne_of_lt before
  have onLine : ∀ rules : List Rule, (rules.filter (·.line = number)).Pairwise
      fun first second => first.line = second.line := by
    intro rules
    refine List.pairwise_of_forall_mem_list fun first listed second listed' => ?_
    rw [List.mem_filter, decide_eq_true_eq] at listed listed'
    rw [listed.2, listed'.2]
  refine List.Perm.eq_of_pairwise ?_ (onLine others) (onLine rules) (perm.filter _)
  intro first second listed listed' sameLine _
  exact List.inj_on_of_nodup_map distinct (perm.mem_iff.mp (List.mem_filter.mp listed).1)
    (List.mem_filter.mp listed').1 sameLine

/-- Uses that are gathered group by group come out in the order of the rules, if these stand on
lines of their own. -/
theorem undefinedUses_eq (source : String)
    (ascending : rules.Pairwise fun first second => first.line < second.line) :
    undefinedUses source rules = rules.flatMap (undefinedIn source (rules.map Rule.lhs)) := by
  have defined : undefinedIn source (groupsOf rules).names =
      undefinedIn source (rules.map Rule.lhs) := by
    funext rule
    simp only [undefinedIn, names_groupsOf, List.contains_eq_mem, List.mem_eraseDups]
  rw [undefinedUses, defined]
  -- Both lists ascend by their lines, so that it is enough to compare them line by line.
  apply eq_of_filter_eq fun report : Report => report.place.line
  · apply pairwise_mergeSort
  · rw [List.pairwise_flatMap]
    refine ⟨fun rule _ => ?_, ascending.imp fun before report member report' member' => ?_⟩
    · refine List.pairwise_of_forall_mem_list fun report member report' member' => ?_
      rw [line_of_mem_undefinedIn member, line_of_mem_undefinedIn member']
    · rw [line_of_mem_undefinedIn member, line_of_mem_undefinedIn member']
      exact Nat.le_of_lt before
  · intro number
    rw [filter_mergeSort, filter_flatMap_undefinedIn, filter_flatMap_undefinedIn,
      filter_line_eq_of_perm (perm_values_groupsOf rules) ascending]

/-! ## Uses of names -/

/-- A name as it occurs in a rule: the line, the place among the symbols of the right-hand side,
and the name. -/
structure Use where
  line : Nat
  place : Nat
  name : String
deriving DecidableEq, Repr

/-- The one use comes before the other in the text. -/
def Use.Before (first second : Use) : Prop :=
  first.line < second.line ∨ first.line = second.line ∧ first.place < second.place

/-- The report on a use. -/
def Use.report (source : String) (use : Use) : Report :=
  ⟨⟨source, use.line⟩, .undefinedNonterminal use.name⟩

/-- The uses in a rule, from left to right. -/
def usesIn (rule : Rule) : List Use :=
  rule.alternative.zipIdx.filterMap fun placed =>
    placed.1.name?.map fun name => ⟨rule.line, placed.2, name⟩

/-- The uses in the rules of names that are no left-hand sides. -/
def undefinedOf (rules : List Rule) : List Use :=
  (rules.flatMap usesIn).filter fun use => !(rules.map Rule.lhs).contains use.name

/-- A rule line of the text uses the name at this place, and none defines it. -/
structure UndefinedAt (text : List Char) (use : Use) : Prop where
  used : ∃ line lhs alternative, RuleLineAt text use.line line ∧ States line lhs alternative ∧
    alternative[use.place]? = some (.nonterminal use.name)
  undefined : ∀ number line alternative, RuleLineAt text number line →
    ¬ States line use.name alternative

theorem mem_usesIn_iff {rule : Rule} {use : Use} :
    use ∈ usesIn rule ↔
      use.line = rule.line ∧ rule.alternative[use.place]? = some (.nonterminal use.name) := by
  rw [usesIn, List.mem_filterMap]
  constructor
  · rintro ⟨⟨symbol, place⟩, listed, useIs⟩
    obtain ⟨name, named, rfl⟩ := Option.map_eq_some_iff.mp useIs
    cases symbol with
    | terminal char => cases named
    | nonterminal other =>
      cases named
      exact ⟨rfl, List.mk_mem_zipIdx_iff_getElem?.mp listed⟩
  · rintro ⟨sameLine, found⟩
    refine ⟨(.nonterminal use.name, use.place), List.mk_mem_zipIdx_iff_getElem?.mpr found, ?_⟩
    rw [Symbol.name?, Option.map_some, ← sameLine]

theorem pairwise_usesIn (rule : Rule) : (usesIn rule).Pairwise Use.Before := by
  have places : ((rule.alternative.zipIdx).map Prod.snd).Pairwise (· < ·) := by
    rw [List.zipIdx_map_snd]
    exact List.pairwise_lt_range'
  rw [usesIn, List.pairwise_filterMap]
  refine (List.pairwise_map.mp places).imp fun {first second} before use useIs use' use'Is => ?_
  obtain ⟨name, -, rfl⟩ := Option.map_eq_some_iff.mp useIs
  obtain ⟨name', -, rfl⟩ := Option.map_eq_some_iff.mp use'Is
  exact .inr ⟨rfl, before⟩

theorem pairwise_flatMap_usesIn
    (ascending : rules.Pairwise fun first second => first.line < second.line) :
    (rules.flatMap usesIn).Pairwise Use.Before := by
  rw [List.pairwise_flatMap]
  refine ⟨fun rule _ => pairwise_usesIn rule, ?_⟩
  refine ascending.imp fun before use member use' member' => ?_
  rw [mem_usesIn_iff] at member member'
  refine .inl ?_
  rw [member.1, member'.1]
  exact before

theorem lists_undefinedOf (text : List Char) :
    Lists Use.Before (UndefinedAt text) (undefinedOf (rulesOf text)) where
  ascending := (pairwise_flatMap_usesIn (pairwise_rulesOf text)).filter _
  mem_iff use := by
    rw [undefinedOf, List.mem_filter, List.mem_flatMap]
    constructor
    · rintro ⟨⟨rule, listed, member⟩, unknown⟩
      obtain ⟨sameLine, found⟩ := mem_usesIn_iff.mp member
      obtain ⟨line, ruleLine, states⟩ := mem_rulesOf_iff.mp listed
      refine ⟨⟨line, _, _, sameLine ▸ ruleLine, states, found⟩, ?_⟩
      intro number line alternative ruleLine states
      have defining : ⟨number, use.name, alternative⟩ ∈ rulesOf text :=
        mem_rulesOf_iff.mpr ⟨line, ruleLine, states⟩
      have defined : use.name ∈ (rulesOf text).map Rule.lhs :=
        List.mem_map.mpr ⟨_, defining, rfl⟩
      simp [defined] at unknown
    · rintro ⟨⟨line, lhs, alternative, ruleLine, states, found⟩, undefined⟩
      refine ⟨⟨⟨use.line, lhs, alternative⟩, mem_rulesOf_iff.mpr ⟨line, ruleLine, states⟩,
        mem_usesIn_iff.mpr ⟨rfl, found⟩⟩, ?_⟩
      have unknown : use.name ∉ (rulesOf text).map Rule.lhs := by
        intro defined
        obtain ⟨rule, listed, named⟩ := List.mem_map.mp defined
        obtain ⟨line, ruleLine, states⟩ := mem_rulesOf_iff.mp listed
        exact undefined rule.line line rule.alternative ruleLine (named ▸ states)
      simpa using unknown

theorem map_name_usesIn (rule : Rule) :
    (usesIn rule).map Use.name = Alternative.names rule.alternative := by
  have symbols : rule.alternative.zipIdx.map Prod.fst = rule.alternative :=
    List.zipIdx_map_fst 0 rule.alternative
  rw [usesIn, List.map_filterMap, Alternative.names]
  nth_rewrite 2 [← symbols]
  rw [List.filterMap_map]
  refine List.filterMap_congr fun placed _ => ?_
  rw [Option.map_map]
  exact Option.map_id'

theorem undefinedIn_eq (source : String) (defined : List String) (rule : Rule) :
    undefinedIn source defined rule =
      ((usesIn rule).filter fun use => !defined.contains use.name).map (Use.report source) := by
  rw [undefinedIn, ← map_name_usesIn, List.filter_map, List.map_map]
  refine List.map_congr_left fun use member => ?_
  have sameLine := (mem_usesIn_iff.mp (List.mem_filter.mp member).1).1
  rw [Function.comp_apply, Use.report, sameLine]

/-- One report for each use of a name that is no left-hand side, in the order of the text. -/
theorem undefinedUses_rulesOf (source : String) (text : List Char) :
    undefinedUses source (rulesOf text) =
      (undefinedOf (rulesOf text)).map (Use.report source) := by
  rw [undefinedUses_eq source (pairwise_rulesOf text), undefinedOf, List.filter_flatMap,
    List.map_flatMap]
  exact List.flatMap_congr fun rule _ => undefinedIn_eq source _ rule

end Source

end ContextFree
