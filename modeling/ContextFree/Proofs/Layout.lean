import ContextFree.Proofs.Padding
import ContextFree.Proofs.Reports
import ContextFree.Proofs.RoundTrip

/-!
# Layout

Blank lines, comments, blanks at the ends of lines and the way in which lines end do not matter
(`readNamed_relaid`). What is read from a text are the readings of its rule lines, and a text that
is laid out anew has the same readings under new numbers (`Relaid.readings_lines`). The grammar does
not depend on the numbers, and the reports take them over (`grammarOfRules_renumbered`).
-/

namespace ContextFree

/-! ## Readings -/

namespace Source

variable {line front back : List Char}

/-- What is read from a rule line, with the number of the line. -/
abbrev Reading := Except Fault (String × Alternative) × Nat

/-- What is read from the rule lines among numbered lines. -/
def readings (numbered : List (List Char × Nat)) : List Reading :=
  (numbered.filter fun line => isRuleLine line.1).map fun line => (readRule line.1, line.2)

theorem readings_cons (line : List Char) (number : Nat) (numbered : List (List Char × Nat)) :
    readings ((line, number) :: numbered) =
      (if isRuleLine line = true then [(readRule line, number)] else []) ++ readings numbered := by
  by_cases ruleLine : isRuleLine line = true
  · simp [readings, ruleLine]
  · simp [readings, ruleLine]

theorem readings_skip (skipped : isRuleLine line = false) (number : Nat)
    (numbered : List (List Char × Nat)) :
    readings ((line, number) :: numbered) = readings numbered := by
  simp [readings_cons, skipped]

theorem readings_padded (blankFront : ∀ char ∈ front, Text.isBlank char = true)
    (blankBack : ∀ char ∈ back, Text.isBlank char = true) (line : List Char) (number : Nat)
    (numbered : List (List Char × Nat)) :
    readings ((front ++ line ++ back, number) :: numbered) =
      readings ((line, number) :: numbered) := by
  rw [readings_cons, readings_cons, isRuleLine_padded blankFront blankBack,
    readRule_padded blankFront blankBack]

end Source

/-! ## Lines of a text -/

namespace Text

variable {line chars : List Char}

/-- The text is made of the lines. Each of them ends with a line feed, which a carriage return may
stand before, and the last one may also end with the text. -/
inductive Shows : List (List Char) → List Char → Prop
  | nil : Shows [] []
  | last {line : List Char} (unbroken : '\n' ∉ line) : Shows [line] line
  | feed {line : List Char} {lines : List (List Char)} {text : List Char}
      (unbroken : '\n' ∉ line) : Shows lines text → Shows (line :: lines) (line ++ '\n' :: text)
  | returnFeed {line : List Char} {lines : List (List Char)} {text : List Char}
      (unbroken : '\n' ∉ line) : Shows lines text →
      Shows (line :: lines) (line ++ '\r' :: '\n' :: text)

theorem linesFrom_of_notMem (unbroken : '\n' ∉ chars) :
    linesFrom line chars =
      if (chars.reverse ++ line).isEmpty then [] else [(chars.reverse ++ line).reverse] := by
  induction chars generalizing line with
  | nil => rfl
  | cons char others ih =>
    rw [List.mem_cons, not_or] at unbroken
    rw [linesFrom, if_neg (Ne.symm unbroken.1), ih unbroken.2]
    simp

/-- What is dropped at the end of a line is blank. -/
theorem exists_dropReturn (line : List Char) :
    ∃ back, (∀ char ∈ back, isBlank char = true) ∧
      line = (dropReturn line.reverse).reverse ++ back := by
  unfold dropReturn
  split
  · rename_i rest equal
    refine ⟨['\r'], List.forall_mem_singleton.mpr (by decide), ?_⟩
    rw [← List.reverse_reverse line, equal, List.reverse_cons]
  · exact ⟨[], by simp, by simp⟩

end Text

namespace Source

/-- The lines that a text is made of have the same readings as the lines that are found in it. -/
theorem readings_lines {lines : List (List Char)} {text : List Char} (shows : Text.Shows lines text)
    (number : Nat) :
    readings ((Text.lines text).zipIdx number) = readings (lines.zipIdx number) := by
  induction shows generalizing number with
  | nil => rfl
  | @last line unbroken =>
    rw [Text.lines, Text.linesFrom_of_notMem unbroken, List.append_nil]
    cases line with
    | nil => rfl
    | cons char others => simp
  | @feed line lines text unbroken _ ih =>
    rw [Text.lines, Text.linesFrom_append unbroken, List.append_nil, ← Text.lines,
      List.zipIdx_cons, List.zipIdx_cons]
    -- A carriage return at the end of the line itself is taken for a part of the line end.
    obtain ⟨back, blank, padded⟩ := Text.exists_dropReturn line
    have same := readings_padded (List.forall_mem_nil _) blank
      (Text.dropReturn line.reverse).reverse number (lines.zipIdx (number + 1))
    rw [List.nil_append, ← padded] at same
    rw [same, readings_cons, readings_cons, ih]
  | @returnFeed line lines text unbroken _ ih =>
    have broken : line ++ '\r' :: '\n' :: text = line ++ ['\r'] ++ '\n' :: text := by simp
    have stillUnbroken : '\n' ∉ line ++ ['\r'] := by simpa using unbroken
    have dropped : Text.dropReturn (line ++ ['\r']).reverse = line.reverse := by
      rw [List.reverse_append]
      rfl
    rw [broken, Text.lines, Text.linesFrom_append stillUnbroken, List.append_nil, dropped,
      List.reverse_reverse, ← Text.lines, List.zipIdx_cons, List.zipIdx_cons, readings_cons,
      readings_cons, ih]

/-! ## Lines laid out anew -/

/-- The second list of lines comes from the first one by blanks at the ends of lines and by lines
in between that are skipped. The numbers are those that the lines of the first list have in the
second one. -/
inductive Relaid : List (List Char) → List (List Char) → List Nat → Prop
  | nil : Relaid [] [] []
  | insert {line : List Char} {old new : List (List Char)} {numbers : List Nat}
      (skipped : Skipped line) : Relaid old new numbers →
      Relaid old (line :: new) (numbers.map (· + 1))
  | keep (front line back : List Char) {old new : List (List Char)} {numbers : List Nat}
      (blankFront : ∀ char ∈ front, Text.isBlank char = true)
      (blankBack : ∀ char ∈ back, Text.isBlank char = true) : Relaid old new numbers →
      Relaid (line :: old) ((front ++ line ++ back) :: new) (1 :: numbers.map (· + 1))

/-- The new number of a line. The number 0, which stands for the whole text, stays. -/
def newNumber (numbers : List Nat) (number : Nat) : Nat := (0 :: numbers).getD number 0

section Relaid

variable {old new : List (List Char)} {numbers : List Nat}

theorem Relaid.length_eq (relaid : Relaid old new numbers) : numbers.length = old.length := by
  induction relaid with
  | nil => rfl
  | insert _ _ ih => rw [List.length_map, ih]
  | keep _ _ _ _ _ _ ih => rw [List.length_cons, List.length_cons, List.length_map, ih]

/-- The new lines have the readings of the old ones, under the new numbers. -/
theorem Relaid.readings_zipIdx (relaid : Relaid old new numbers) (before : Nat) :
    readings (new.zipIdx (before + 1)) = readings (old.zip (numbers.map (· + before))) := by
  have shift : ∀ numbers : List Nat, ∀ before,
      (numbers.map (· + 1)).map (· + before) = numbers.map (· + (before + 1)) := by
    intro numbers before
    rw [List.map_map]
    exact List.map_congr_left fun number _ => by rw [Function.comp_apply]; omega
  -- Every line moves all that follow it, so `before` counts the new lines that stand in front.
  induction relaid generalizing before with
  | nil => rfl
  | insert skipped _ ih =>
    rw [List.zipIdx_cons, readings_skip skipped.isRuleLine_eq, ih, shift]
  | keep front line back blankFront blankBack _ ih =>
    rw [List.zipIdx_cons, readings_padded blankFront blankBack, List.map_cons, shift,
      List.zip_cons_cons, readings_cons, readings_cons, ih, Nat.add_comm 1 before]

theorem zip_eq_map_newNumber (sameLength : numbers.length = old.length) :
    old.zip numbers = (old.zipIdx 1).map (Prod.map id (newNumber numbers)) := by
  apply List.ext_getElem
  · simp [sameLength]
  · intro index within within'
    have inNumbers : index < numbers.length := by
      rw [List.length_zip] at within
      omega
    simp [newNumber, Nat.add_comm 1 index, inNumbers]

theorem readings_map (f : Nat → Nat) (numbered : List (List Char × Nat)) :
    readings (numbered.map (Prod.map id f)) = (readings numbered).map (Prod.map id f) := by
  rw [readings, readings, List.filter_map, List.map_map, List.map_map]
  rfl

theorem Relaid.readings_lines (relaid : Relaid old new numbers) {text text' : List Char}
    (shown : Text.Shows old text) (shown' : Text.Shows new text') :
    readings ((Text.lines text').zipIdx 1) =
      (readings ((Text.lines text).zipIdx 1)).map (Prod.map id (newNumber numbers)) := by
  have moved := relaid.readings_zipIdx 0
  simp only [Nat.add_zero, Nat.zero_add, List.map_id'] at moved
  rw [Source.readings_lines shown', Source.readings_lines shown, moved,
    zip_eq_map_newNumber relaid.length_eq, readings_map]

end Relaid

end Source

/-! ## Numbers in reports -/

/-- The report with another number for its line. -/
def Report.renumbered (f : Nat → Nat) (report : Report) : Report :=
  { report with place := { report.place with line := f report.place.line } }

namespace Source

variable {rules : List Rule} {f : Nat → Nat}

/-- The rule with another number for its line. -/
def Rule.renumbered (f : Nat → Nat) (rule : Rule) : Rule := { rule with line := f rule.line }

@[simp] theorem Rule.lhs_renumbered (f : Nat → Nat) (rule : Rule) :
    (rule.renumbered f).lhs = rule.lhs := rfl

/-- The report on a reading, if it is a fault. -/
def Reading.report? (source : String) : Reading → Option Report
  | (.error fault, number) => some ⟨⟨source, number⟩, fault⟩
  | (.ok _, _) => none

/-- The rule of a reading, if it is one. -/
def Reading.rule? : Reading → Option Rule
  | (.error _, _) => none
  | (.ok (lhs, alternative), number) => some ⟨number, lhs, alternative⟩

theorem Reading.report?_map (source : String) (f : Nat → Nat) (reading : Reading) :
    Reading.report? source (Prod.map id f reading) =
      (Reading.report? source reading).map (Report.renumbered f) := by
  obtain ⟨_ | _, number⟩ := reading <;> rfl

theorem Reading.rule?_map (f : Nat → Nat) (reading : Reading) :
    Reading.rule? (Prod.map id f reading) = (Reading.rule? reading).map (Rule.renumbered f) := by
  obtain ⟨_ | _, number⟩ := reading <;> rfl

theorem filterMap_malformed?_eq (source : String) (text : List Char) :
    (ruleLines text).filterMap (malformed? source) =
      (readings ((Text.lines text).zipIdx 1)).filterMap (Reading.report? source) := by
  rw [readings, List.filterMap_map, ruleLines]
  refine List.filterMap_congr fun numbered _ => ?_
  rw [malformed?, Function.comp_apply]
  cases readRule numbered.1 <;> rfl

theorem rulesOf_eq (text : List Char) :
    rulesOf text = (readings ((Text.lines text).zipIdx 1)).filterMap Reading.rule? := by
  rw [readings, List.filterMap_map, rulesOf, ruleLines]
  refine List.filterMap_congr fun numbered _ => ?_
  rw [rule?, Function.comp_apply]
  cases readRule numbered.1 <;> rfl

theorem undefinedIn_renumbered (source : String) (defined : List String) (f : Nat → Nat)
    (rule : Rule) :
    undefinedIn source defined (rule.renumbered f) =
      (undefinedIn source defined rule).map (Report.renumbered f) := by
  rw [undefinedIn, undefinedIn, List.map_map]
  rfl

/-- The reports are sorted by their lines, so that the numbers have to ascend before and after. -/
theorem undefinedUses_renumbered (source : String)
    (ascending : rules.Pairwise fun first second => first.line < second.line)
    (ascending' : (rules.map (Rule.renumbered f)).Pairwise
      fun first second => first.line < second.line) :
    undefinedUses source (rules.map (Rule.renumbered f)) =
      (undefinedUses source rules).map (Report.renumbered f) := by
  have sameNames : (rules.map (Rule.renumbered f)).map Rule.lhs = rules.map Rule.lhs := by
    rw [List.map_map]
    rfl
  rw [undefinedUses_eq source ascending, undefinedUses_eq source ascending', sameNames,
    List.flatMap_map, List.map_flatMap]
  simp only [undefinedIn_renumbered]

theorem tableOf_renumbered (f : Nat → Nat) (rules : List Rule) :
    tableOf (rules.map (Rule.renumbered f)) = tableOf rules := by
  apply RuleTable.ext_getD
  · rw [names_tableOf, names_tableOf, List.map_map]
    rfl
  · intro name
    rw [getD_tableOf, getD_tableOf, List.map_map]
    rfl

theorem grammarOfRules_renumbered (source : String) (whole : f 0 = 0)
    (ascending : rules.Pairwise fun first second => first.line < second.line)
    (ascending' : (rules.map (Rule.renumbered f)).Pairwise
      fun first second => first.line < second.line) :
    grammarOfRules source (rules.map (Rule.renumbered f)) =
      (grammarOfRules source rules).mapError (List.map (Report.renumbered f)) := by
  have wholeReport : ∀ fault, Report.renumbered f ⟨.whole source, fault⟩ =
      ⟨.whole source, fault⟩ := by
    intro fault
    simp [Report.renumbered, Place.whole, whole]
  have uses := undefinedUses_renumbered source ascending ascending'
  have table := tableOf_renumbered f rules
  cases rules with
  | nil => simp [grammarOfRules, Except.mapError, wholeReport]
  | cons first rest =>
    rw [List.map_cons] at uses table ⊢
    cases reports : undefinedUses source (first :: rest) with
    | cons report others =>
      rw [reports] at uses
      simp [grammarOfRules, reports, uses, Except.mapError]
    | nil =>
      rw [reports] at uses
      simp only [grammarOfRules, reports, uses, table, List.map_nil, Rule.lhs_renumbered]
      cases Grammar.ofRules first.lhs (tableOf (first :: rest)) with
      | ok g => rfl
      | error error => simp [Except.mapError, wholeReport]

end Source

namespace Grammar

open Source

/-- Two texts whose lines differ in layout alone give the same grammar, or the same reports with
the new numbers of the lines. -/
theorem readNamed_relaid {old new : List (List Char)} {numbers : List Nat} {text text' : String}
    (relaid : Relaid old new numbers) (shown : Text.Shows old text.toList)
    (shown' : Text.Shows new text'.toList) (source : String) :
    readNamed source text' =
      (readNamed source text).mapError (List.map (Report.renumbered (newNumber numbers))) := by
  have readings := relaid.readings_lines shown shown'
  have malformed : (ruleLines text'.toList).filterMap (malformed? source) =
      ((ruleLines text.toList).filterMap (malformed? source)).map
        (Report.renumbered (newNumber numbers)) := by
    rw [filterMap_malformed?_eq, filterMap_malformed?_eq, readings, List.filterMap_map,
      List.map_filterMap]
    exact List.filterMap_congr fun reading _ => Reading.report?_map source _ reading
  have rules : rulesOf text'.toList =
      (rulesOf text.toList).map (Rule.renumbered (newNumber numbers)) := by
    rw [rulesOf_eq, rulesOf_eq, readings, List.filterMap_map, List.map_filterMap]
    exact List.filterMap_congr fun reading _ => Reading.rule?_map _ reading
  have ascending' := pairwise_rulesOf text'.toList
  rw [rules] at ascending'
  have clean := grammarOfRules_renumbered source rfl (pairwise_rulesOf text.toList) ascending'
  rw [← rules] at clean
  simp only [readNamed, malformed]
  cases (ruleLines text.toList).filterMap (malformed? source) with
  | nil => exact clean
  | cons report others => rfl

/-- A comment, an empty line, blanks and line ends of two characters move the reports on two uses
from lines 1 and 2 to lines 2 and 4. -/
theorem readNamed_relaid_uses :
    readNamed "g" "S -> a A\nS -> B" =
      .error [⟨⟨"g", 1⟩, .undefinedNonterminal "A"⟩, ⟨⟨"g", 2⟩, .undefinedNonterminal "B"⟩] ∧
    readNamed "g" "; note\r\n\tS -> a A \r\n\r\nS -> B" =
      .error [⟨⟨"g", 2⟩, .undefinedNonterminal "A"⟩, ⟨⟨"g", 4⟩, .undefinedNonterminal "B"⟩] := by
  have relaid : Relaid ["S -> a A".toList, "S -> B".toList]
      ["; note".toList, "\tS -> a A ".toList, [], "S -> B".toList] [2, 4] :=
    .insert (fun first leads => by cases leads; rfl) <|
      .keep ['\t'] _ [' '] (List.forall_mem_singleton.mpr (by decide))
        (List.forall_mem_singleton.mpr (by decide)) <|
      .insert (fun first leads => by cases leads) <|
      .keep [] _ [] (List.forall_mem_nil _) (List.forall_mem_nil _) .nil
  have shown : Text.Shows ["S -> a A".toList, "S -> B".toList] "S -> a A\nS -> B".toList :=
    .feed (by decide) (.last (by decide))
  have shown' : Text.Shows ["; note".toList, "\tS -> a A ".toList, [], "S -> B".toList]
      "; note\r\n\tS -> a A \r\n\r\nS -> B".toList :=
    .returnFeed (by decide) (.returnFeed (by decide) (.returnFeed (by decide) (.last (by decide))))
  have clean : faultsOf "S -> a A\nS -> B".toList = [] := by decide +kernel
  have uses : undefinedOf (rulesOf "S -> a A\nS -> B".toList) = [⟨1, 1, "A"⟩, ⟨2, 0, "B"⟩] := by
    decide +kernel
  have refused : readNamed "g" "S -> a A\nS -> B" =
      .error [⟨⟨"g", 1⟩, .undefinedNonterminal "A"⟩, ⟨⟨"g", 2⟩, .undefinedNonterminal "B"⟩] := by
    rw [readNamed_of_undefined clean (by rw [uses]; simp), uses]
    rfl
  refine ⟨refused, ?_⟩
  rw [readNamed_relaid relaid shown shown' "g", refused]
  rfl

end Grammar

end ContextFree
