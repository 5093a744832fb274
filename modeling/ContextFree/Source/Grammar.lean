import ContextFree.Source.Rule

/-!
# Grammars from text

`Grammar.read` reads a grammar from text. A text with malformed rule lines is refused with
one report for each of them; a text whose rule lines are all well formed is refused when there
are none, or with one report for each use of a nonterminal that no line defines. The start
symbol is the left-hand side of the first rule line.
-/

namespace ContextFree

namespace Source

/-- A rule and the line that it stands on. -/
structure Rule where
  line : Nat
  lhs : String
  alternative : Alternative
deriving DecidableEq, Repr

/-- The rule lines of a text with their numbers, counted from 1 over all lines. -/
def ruleLines (text : List Char) : List (List Char × Nat) :=
  ((Text.lines text).zipIdx 1).filter fun numbered => isRuleLine numbered.1

/-- The report on a rule line, if it is malformed. -/
def malformed? (source : String) (numbered : List Char × Nat) : Option Report :=
  match readRule numbered.1 with
  | .error fault => some ⟨⟨source, numbered.2⟩, fault⟩
  | .ok _ => none

/-- The rule on a rule line, if it is well formed. -/
def rule? (numbered : List Char × Nat) : Option Rule :=
  match readRule numbered.1 with
  | .error _ => none
  | .ok (lhs, alternative) => some ⟨numbered.2, lhs, alternative⟩

/-- The rules under their left-hand sides, in the order in which these first occur. -/
def groupsOf (rules : List Rule) : RuleTable (List Rule) :=
  rules.foldl (fun table rule => table.push rule.lhs rule) RuleTable.empty

/-- The alternatives that the rules have for their left-hand sides. -/
def tableOf (rules : List Rule) : RuleTable (List Alternative) :=
  (groupsOf rules).mapValues fun _ group => group.map Rule.alternative

/-- One report for each use in a rule of a name that is not among `defined`, from left to
right. -/
def undefinedIn (source : String) (defined : List String) (rule : Rule) : List Report :=
  ((Alternative.names rule.alternative).filter (!defined.contains ·)).map fun name =>
    ⟨⟨source, rule.line⟩, .undefinedNonterminal name⟩

/-- One report for each use of a name that is no left-hand side. The uses are gathered group by
group and then put in the order of their lines. -/
def undefinedUses (source : String) (rules : List Rule) : List Report :=
  let groups := groupsOf rules
  let reports := groups.values.flatten.flatMap (undefinedIn source groups.names)
  reports.mergeSort fun first second => first.place.line ≤ second.place.line

/-- The grammar that well-formed rules make up. -/
def grammarOfRules (source : String) (rules : List Rule) : Except (List Report) Grammar :=
  match rules, undefinedUses source rules with
  | [], _ => .error [⟨.whole source, .noRules⟩]
  | first :: _, [] =>
    match Grammar.ofRules first.lhs (tableOf rules) with
    | .ok g => .ok g
    | .error error => .error [⟨.whole source, .grammar error⟩]
  | _ :: _, reports => .error reports

end Source

namespace Grammar

/-- Reads a grammar from text; `source` is the name of the text in reports. -/
def readNamed (source text : String) : Except (List Report) Grammar :=
  let lines := Source.ruleLines text.toList
  match lines.filterMap (Source.malformed? source) with
  | [] => Source.grammarOfRules source (lines.filterMap Source.rule?)
  | reports => .error reports

/-- Reads a grammar from text without a name of its own. -/
def read (text : String) : Except (List Report) Grammar := readNamed "<input>" text

end Grammar

end ContextFree
