import ContextFree.Proofs.ConversionText
import Mathlib.Data.List.Nodup

/-!
# A second conversion

A normal form that comes from a conversion is a grammar like any other and can be converted again.
Hardly anything is left to do then. The fresh start symbol takes over the productions of the old
one, which is dropped, since it stands in no pair and cannot be reached any more. All other rules
stay in their places, no link and no helper is needed, and a production that occurs twice under
one nonterminal is left once.

What a conversion leaves behind is collected in `NormalForm.Tidy`, and `Tidy.convert_toGrammar`
follows a tidy normal form through the steps of a conversion.
-/

namespace ContextFree

/-! ## Nothing to reshape -/

namespace Production

theorem alternative_injective : alternative.Injective := by
  intro first second equal
  have same := congrArg ofAlternative? equal
  rw [ofAlternative?_alternative, ofAlternative?_alternative] at same
  exact Option.some.inj same

theorem isUnit_alternative (production : Production) :
    Alternative.isUnit production.alternative = false := by
  cases production <;> rfl

/-- A production in normal form as one of a binary grammar. -/
def binary : Production → BinaryProduction
  | terminal char => .terminal char
  | pair left right => .pair (.nonterminal left) (.nonterminal right)

@[simp]
theorem pairChars_binary (production : Production) :
    BinaryGrammar.pairChars production.binary = [] := by
  cases production <;> rfl

@[simp]
theorem isolate_binary (helpers : List (Char × String)) (production : Production) :
    BinaryGrammar.isolate helpers production.binary = production := by
  cases production <;> rfl

end Production

namespace BinaryGrammar

/-- Productions in normal form need no links. -/
theorem ofAlternatives_map_alternative (productions : List Production) (supply : NameSupply) :
    ofAlternatives (productions.map Production.alternative) supply =
      (productions.map Production.binary, [], supply) := by
  induction productions with
  | nil => rfl
  | cons production rest ih =>
    cases production with
    | terminal char => simp [Production.alternative, Production.binary, ofAlternatives, ih]
    | pair left right =>
      simp [Production.alternative, Production.binary, ofAlternatives, chain, ih]

theorem ofEntries_map_alternative (entries : List (String × List Production))
    (supply : NameSupply) :
    ofEntries (entries.map fun entry => (entry.1, entry.2.map Production.alternative)) supply =
      (entries.map fun entry => (entry.1, entry.2.map Production.binary), [], supply) := by
  induction entries with
  | nil => rfl
  | cons entry rest ih =>
    rw [List.map_cons, ofEntries, ofAlternatives_map_alternative]
    dsimp only
    rw [ih]
    rfl

end BinaryGrammar

namespace NormalForm

variable {c : NormalForm} {name fresh : String} {word : Word}

/-- The binary grammar with the same productions. -/
def toBinary (c : NormalForm) : BinaryGrammar :=
  ⟨c.start, c.rules.mapValues fun _ productions => productions.map Production.binary⟩

theorem ofGrammar_toGrammar_eq_toBinary (c : NormalForm) (supply : NameSupply) :
    BinaryGrammar.ofGrammar c.toGrammar supply = (c.toBinary, supply) := by
  have steps := BinaryGrammar.ofEntries_map_alternative c.rules.entries supply
  have filed := RuleTable.ofList_entries c.toBinary.rules
  simp only [BinaryGrammar.ofGrammar, toGrammar, RuleTable.mapValues, steps, List.map_nil,
    List.append_nil]
  exact congrArg (fun rules => (BinaryGrammar.mk c.start rules, supply)) filed

/-- Without terminals in pairs there is nothing to find helpers for. -/
theorem toNormalForm_toBinary (c : NormalForm) (supply : NameSupply) :
    c.toBinary.toNormalForm supply = (c, supply) := by
  have listed : c.toBinary.rules.values.flatten =
      c.rules.values.flatten.map Production.binary := by
    simp [toBinary, RuleTable.values, RuleTable.mapValues, List.map_flatten, Function.comp_def]
  have unpaired : c.toBinary.rules.values.flatten.flatMap BinaryGrammar.pairChars = [] := by
    rw [listed, List.flatMap_map, List.flatMap_eq_nil_iff]
    exact fun production _ => production.pairChars_binary
  have created : c.toBinary.freshHelpers supply = ([], supply) := by
    rw [BinaryGrammar.freshHelpers, BinaryGrammar.pairedChars, unpaired]
    rfl
  have kept (helpers : List (Char × String)) : (c.toBinary.rules.entries.map fun entry =>
      (entry.1, entry.2.map (BinaryGrammar.isolate helpers))) = c.rules.entries := by
    simp [toBinary, RuleTable.mapValues, Function.comp_def]
  rw [BinaryGrammar.toNormalForm, created]
  dsimp only
  rw [kept, List.map_nil, List.append_nil, RuleTable.ofList_entries]
  rfl

/-- Reshaping leaves a normal form alone, and no name is issued for it. -/
theorem reshape_toGrammar (c : NormalForm) (supply : NameSupply) :
    c.toGrammar.reshape supply = c ∧ c.toGrammar.reshapedSupply supply = supply := by
  rw [Grammar.reshape, Grammar.reshapedSupply, ofGrammar_toGrammar_eq_toBinary]
  dsimp only
  rw [toNormalForm_toBinary]
  exact ⟨rfl, rfl⟩

/-! ## A tidy normal form as a grammar -/

/-- What a conversion leaves behind: every nonterminal in use has a rule, every rule is of use,
and the start symbol comes first and stands in no pair. -/
structure Tidy (c : NormalForm) : Prop where
  wellFormed : c.WellFormed
  trim : c.Trim
  first : c.nonterminals.head? = some c.start
  apart : ∀ name, ∀ production ∈ c.productions name, c.start ∉ production.names

/-- The normal form with another name for its start symbol, which stands in no pair, and with
every production once under each nonterminal. -/
def restarted (c : NormalForm) (fresh : String) : NormalForm :=
  ⟨fresh, .ofList (c.rules.entries.map fun entry =>
    (if entry.1 = c.start then fresh else entry.1, entry.2.eraseDups))⟩

/-- The names stay distinct when the start symbol gets a new one. -/
theorem entries_restarted (absent : fresh ∉ c.nonterminals) :
    (c.restarted fresh).rules.entries = c.rules.entries.map fun entry =>
      (if entry.1 = c.start then fresh else entry.1, entry.2.eraseDups) := by
  apply RuleTable.entries_ofList
  have names : (c.rules.entries.map fun entry =>
      (if entry.1 = c.start then fresh else entry.1, entry.2.eraseDups)).map Prod.fst =
        c.nonterminals.map fun name => if name = c.start then fresh else name := by
    simp [nonterminals, RuleTable.names, Function.comp_def]
  rw [names]
  refine List.Nodup.map_on (fun first defined second definedToo equal => ?_) c.rules.nodup_names
  by_cases startFirst : first = c.start <;> by_cases startSecond : second = c.start
  · rw [startFirst, startSecond]
  · rw [if_pos startFirst, if_neg startSecond] at equal
    exact absurd (equal ▸ definedToo) absent
  · rw [if_neg startFirst, if_pos startSecond] at equal
    exact absurd (equal ▸ defined) absent
  · rwa [if_neg startFirst, if_neg startSecond] at equal

theorem entries_toGrammar_restarted (absent : fresh ∉ c.nonterminals) :
    (c.restarted fresh).toGrammar.rules.entries = c.nonterminals.map fun name =>
      (if name = c.start then fresh else name,
        (c.productions name).eraseDups.map Production.alternative) := by
  have entries : (c.restarted fresh).toGrammar.rules.entries =
      (c.restarted fresh).rules.entries.map fun entry =>
        (entry.1, entry.2.map Production.alternative) := rfl
  rw [entries, entries_restarted absent, c.rules.entries_eq_map, List.map_map, List.map_map]
  rfl

theorem Derives.generates_toGrammar (derives : c.Derives name word) :
    c.toGrammar.Generates name := by
  induction derives with
  | terminal member =>
    refine Grammar.generates_iff.mpr ⟨_, alternative_mem_toGrammar member, fun other occurs => ?_⟩
    cases occurs
  | pair member _ _ generatesLeft generatesRight =>
    refine Grammar.generates_iff.mpr ⟨_, alternative_mem_toGrammar member, fun other occurs => ?_⟩
    rw [Production.names_alternative] at occurs
    rcases List.mem_cons.mp occurs with rfl | occurs
    · exact generatesLeft
    · rw [List.mem_singleton.mp occurs]
      exact generatesRight

/-! ## Preparing -/

theorem freshStart_notMem (c : NormalForm) : c.toGrammar.freshStart ∉ c.nonterminals := by
  rw [← nonterminals_toGrammar]
  exact c.toGrammar.freshStart_notMem

theorem ne_freshStart (defined : name ∈ c.nonterminals) : name ≠ c.toGrammar.freshStart :=
  fun equal => c.freshStart_notMem (equal ▸ defined)

theorem alternatives_isolated (defined : name ∈ c.nonterminals) :
    (c.toGrammar.isolateStart (.ofGrammar c.toGrammar)).1.alternatives name =
      (c.productions name).map Production.alternative := by
  rw [Grammar.alternatives_isolateStart_of_ne c.toGrammar.nonterminals_inUse
    (ne_freshStart defined), alternatives_toGrammar]

theorem isUnit_isolated (defined : name ∈ c.nonterminals) :
    ∀ alternative ∈ (c.toGrammar.isolateStart (.ofGrammar c.toGrammar)).1.alternatives name,
      Alternative.isUnit alternative = false := by
  intro alternative member
  rw [alternatives_isolated defined] at member
  obtain ⟨production, -, rfl⟩ := List.mem_map.mp member
  exact production.isUnit_alternative

/-- A nonterminal is left with its productions, each once. -/
theorem alternatives_prepared (defined : name ∈ c.nonterminals) :
    c.toGrammar.prepared.alternatives name =
      (c.productions name).eraseDups.map Production.alternative := by
  have listed : name ∈ (c.toGrammar.isolateStart (.ofGrammar c.toGrammar)).1.nonterminals := by
    rw [Grammar.nonterminals_isolateStart c.toGrammar.nonterminals_inUse, nonterminals_toGrammar]
    exact List.mem_cons_of_mem _ defined
  rw [Grammar.prepared, Grammar.alternatives_unitFree listed,
    Grammar.unitFreeAlternatives_of_notUnit (isUnit_isolated defined),
    alternatives_isolated defined, eraseDups_map Production.alternative_injective]

/-- The fresh start symbol takes over the productions of the old one, each once. -/
theorem alternatives_prepared_freshStart (defined : c.start ∈ c.nonterminals) :
    c.toGrammar.prepared.alternatives c.toGrammar.freshStart =
      (c.productions c.start).eraseDups.map Production.alternative := by
  have listed : c.toGrammar.freshStart ∈
      (c.toGrammar.isolateStart (.ofGrammar c.toGrammar)).1.nonterminals := by
    rw [Grammar.nonterminals_isolateStart c.toGrammar.nonterminals_inUse]
    exact List.mem_cons_self
  have unit : (c.toGrammar.isolateStart (.ofGrammar c.toGrammar)).1.alternatives
      c.toGrammar.freshStart = [[.nonterminal c.start]] :=
    Grammar.alternatives_isolateStart_start c.toGrammar.nonterminals_inUse
  rw [Grammar.prepared, Grammar.alternatives_unitFree listed,
    Grammar.unitFreeAlternatives_of_unit unit (ne_freshStart defined) (isUnit_isolated defined),
    alternatives_isolated defined, eraseDups_map Production.alternative_injective]

namespace Tidy

variable (tidy : c.Tidy)
include tidy

/-- Preparing a tidy normal form adds no alternatives. -/
theorem exists_production_of_prepared {alternative : Alternative}
    (member : alternative ∈ c.toGrammar.prepared.alternatives name) :
    ∃ origin, ∃ production ∈ c.productions origin, alternative = production.alternative := by
  have defined := Grammar.mem_nonterminals_of_mem_alternatives member
  rw [Grammar.nonterminals_prepared, nonterminals_toGrammar] at defined
  rcases List.mem_cons.mp defined with rfl | old
  · rw [alternatives_prepared_freshStart tidy.wellFormed.start_mem] at member
    obtain ⟨production, listed, rfl⟩ := List.mem_map.mp member
    exact ⟨c.start, production, List.mem_eraseDups.mp listed, rfl⟩
  · rw [alternatives_prepared old] at member
    obtain ⟨production, listed, rfl⟩ := List.mem_map.mp member
    exact ⟨name, production, List.mem_eraseDups.mp listed, rfl⟩

theorem generates_freshStart : c.toGrammar.prepared.Generates c.toGrammar.freshStart := by
  obtain ⟨word, derives⟩ := (tidy.trim c.start tidy.wellFormed.start_mem).generates
  exact tidy.wellFormed.toGrammar.generates_prepared_start_iff.mpr derives.generates_toGrammar

theorem generates_prepared (defined : name ∈ c.toGrammar.prepared.nonterminals) :
    c.toGrammar.prepared.Generates name := by
  rw [Grammar.nonterminals_prepared] at defined
  rcases List.mem_cons.mp defined with rfl | old
  · exact tidy.generates_freshStart
  · rw [tidy.wellFormed.toGrammar.generates_prepared_iff old]
    rw [nonterminals_toGrammar] at old
    obtain ⟨word, derives⟩ := (tidy.trim name old).generates
    exact derives.generates_toGrammar

theorem generates_of_mem_prepared {alternative : Alternative}
    (listed : alternative ∈ c.toGrammar.prepared.alternatives name) :
    ∀ other ∈ Alternative.names alternative, c.toGrammar.prepared.Generates other :=
  fun _ occurs => tidy.generates_prepared
    (tidy.wellFormed.toGrammar.prepared.mem_nonterminals listed occurs)

/-! ## Pruning -/

/-- What the old start symbol leads to is reached from the fresh one. -/
theorem reaches_generative (reached : c.Reaches c.start name) :
    name = c.start ∨ (c.toGrammar.prepared.generative c.toGrammar.freshStart).Reaches
      c.toGrammar.freshStart name := by
  induction reached with
  | refl => exact .inl rfl
  | @tail origin target path step ih =>
    -- A pair of the old start symbol is one of the fresh one, and any other stays where it was.
    obtain ⟨production, member, occurs⟩ := step
    rw [← Production.names_alternative] at occurs
    have refers (lhs : String)
        (listed : production.alternative ∈ c.toGrammar.prepared.alternatives lhs) :
        target ∈ (c.toGrammar.prepared.generative c.toGrammar.freshStart).referenced lhs :=
      Grammar.mem_referenced_iff.mpr ⟨_, Grammar.mem_alternatives_generative_iff.mpr
        ⟨listed, tidy.generates_of_mem_prepared listed⟩, occurs⟩
    have once : production.alternative ∈
        (c.productions origin).eraseDups.map Production.alternative :=
      List.mem_map_of_mem (List.mem_eraseDups.mpr member)
    right
    rcases ih with equal | reached
    · refine .single (refers _ ?_)
      rw [alternatives_prepared_freshStart tidy.wellFormed.start_mem, ← equal]
      exact once
    · refine reached.tail (refers _ ?_)
      rw [alternatives_prepared (mem_nonterminals_of_mem_productions member)]
      exact once

/-- The old start symbol is in no pair, so that nothing leads to it. -/
theorem not_reaches_start :
    ¬ (c.toGrammar.prepared.generative c.toGrammar.freshStart).Reaches
      c.toGrammar.freshStart c.start := by
  intro reached
  rcases reached.cases_tail with equal | ⟨lhs, -, refers⟩
  · exact ne_freshStart tidy.wellFormed.start_mem equal
  · obtain ⟨alternative, member, occurs⟩ := Grammar.mem_referenced_iff.mp refers
    have listed := (Grammar.mem_alternatives_generative_iff.mp member).1
    obtain ⟨origin, production, own, rfl⟩ := tidy.exists_production_of_prepared listed
    rw [Production.names_alternative] at occurs
    exact tidy.apart origin production own occurs

/-- All but the old start symbol are of use. -/
theorem ne_start_iff (defined : name ∈ c.toGrammar.prepared.nonterminals) :
    name ≠ c.start ↔ c.toGrammar.prepared.Generates name ∧
      (c.toGrammar.prepared.generative c.toGrammar.freshStart).Reaches
        c.toGrammar.freshStart name := by
  constructor
  · intro other
    refine ⟨tidy.generates_prepared defined, ?_⟩
    rw [Grammar.nonterminals_prepared, nonterminals_toGrammar] at defined
    rcases List.mem_cons.mp defined with rfl | old
    · exact .refl
    · exact (tidy.reaches_generative (tidy.trim name old).reached).resolve_left other
  · rintro ⟨-, reached⟩ rfl
    exact tidy.not_reaches_start reached

theorem exists_rest : ∃ rest, c.nonterminals = c.start :: rest ∧ c.start ∉ rest := by
  obtain ⟨rest, names⟩ := List.head?_eq_some_iff.mp tidy.first
  have distinct : c.nonterminals.Nodup := c.rules.nodup_names
  rw [names, List.nodup_cons] at distinct
  exact ⟨rest, names, distinct.1⟩

/-- The fresh start symbol is in the place of the old one, and all others are in theirs. -/
theorem nonterminals_useful {rest : List String} (names : c.nonterminals = c.start :: rest)
    (absent : c.start ∉ rest) :
    (c.toGrammar.prepared.usefulFrom c.toGrammar.freshStart).nonterminals =
      c.toGrammar.freshStart :: rest := by
  have different : c.start ≠ c.toGrammar.freshStart := ne_freshStart tidy.wellFormed.start_mem
  rw [Grammar.nonterminals_usefulFrom_eq_filter tidy.wellFormed.toGrammar.prepared
    tidy.generates_freshStart fun name defined => bne_iff_ne.trans (tidy.ne_start_iff defined),
    Grammar.nonterminals_prepared, nonterminals_toGrammar, names,
    List.filter_cons_of_pos (by simpa using different.symm), List.filter_cons_of_neg (by simp),
    List.filter_eq_self.mpr]
  intro name member
  rw [bne_iff_ne]
  exact fun equal => absent (equal ▸ member)

/-- What is left after pruning is the normal form with its start symbol renamed and without
repetitions. -/
theorem usefulFrom_prepared :
    c.toGrammar.prepared.usefulFrom c.toGrammar.freshStart =
      (c.restarted c.toGrammar.freshStart).toGrammar := by
  obtain ⟨rest, names, absent⟩ := tidy.exists_rest
  have useful := tidy.nonterminals_useful names absent
  have kept {name : String} (member : name ∈ c.toGrammar.freshStart :: rest) :
      (c.toGrammar.prepared.usefulFrom c.toGrammar.freshStart).alternatives name =
        c.toGrammar.prepared.alternatives name :=
    Grammar.alternatives_usefulFrom_of_generates tidy.wellFormed.toGrammar.prepared
      tidy.generates_freshStart (useful ▸ member)
      fun alternative listed => tidy.generates_of_mem_prepared listed
  have entries : (c.toGrammar.prepared.usefulFrom c.toGrammar.freshStart).rules.entries =
      (c.restarted c.toGrammar.freshStart).toGrammar.rules.entries := by
    calc (c.toGrammar.prepared.usefulFrom c.toGrammar.freshStart).rules.entries
        = (c.toGrammar.freshStart :: rest).map fun name => (name,
            (c.toGrammar.prepared.usefulFrom c.toGrammar.freshStart).alternatives name) := by
          rw [RuleTable.entries_eq_map, ← Grammar.nonterminals, useful]
          rfl
      _ = (c.start :: rest).map fun name =>
            (if name = c.start then c.toGrammar.freshStart else name,
              (c.productions name).eraseDups.map Production.alternative) := by
          rw [List.map_cons, List.map_cons, kept List.mem_cons_self,
            alternatives_prepared_freshStart tidy.wellFormed.start_mem, if_pos rfl]
          congr 1
          refine List.map_congr_left fun name member => ?_
          have old : name ∈ c.nonterminals := names ▸ List.mem_cons_of_mem _ member
          have other : name ≠ c.start := fun equal => absent (equal ▸ member)
          rw [kept (List.mem_cons_of_mem _ member), alternatives_prepared old, if_neg other]
      _ = (c.restarted c.toGrammar.freshStart).toGrammar.rules.entries := by
          rw [entries_toGrammar_restarted c.freshStart_notMem, names]
  exact congrArg (Grammar.mk c.toGrammar.freshStart) (RuleTable.eq_of_entries_eq entries)

/-! ## All steps -/

/-- Converting a tidy normal form renames its start symbol and drops repetitions. The fresh start
symbol is the only name that is issued. -/
theorem convert_toGrammar {σ : Type} [RandomSource σ] (source : σ) :
    (c.toGrammar.convert source).normalForm = c.restarted c.toGrammar.freshStart ∧
      (NameSupply.ofGrammar c.toGrammar).Issues [c.toGrammar.freshStart]
        (c.toGrammar.convert source).supply := by
  obtain ⟨useful, -⟩ := Grammar.prune_of_generates tidy.generates_freshStart source
  rw [(c.toGrammar.convert_eq source).1, c.toGrammar.supply_convert source, useful,
    Grammar.start_prepared, tidy.usefulFrom_prepared]
  obtain ⟨same, unissued⟩ := reshape_toGrammar (c.restarted c.toGrammar.freshStart)
    c.toGrammar.preparedSupply
  rw [same, unissued]
  exact ⟨rfl, c.toGrammar.issues_preparedSupply⟩

end Tidy

end NormalForm

namespace Grammar

variable {σ : Type} [RandomSource σ] {g : Grammar}

/-- A conversion leaves a tidy normal form, if the start symbol derives a word. -/
theorem WellFormed.tidy_convert (wellFormed : g.WellFormed) (generates : g.Generates g.start)
    (source : σ) : (g.convert source).normalForm.Tidy := by
  obtain ⟨started, first, apart⟩ := wellFormed.freshStart_convert generates source
  rw [← started] at first apart
  exact ⟨wellFormed.wellFormed_convert source, wellFormed.trim_convert generates source, first,
    apart⟩

/-- Normalizing a normal form changes the name of its start symbol and nothing else, except that
a production which has come to stand twice under one nonterminal is left once. The new name is
the only one that is issued, and the old one stands in no pair, so that it has to be changed
nowhere else. -/
theorem normalize_toGrammar_normalize {start : String} {rules : RuleTable (List Alternative)}
    (accepted : ofRules start rules = .ok g) (generates : g.Generates g.start) {c : NormalForm}
    (normalized : g.normalize = c) :
    ∃ number fresh, fresh = Origin.start.name number ∧ fresh ∉ c.nonterminals ∧
      c.toGrammar.normalize.start = fresh ∧
      c.toGrammar.normalize.rules.entries = (c.rules.entries.map fun entry =>
        (if entry.1 = c.start then fresh else entry.1, entry.2.eraseDups)) ∧
      (∀ lhs left right, .pair left right ∈ c.productions lhs → c.start ≠ left ∧ c.start ≠ right) ∧
      (NameSupply.ofGrammar c.toGrammar).Issues [fresh] c.toGrammar.convertFixed.supply := by
  have tidy : c.Tidy := by
    rw [← normalized]
    exact (wellFormed_of_ofRules accepted).tidy_convert generates (Keystream.ofSeed defaultSeed)
  obtain ⟨same, issues⟩ := tidy.convert_toGrammar (Keystream.ofSeed defaultSeed)
  obtain ⟨number, named⟩ := c.toGrammar.exists_freshStart_eq
  have again : c.toGrammar.normalize = c.restarted c.toGrammar.freshStart := same
  rw [again]
  refine ⟨number, _, named, c.freshStart_notMem, rfl, ?_, fun lhs left right member => ?_, issues⟩
  · exact NormalForm.entries_restarted c.freshStart_notMem
  · have missing := tidy.apart lhs _ member
    simp only [Production.names, List.mem_cons, List.not_mem_nil, or_false, not_or] at missing
    exact missing

/-- Two alternatives that have become the same pair are one pair after the second time. -/
theorem normalize_toGrammar_normalize_repeating :
    ofRules repeating.start repeating.rules = .ok repeating ∧
      repeating.Generates repeating.start ∧
      repeating.normalize.rules.entries =
        [("[START1]", [.pair "A" "B", .pair "A" "B", .pair "A" "[BIN2]"]), ("A", [.terminal 'a']),
          ("B", [.terminal 'b']), ("[BIN2]", [.pair "[TERM3]" "B"]),
          ("[TERM3]", [.terminal 'c'])] ∧
      ∃ fresh, fresh ∉ repeating.normalize.nonterminals ∧
        repeating.normalize.toGrammar.normalize.start = fresh ∧
        repeating.normalize.toGrammar.normalize.rules.entries =
          [(fresh, [.pair "A" "B", .pair "A" "[BIN2]"]), ("A", [.terminal 'a']),
            ("B", [.terminal 'b']), ("[BIN2]", [.pair "[TERM3]" "B"]),
            ("[TERM3]", [.terminal 'c'])] := by
  have accepted : ofRules repeating.start repeating.rules = .ok repeating := by decide
  have generates : repeating.Generates repeating.start := by decide
  have entries : repeating.normalize.rules.entries =
      [("[START1]", [.pair "A" "B", .pair "A" "B", .pair "A" "[BIN2]"]), ("A", [.terminal 'a']),
        ("B", [.terminal 'b']), ("[BIN2]", [.pair "[TERM3]" "B"]),
        ("[TERM3]", [.terminal 'c'])] := by decide +kernel
  have named : repeating.normalize.start = "[START1]" := by decide +kernel
  obtain ⟨-, fresh, -, absent, started, again, -, -⟩ :=
    normalize_toGrammar_normalize accepted generates rfl
  refine ⟨accepted, generates, entries, fresh, absent, started, ?_⟩
  rw [again, entries, named]
  rfl

end Grammar

end ContextFree
