import ContextFree.Proofs.ConversionLanguage
import ContextFree.Proofs.ConversionNames
import ContextFree.Proofs.ConversionUseful
import ContextFree.Proofs.RoundTrip

/-!
# The printed form of a conversion

The normal form of a grammar that was read from a text can be printed and read back: the names
that a conversion issues are names of the notation, its terminals are those of the grammar, and no
nonterminal is left without a production. The rules come back as they were.

The start symbol is another matter. The text does not show it, and the first rule is taken to be
its rule. This is right for the fresh start symbol, which leads the rules
(`read_render_convert_eq_ok`). A substitute stays where it was among the other rules, and what is
read back then has the language of the first of these (`read_render_convert_of_substitute`).
-/

namespace ContextFree

/-! ## Normal forms as grammars -/

namespace Production

theorem names_alternative (production : Production) :
    Alternative.names production.alternative = production.names := by
  cases production <;> rfl

theorem text_alternative (production : Production) :
    Alternative.text production.alternative = production.text := by
  cases production with
  | terminal char => simp [Alternative.text, alternative, text, Symbol.text]
  | pair left right => simp [Alternative.text, alternative, text, Symbol.text]

theorem ofAlternative?_alternative (production : Production) :
    ofAlternative? production.alternative = some production := by
  cases production <;> rfl

end Production

namespace NormalForm

variable {c : NormalForm} {name lhs first : String} {char : Char} {word : Word}

theorem nonterminals_toGrammar (c : NormalForm) : c.toGrammar.nonterminals = c.nonterminals :=
  RuleTable.names_mapValues _ _

theorem alternatives_toGrammar (c : NormalForm) (name : String) :
    c.toGrammar.alternatives name = (c.productions name).map Production.alternative := by
  rw [Grammar.alternatives, toGrammar, RuleTable.get?_mapValues, productions]
  cases c.rules.get? name with
  | none => rfl
  | some productions => rfl

theorem alternative_mem_toGrammar {production : Production}
    (member : production ∈ c.productions name) :
    production.alternative ∈ c.toGrammar.alternatives name := by
  rw [alternatives_toGrammar]
  exact List.mem_map_of_mem member

theorem WellFormed.toGrammar (wellFormed : c.WellFormed) : c.toGrammar.WellFormed := by
  rw [Grammar.wellFormed_iff, nonterminals_toGrammar]
  refine ⟨wellFormed.start_mem, fun name alternative member => ?_⟩
  rw [alternatives_toGrammar] at member
  obtain ⟨production, listed, rfl⟩ := List.mem_map.mp member
  rw [Production.names_alternative]
  refine ⟨?_, (wellFormed_iff.mp wellFormed).2 name production listed⟩
  cases production with
  | terminal char => exact List.cons_ne_nil _ _
  | pair left right => exact List.cons_ne_nil _ _

theorem render_toGrammar (c : NormalForm) : c.toGrammar.render = c.render := by
  have line (lhs : String) : Grammar.productionLine lhs ∘ Production.alternative =
      productionLine lhs := by
    funext production
    rw [Function.comp_apply, Grammar.productionLine, Production.text_alternative, productionLine]
  simp [Grammar.render, render, toGrammar, RuleTable.mapValues, List.flatMap_map, line]

theorem misfits_toGrammar (c : NormalForm) : misfits c.toGrammar = [] := by
  simp only [misfits, List.flatMap_eq_nil_iff, List.map_eq_nil_iff, List.filter_eq_nil_iff]
  intro entry filed alternative member
  have listed := Grammar.mem_alternatives_iff.mpr ⟨entry.2, filed, member⟩
  rw [alternatives_toGrammar] at listed
  obtain ⟨production, -, rfl⟩ := List.mem_map.mp listed
  simp [Production.ofAlternative?_alternative]

/-- A normal form comes back from the grammar with the same productions. -/
theorem ofGrammar_toGrammar (c : NormalForm) : ofGrammar c.toGrammar = .ok c := by
  rw [ofGrammar, misfits_toGrammar]
  simp [toGrammar, RuleTable.mapValues, List.filterMap_map, Function.comp_def,
    Production.ofAlternative?_alternative]

theorem mem_terminals_toGrammar_iff :
    char ∈ c.toGrammar.terminals ↔ ∃ name, .terminal char ∈ c.productions name := by
  rw [Grammar.mem_terminals_iff]
  refine exists_congr fun name => ?_
  rw [alternatives_toGrammar]
  constructor
  · rintro ⟨alternative, member, occurs⟩
    obtain ⟨production, listed, rfl⟩ := List.mem_map.mp member
    cases production with
    | terminal other =>
      cases List.mem_singleton.mp occurs
      exact listed
    | pair left right => simp [Production.alternative] at occurs
  · intro listed
    exact ⟨_, List.mem_map.mpr ⟨_, listed, rfl⟩, List.mem_singleton.mpr rfl⟩

/-! ## Another start symbol -/

/-- The same rules with another start symbol. -/
def startingAt (c : NormalForm) (first : String) : NormalForm := ⟨first, c.rules⟩

@[simp]
theorem startingAt_start (c : NormalForm) : c.startingAt c.start = c := rfl

/-- What a nonterminal derives does not depend on the start symbol. -/
theorem Derives.startingAt (derives : c.Derives name word) (first : String) :
    (c.startingAt first).Derives name word := by
  induction derives with
  | terminal member => exact .terminal member
  | pair member _ _ ihLeft ihRight => exact .pair member ihLeft ihRight

theorem derives_startingAt_iff :
    (c.startingAt first).Derives name word ↔ c.Derives name word :=
  ⟨fun derives => derives.startingAt c.start, fun derives => derives.startingAt first⟩

theorem WellFormed.startingAt (wellFormed : c.WellFormed) (defined : first ∈ c.nonterminals) :
    (c.startingAt first).WellFormed :=
  ⟨defined, wellFormed.defined⟩

/-! ## Printing and reading back -/

/-- The rules can be told from their printed form. -/
structure Printable (c : NormalForm) : Prop where
  names : ∀ name ∈ c.nonterminals, Name.isNonterminalName name = true
  terminals : ∀ name char, .terminal char ∈ c.productions name → Source.isTerminal char = true
  inhabited : ∀ name ∈ c.nonterminals, c.productions name ≠ []

theorem Printable.toGrammar (printable : c.Printable)
    (leads : c.nonterminals.head? = some c.start) : c.toGrammar.Printable where
  names := by
    rw [nonterminals_toGrammar]
    exact printable.names
  terminals char occurs := by
    obtain ⟨name, member⟩ := mem_terminals_toGrammar_iff.mp occurs
    exact printable.terminals name char member
  inhabited name defined := by
    rw [nonterminals_toGrammar] at defined
    rw [alternatives_toGrammar, ne_eq, List.map_eq_nil_iff]
    exact printable.inhabited name defined
  start_first := by
    rw [nonterminals_toGrammar]
    exact leads

/-- A printable normal form comes back from its printed form, but for the start symbol, which is
the first nonterminal afterwards. -/
theorem Printable.read_render (printable : c.Printable) (wellFormed : c.WellFormed)
    (leads : c.nonterminals.head? = some first) :
    ∃ h, Grammar.read c.render = .ok h ∧ ofGrammar h = .ok (c.startingAt first) := by
  have formed := wellFormed.startingAt (List.mem_of_mem_head? leads)
  have shown : (c.startingAt first).Printable :=
    ⟨printable.names, printable.terminals, printable.inhabited⟩
  refine ⟨_, ?_, ofGrammar_toGrammar (c.startingAt first)⟩
  calc Grammar.read c.render
      = Grammar.read (c.startingAt first).toGrammar.render := by rw [render_toGrammar]; rfl
    _ = .ok (c.startingAt first).toGrammar := (shown.toGrammar leads).read_render formed.toGrammar

/-! ## Terminals -/

theorem DerivesUsing.mem_word (derives : c.DerivesUsing lhs (.terminal char) name word) :
    char ∈ word := by
  induction derives with
  | here _ produces =>
    obtain rfl := produces
    exact List.mem_singleton.mpr rfl
  | left _ _ _ ih => exact List.mem_append_left _ ih
  | right _ _ _ ih => exact List.mem_append_right _ ih

end NormalForm

/-- A character of a word that an alternative stands for is in the alternative, or in what one of
its nonterminals stands for. -/
theorem Reads.mem_cases {reading : Reading} {alternative : Alternative} {word : Word} {char : Char}
    (reads : Reads reading alternative word) (occurs : char ∈ word) :
    .terminal char ∈ alternative ∨ ∃ name part, reading name part ∧ char ∈ part := by
  induction alternative generalizing word with
  | nil =>
    obtain rfl := reads
    cases occurs
  | cons symbol rest ih =>
    cases symbol with
    | terminal other =>
      obtain ⟨tail, rfl, readsRest⟩ := reads
      rcases List.mem_cons.mp occurs with rfl | occurs
      · exact .inl List.mem_cons_self
      · exact (ih readsRest occurs).imp (List.mem_cons_of_mem _) id
    | nonterminal name =>
      obtain ⟨front, back, rfl, stands, readsRest⟩ := reads
      rcases List.mem_append.mp occurs with occurs | occurs
      · exact .inr ⟨name, front, stands, occurs⟩
      · exact (ih readsRest occurs).imp (List.mem_cons_of_mem _) id

namespace Grammar

variable {σ : Type} [RandomSource σ] {g : Grammar} {name first : String} {word : Word}

/-- A word that is derived has only terminals of the grammar. -/
theorem Derives.mem_terminals (derives : g.Derives name word) :
    ∀ char ∈ word, char ∈ g.terminals := by
  refine derives.of_closed (fun _ word => ∀ char ∈ word, char ∈ g.terminals) ?_
  intro name alternative member word reads char occurs
  rcases reads.mem_cases occurs with occurs | ⟨other, part, within, occurs⟩
  · exact mem_terminals_iff.mpr ⟨name, alternative, member, occurs⟩
  · exact within char occurs

/-- A word of the normal form is derived in the grammar, if not by its start symbol then by the
substitute. -/
theorem WellFormed.exists_derives_of_accepts (wellFormed : g.WellFormed) {source : σ}
    (accepts : (g.convert source).normalForm.Accepts word) : ∃ name, g.Derives name word := by
  have derives := (wellFormed.accepts_convert_iff source).mp accepts
  have defined := derives.mem_nonterminals
  rw [nonterminals_prepared] at defined
  rcases List.mem_cons.mp defined with fresh | old
  · rw [fresh] at derives
    exact ⟨g.start, wellFormed.derives_prepared_start_iff.mp derives⟩
  · exact ⟨_, (wellFormed.derives_prepared_iff old).mp derives⟩

/-- A conversion brings in no terminals. Every production of the normal form is used for some
word of its language, and that word is one of the grammar. -/
theorem WellFormed.mem_terminals_of_convert (wellFormed : g.WellFormed)
    (generates : g.Generates name) {source : σ} {lhs : String} {char : Char}
    (member : .terminal char ∈ (g.convert source).normalForm.productions lhs) :
    char ∈ g.terminals := by
  have trim := wellFormed.trim_convert generates source
  obtain ⟨word, derives⟩ := trim.exists_derivesUsing (wellFormed.wellFormed_convert source) member
  obtain ⟨origin, derivesOld⟩ := wellFormed.exists_derives_of_accepts derives.derives
  exact derivesOld.mem_terminals char derives.mem_word

end Grammar

/-! ## Names -/

theorem Origin.isAlpha_of_mem_label (origin : Origin) :
    ∀ char ∈ origin.label.toList, char.isAlpha = true := by
  rw [← List.all_eq_true]
  cases origin <;> decide

/-- The names of a supply are names of the notation. -/
theorem Origin.isNonterminalName_name (origin : Origin) (number : Nat) :
    Name.isNonterminalName (origin.name number) = true := by
  have spelled : (origin.name number).toList =
      '[' :: (origin.label.toList ++ Nat.toDigits 10 number ++ [']']) := by
    simp [name, Nat.toString_eq_repr]
  have nonempty : origin.label.toList ≠ [] := by cases origin <;> decide
  have inner : Name.isLettersDigits (origin.label.toList ++ Nat.toDigits 10 number) = true :=
    Name.isLettersDigits_iff.mpr ⟨_, _, rfl, nonempty, origin.isAlpha_of_mem_label,
      fun char member => Nat.isDigit_of_mem_toDigits (by decide) (by decide) member⟩
  rw [Name.isNonterminalName, Name.isName, spelled, Name.isBracketed_iff.mpr ⟨_, rfl, inner⟩,
    Bool.true_or]

/-! ## Reading the normal form back -/

namespace Grammar

variable {σ : Type} [RandomSource σ] {g : Grammar} {name first : String}

theorem WellFormed.isNonterminalName_convert (wellFormed : g.WellFormed) (printable : g.Printable)
    {source : σ} (defined : name ∈ (g.convert source).normalForm.nonterminals) :
    Name.isNonterminalName name = true := by
  obtain ⟨issued, issues, known⟩ := wellFormed.exists_issued source
  rcases known name defined with old | fresh
  · exact printable.names name old
  · obtain ⟨origin, number, rfl⟩ := issues.exists_origin name fresh
    exact origin.isNonterminalName_name number

/-- The normal form of a printable grammar is printable, as long as something derives a word. -/
theorem WellFormed.printable_convert (wellFormed : g.WellFormed) (printable : g.Printable)
    (generates : g.Generates name) (source : σ) : (g.convert source).normalForm.Printable where
  names _ defined := wellFormed.isNonterminalName_convert printable defined
  terminals _ char member :=
    printable.terminals char (wellFormed.mem_terminals_of_convert generates member)
  inhabited name defined := by
    obtain ⟨-, word, derives⟩ := wellFormed.trim_convert generates source name defined
    obtain ⟨production, member, -⟩ := NormalForm.derives_iff_produces.mp derives
    exact List.ne_nil_of_mem member

/-- The normal form of a grammar that was read from a text comes back from its printed form, but
for the start symbol, which is the first nonterminal afterwards. -/
theorem read_render_convert {text : String} (accepted : read text = .ok g)
    (generates : g.Generates name) {source : σ}
    (leads : (g.convert source).normalForm.nonterminals.head? = some first) :
    ∃ h, read (g.convert source).normalForm.render = .ok h ∧
      NormalForm.ofGrammar h = .ok ((g.convert source).normalForm.startingAt first) := by
  obtain ⟨wellFormed, printable⟩ := printable_of_read accepted
  exact (wellFormed.printable_convert printable generates source).read_render
    (wellFormed.wellFormed_convert source) leads

/-- If the start symbol of a grammar that was read from a text derives a word, its normal form
comes back unchanged from its printed form. -/
theorem read_render_convert_eq_ok {text : String} (accepted : read text = .ok g)
    (generates : g.Generates g.start) (source : σ) {c : NormalForm}
    (converted : (g.convert source).normalForm = c) :
    ∃ h, read c.render = .ok h ∧ NormalForm.ofGrammar h = .ok c := by
  obtain ⟨wellFormed, -⟩ := printable_of_read accepted
  obtain ⟨started, leads, -⟩ := wellFormed.freshStart_convert generates source
  have back := read_render_convert accepted generates leads
  rwa [← started, NormalForm.startingAt_start, converted] at back

/-- Two alternatives that become the same pair, and one that needs a link and a helper. -/
def repeating : Grammar :=
  ⟨"S", ⟨[("S", [[.terminal 'a', .nonterminal "B"], [.nonterminal "A", .nonterminal "B"],
      [.nonterminal "A", .terminal 'c', .nonterminal "B"]]),
    ("A", [[.terminal 'a']]), ("B", [[.terminal 'b']])], by decide⟩⟩

theorem read_render_convert_eq_ok_repeating :
    read "S -> a B\nS -> A B\nS -> A c B\nA -> a\nB -> b\n" = .ok repeating ∧
      repeating.Generates repeating.start ∧
      (repeating.convert (Script.mk [])).normalForm.productions "[START1]" =
        [.pair "A" "B", .pair "A" "B", .pair "A" "[BIN2]"] ∧
      ∃ h, read (repeating.convert (Script.mk [])).normalForm.render = .ok h ∧
        NormalForm.ofGrammar h = .ok (repeating.convert (Script.mk [])).normalForm := by
  have accepted : read "S -> a B\nS -> A B\nS -> A c B\nA -> a\nB -> b\n" =
      .ok repeating := by decide +kernel
  have generates : repeating.Generates repeating.start := by decide
  refine ⟨accepted, generates, by decide +kernel, ?_⟩
  exact read_render_convert_eq_ok accepted generates (Script.mk []) rfl

/-! ## A substitute among the other rules -/

section Substitute

variable (wellFormed : g.WellFormed) (useless : ¬ g.Generates g.start)
variable (generates : g.Generates name) (source : σ)
include wellFormed useless generates

/-- If the start symbol derives no word, the fresh one in front of it is dropped as well. -/
theorem WellFormed.nonterminals_useful_subset :
    (g.prepared.prune source).useful.nonterminals ⊆ g.nonterminals := by
  intro other useful
  have keeps := wellFormed.prepared.keeps_prune source
  have old := (wellFormed.generates_prepared_iff generates.mem_nonterminals).mpr generates
  obtain ⟨-, word, derives⟩ := wellFormed.prepared.trim_prune old source other useful
  have defined := keeps.names useful
  rw [nonterminals_prepared] at defined
  rcases List.mem_cons.mp defined with rfl | defined
  · have again := (keeps.derives _ useful word).mp derives
    exact absurd ⟨word, wellFormed.derives_prepared_start_iff.mp again⟩ useless
  · exact defined

theorem WellFormed.start_convert_mem :
    (g.convert source).normalForm.start ∈ g.nonterminals := by
  rw [start_convert]
  exact wellFormed.nonterminals_useful_subset useless generates source
    (wellFormed.prepared.keeps_prune source).wellFormed.start_mem

/-- The first nonterminal of the normal form is one of the grammar. -/
theorem WellFormed.exists_first_convert :
    ∃ first ∈ g.nonterminals, (g.convert source).normalForm.nonterminals.head? = some first := by
  obtain ⟨added, names, -⟩ := wellFormed.nonterminals_convert source
  have started := (wellFormed.prepared.keeps_prune source).wellFormed.start_mem
  obtain ⟨first, leads⟩ := Option.isSome_iff_exists.mp
    (List.isSome_head?.mpr (List.ne_nil_of_mem started))
  refine ⟨first, ?_, ?_⟩
  · exact wellFormed.nonterminals_useful_subset useless generates source
      (List.mem_of_mem_head? leads)
  · rw [names, List.head?_append, leads]
    rfl

end Substitute

/-- Started at a nonterminal of the grammar, the normal form has the words that this derives in
the grammar. -/
theorem WellFormed.recognise_startingAt_iff (wellFormed : g.WellFormed) {source : σ}
    (defined : name ∈ (g.convert source).normalForm.nonterminals) (old : name ∈ g.nonterminals)
    (word : Word) :
    (Recognizer.ofNormalForm
        ((g.convert source).normalForm.startingAt name)).recognise word = true ↔
      g.Derives name word := by
  rw [Recognizer.recognise_eq_true_iff]
  calc ((g.convert source).normalForm.startingAt name).Derives name word
      ↔ (g.convert source).normalForm.Derives name word := NormalForm.derives_startingAt_iff
    _ ↔ g.Derives name word := wellFormed.derives_convert_iff defined old

/-- A normal form with a substitute for the start symbol comes back from its printed form with
the same rules and its first nonterminal for a start symbol. Both have the words that their start
symbols derive in the grammar, so that the language is the same if and only if these are. -/
theorem read_render_convert_of_substitute {text : String} (accepted : read text = .ok g)
    (useless : ¬ g.Generates g.start) (substitutes : ∃ name ∈ g.nonterminals, g.Generates name)
    (source : σ) {c : NormalForm} (converted : (g.convert source).normalForm = c) :
    ∃ first h d, c.nonterminals.head? = some first ∧ read c.render = .ok h ∧
      NormalForm.ofGrammar h = .ok d ∧ d.start = first ∧ d.rules = c.rules ∧
      (∀ word, (Recognizer.ofNormalForm c).recognise word = true ↔ g.Derives c.start word) ∧
      (∀ word, (Recognizer.ofNormalForm d).recognise word = true ↔ g.Derives first word) ∧
      ((∀ word, (Recognizer.ofNormalForm d).recognise word =
          (Recognizer.ofNormalForm c).recognise word) ↔
        ∀ word, g.Derives first word ↔ g.Derives c.start word) := by
  obtain ⟨wellFormed, -⟩ := printable_of_read accepted
  obtain ⟨name, -, generates⟩ := substitutes
  obtain ⟨first, old, leads⟩ := wellFormed.exists_first_convert useless generates source
  have oldStart := wellFormed.start_convert_mem useless generates source
  obtain ⟨h, reads, fits⟩ := read_render_convert accepted generates leads
  have ofFirst := wellFormed.recognise_startingAt_iff (List.mem_of_mem_head? leads) old
  have ofStart := wellFormed.recognise_startingAt_iff
    (wellFormed.wellFormed_convert source).start_mem oldStart
  rw [NormalForm.startingAt_start] at ofStart
  rw [converted] at leads reads fits ofFirst ofStart
  refine ⟨first, h, c.startingAt first, leads, reads, fits, rfl, rfl, ofStart, ofFirst, ?_⟩
  refine forall_congr' fun word => ?_
  rw [Bool.eq_iff_iff, ofFirst, ofStart]

/-- A start symbol that derives nothing, and two nonterminals of which the second needs the
first. -/
def overtaken : Grammar :=
  ⟨"S", ⟨[("S", [[.nonterminal "S", .terminal 'a']]), ("A", [[.terminal 'a']]),
    ("B", [[.nonterminal "A", .terminal 'b']])], by decide⟩⟩

theorem read_render_convert_of_substitute_overtaken :
    read "S -> S a\nA -> a\nB -> A b\n" = .ok overtaken ∧
      ¬ overtaken.Generates overtaken.start ∧ overtaken.Generates "A" ∧
      ∀ source : Script, ∃ first h d,
        (overtaken.convert source).normalForm.nonterminals.head? = some first ∧
        read (overtaken.convert source).normalForm.render = .ok h ∧
        NormalForm.ofGrammar h = .ok d ∧
        ∀ word, (Recognizer.ofNormalForm d).recognise word = true ↔
          overtaken.Derives first word := by
  have accepted : read "S -> S a\nA -> a\nB -> A b\n" = .ok overtaken := by decide +kernel
  have useless : ¬ overtaken.Generates overtaken.start := by decide
  have generates : overtaken.Generates "A" := by decide
  refine ⟨accepted, useless, generates, fun source => ?_⟩
  obtain ⟨first, h, d, leads, reads, fits, -, -, -, ofFirst, -⟩ :=
    read_render_convert_of_substitute accepted useless ⟨"A", by decide, generates⟩ source rfl
  exact ⟨first, h, d, leads, reads, fits, ofFirst⟩

/-- The rules that `B` needs. -/
def overtakenRules : RuleTable (List Production) :=
  ⟨[("A", [.terminal 'a']), ("B", [.pair "A" "[TERM2]"]), ("[TERM2]", [.terminal 'b'])],
    by decide⟩

/-- With `B` drawn as the substitute the rule of `A` stays in front, and what is read back has
the language of `A`. -/
theorem read_render_convert_changes_language :
    read "S -> S a\nA -> a\nB -> A b\n" = .ok overtaken ∧
      ¬ overtaken.Generates overtaken.start ∧ overtaken.Generates "A" ∧
      ∃ h d, read (overtaken.convert (Script.mk [0, 2147483648])).normalForm.render = .ok h ∧
        NormalForm.ofGrammar h = .ok d ∧
        (Recognizer.ofNormalForm
          (overtaken.convert (Script.mk [0, 2147483648])).normalForm).recognise ['a', 'b'] = true ∧
        (Recognizer.ofNormalForm d).recognise ['a', 'b'] = false := by
  refine ⟨by decide +kernel, by decide, by decide, ?_⟩
  have same : (overtaken.convert (Script.mk [0, 2147483648])).normalForm =
      ⟨"B", overtakenRules⟩ := by decide +kernel
  rw [same]
  refine ⟨NormalForm.toGrammar ⟨"A", overtakenRules⟩, ⟨"A", overtakenRules⟩, ?_, ?_, ?_, ?_⟩
  · decide +kernel
  · exact NormalForm.ofGrammar_toGrammar _
  · decide +kernel
  · decide +kernel

end Grammar

end ContextFree
