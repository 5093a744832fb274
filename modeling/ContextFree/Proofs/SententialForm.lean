import ContextFree.Proofs.Useful

/-!
# Sentential forms

Replacing one nonterminal after another by one of its alternatives leads from form to form. This
is the step by step account of what `Yields` says at one go (`yields_iff_rewrites`), and it can
speak about what lies between: a nonterminal is reached from another one if it stands in a form that
this one leads to, and it is useful if that form leads on to a word.

`prune_keeps_what_words_need` states in these terms what becomes of a grammar without its useless
symbols.
-/

namespace ContextFree.Grammar

variable {g : Grammar} {name start : String} {form next last : Alternative} {word : Word}

/-- One nonterminal of a form is replaced by one of its alternatives. -/
inductive Replaces (g : Grammar) : Alternative → Alternative → Prop
  | mk {name : String} {alternative : Alternative} (front back : Alternative) :
      alternative ∈ g.alternatives name →
      Replaces g (front ++ .nonterminal name :: back) (front ++ (alternative ++ back))

/-- Replacements, any number of them, lead from one form to another. -/
def Rewrites (g : Grammar) : Alternative → Alternative → Prop := Relation.ReflTransGen g.Replaces

/-! ## Forms and words -/

theorem Replaces.append_left (replaces : g.Replaces form next) (before : Alternative) :
    g.Replaces (before ++ form) (before ++ next) := by
  cases replaces with
  | mk front back member =>
    rw [← List.append_assoc, ← List.append_assoc]
    exact .mk (before ++ front) back member

theorem Replaces.append_right (replaces : g.Replaces form next) (behind : Alternative) :
    g.Replaces (form ++ behind) (next ++ behind) := by
  cases replaces with
  | mk front back member =>
    rw [List.append_assoc, List.append_assoc, List.append_assoc]
    exact .mk front (back ++ behind) member

/-- Two parts of a form are rewritten independently of each other. -/
theorem Rewrites.append {front back : Alternative} (rewritesFront : g.Rewrites form front)
    (rewritesBack : g.Rewrites next back) : g.Rewrites (form ++ next) (front ++ back) := by
  have first : g.Rewrites (form ++ next) (front ++ next) :=
    rewritesFront.lift (· ++ next) fun _ _ replaces => replaces.append_right next
  have second : g.Rewrites (front ++ next) (front ++ back) :=
    rewritesBack.lift (front ++ ·) fun _ _ replaces => replaces.append_left front
  exact first.trans second

/-- What is left of a derivation yields the word with which the derivation ends. -/
theorem Replaces.yields (replaces : g.Replaces form next) (yields : g.Yields next word) :
    g.Yields form word := by
  cases replaces with
  | mk front back member =>
    rw [yields_iff_reads, reads_append] at yields ⊢
    obtain ⟨left, _, rfl, readsFront, readsRest⟩ := yields
    obtain ⟨middle, right, rfl, readsAlternative, readsBack⟩ := reads_append.mp readsRest
    have derives := derives_iff_reads.mpr ⟨_, member, readsAlternative⟩
    exact ⟨left, _, rfl, readsFront, middle, right, rfl, derives, readsBack⟩

/-- A form yields a word exactly if replacements lead from the form to the word. -/
theorem yields_iff_rewrites : g.Yields form word ↔ g.Rewrites form (word.map .terminal) := by
  constructor
  · intro yields
    induction yields with
    | nil => exact .refl
    | @terminal char rest word _ ih =>
      have kept : g.Rewrites [.terminal char] [.terminal char] := .refl
      exact kept.append ih
    | @nonterminal name alternative rest left right member _ _ ihLeft ihRight =>
      have replaced := Replaces.mk (g := g) [] rest member
      rw [List.map_append]
      exact Relation.ReflTransGen.head replaced (ihLeft.append ihRight)
  · intro rewrites
    induction rewrites using Relation.ReflTransGen.head_induction_on with
    | refl => exact yields_iff_reads.mpr (reads_map_terminal.mpr rfl)
    | head replaces _ ih => exact replaces.yields ih

/-- A form yields some word if all its nonterminals generate something, and only then. -/
theorem exists_yields_iff :
    (∃ word, g.Yields form word) ↔ ∀ name, .nonterminal name ∈ form → g.Generates name := by
  simp only [yields_iff_reads, ← Alternative.mem_names_iff]
  exact ⟨fun ⟨_, reads⟩ name occurs => reads.exists_of_mem_names occurs, exists_reads⟩

/-! ## Nonterminals in forms -/

/-- What holds of the nonterminals of a form, and is handed on to the nonterminals of alternatives,
holds of the nonterminals of all forms that it leads to. -/
theorem Rewrites.of_mem {p : String → Prop} (rewrites : g.Rewrites form last)
    (begins : ∀ name, .nonterminal name ∈ form → p name)
    (handedOn : ∀ origin target, p origin → target ∈ g.referenced origin → p target) :
    ∀ name, .nonterminal name ∈ last → p name := by
  induction rewrites with
  | refl => exact begins
  | tail _ replaces ih =>
    cases replaces with
    | @mk origin alternative front back member =>
      intro name occurs
      rcases List.mem_append.mp occurs with before | occurs
      · exact ih name (List.mem_append_left _ before)
      rcases List.mem_append.mp occurs with inside | behind
      · have refers := mem_referenced_iff.mpr ⟨_, member, Alternative.mem_names_iff.mpr inside⟩
        exact handedOn origin name (ih origin (by simp)) refers
      · exact ih name (List.mem_append_right _ (List.mem_cons_of_mem _ behind))

/-- A nonterminal is reached from another one exactly if it stands in a form that this leads to. -/
theorem reaches_iff_rewrites :
    g.Reaches start name ↔
      ∃ form, g.Rewrites [.nonterminal start] form ∧ .nonterminal name ∈ form := by
  constructor
  · intro reached
    induction reached with
    | refl => exact ⟨_, .refl, List.mem_cons_self⟩
    | tail _ refers ih =>
      obtain ⟨form, rewrites, occurs⟩ := ih
      obtain ⟨alternative, member, inside⟩ := mem_referenced_iff.mp refers
      obtain ⟨front, back, rfl⟩ := List.append_of_mem occurs
      refine ⟨_, rewrites.tail (.mk front back member), ?_⟩
      exact List.mem_append_right _
        (List.mem_append_left _ (Alternative.mem_names_iff.mp inside))
  · rintro ⟨form, rewrites, occurs⟩
    refine rewrites.of_mem (fun other begins => ?_) (fun _ _ => .tail) name occurs
    cases List.mem_singleton.mp begins
    exact .refl

theorem Rewrites.mono {h : Grammar} (rewrites : g.Rewrites form last)
    (included : ∀ name, ∀ alternative ∈ g.alternatives name, alternative ∈ h.alternatives name) :
    h.Rewrites form last := by
  refine Relation.ReflTransGen.mono (fun _ _ replaces => ?_) _ _ rewrites
  cases replaces with
  | mk front back member => exact .mk front back (included _ _ member)

/-! ## Derivations of words -/

/-- The name stands in a form between `start` and a word. -/
def UsedFrom (g : Grammar) (start name : String) : Prop :=
  ∃ (form : Alternative) (word : Word), g.Rewrites [.nonterminal start] form ∧
    .nonterminal name ∈ form ∧ g.Rewrites form (word.map .terminal)

/-- On the way to a form that yields a word, no alternative is taken that could yield none. -/
theorem Rewrites.generative (rewrites : g.Rewrites form last)
    (yields : ∃ word, g.Yields last word) : (g.generative start).Rewrites form last := by
  induction rewrites with
  | refl => exact .refl
  | tail _ replaces ih =>
    obtain ⟨word, yields⟩ := yields
    refine (ih ⟨word, replaces.yields yields⟩).tail ?_
    cases replaces with
    | @mk name alternative front back member =>
      refine .mk front back (mem_alternatives_generative_iff.mpr ⟨member, fun other occurs => ?_⟩)
      apply exists_yields_iff.mp ⟨word, yields⟩
      exact List.mem_append_right _ (List.mem_append_left _ (Alternative.mem_names_iff.mp occurs))

/-- The names between a nonterminal and a word are those that generate something and can be reached
without any others. -/
theorem usedFrom_iff (generates : g.Generates start) :
    g.UsedFrom start name ↔ g.Generates name ∧ (g.generative start).Reaches start name := by
  rw [reaches_iff_rewrites]
  constructor
  · rintro ⟨form, word, rewrites, occurs, toWord⟩
    have yields : ∃ word, g.Yields form word := ⟨word, yields_iff_rewrites.mpr toWord⟩
    exact ⟨exists_yields_iff.mp yields name occurs, form, rewrites.generative yields, occurs⟩
  · rintro ⟨-, form, rewrites, occurs⟩
    have generate : ∀ other, .nonterminal other ∈ form → g.Generates other := by
      refine rewrites.of_mem (fun other begins => ?_) (fun origin target _ refers => ?_)
      · cases List.mem_singleton.mp begins
        exact generates
      · obtain ⟨alternative, member, inside⟩ := mem_referenced_iff.mp refers
        exact (mem_alternatives_generative_iff.mp member).2 target inside
    obtain ⟨word, yields⟩ := exists_yields_iff.mpr generate
    refine ⟨form, word, rewrites.mono ?_, occurs, yields_iff_rewrites.mp yields⟩
    exact fun _ _ member => (mem_alternatives_generative_iff.mp member).1

/-- The generating nonterminals are listed in definition order, and what can be reached is what
stands in a form that the start leads to. Where the start symbol derives a word, pruning keeps in
order what stands in a form on the way from the start symbol to a word, with the alternatives that
lead to words, and what is kept derives what it did. -/
theorem prune_keeps_what_words_need {σ : Type} [RandomSource σ] {start : String}
    {rules : RuleTable (List Alternative)} (accepted : ofRules start rules = .ok g) (source : σ) :
    g.generating = g.nonterminals.filter (g.Generates ·) ∧
      (∀ origin name, name ∈ g.reachable origin ↔
        ∃ form, g.Rewrites [.nonterminal origin] form ∧ .nonterminal name ∈ form) ∧
      (g.Generates g.start → ∃ useful, (g.prune source).useful = useful ∧
        useful.start = g.start ∧ useful.nonterminals.Sublist g.nonterminals ∧
        (∀ name, name ∈ useful.nonterminals ↔ g.UsedFrom g.start name) ∧
        ∀ name ∈ useful.nonterminals,
          useful.alternatives name = ((g.alternatives name).filter fun alternative =>
            (Alternative.names alternative).all (g.Generates ·)) ∧
          ∀ word, useful.Derives name word ↔ g.Derives name word) := by
  have wellFormed : g.WellFormed := (ofRules_eq_ok_iff.mp accepted).2
  refine ⟨g.generating_eq_filter, fun origin name => ?_, fun generates => ?_⟩
  · rw [wellFormed.mem_reachable_iff, reaches_iff_rewrites]
  · refine ⟨g.usefulFrom g.start, (prune_of_generates generates source).1, rfl,
      nonterminals_usefulFrom_sublist g g.start, fun name => ?_, fun name useful => ⟨?_, ?_⟩⟩
    · rw [usedFrom_iff generates, mem_nonterminals_usefulFrom_iff wellFormed generates]
    · rw [alternatives_usefulFrom wellFormed generates useful]
      refine List.filter_congr fun alternative _ => Bool.eq_iff_iff.mpr ?_
      simp [Alternative.within_iff, mem_generating_iff]
    · exact fun word => derives_usefulFrom_iff wellFormed generates useful

/-- `X` derives a word and can be reached, but only through `A`, which derives none. -/
def misleading : Grammar :=
  ⟨"S", ⟨[("S", [[.terminal 'a', .nonterminal "B"], [.nonterminal "A", .terminal 'b']]),
    ("A", [[.nonterminal "A", .nonterminal "X"]]),
    ("B", [[.terminal 'b'], [.nonterminal "A", .nonterminal "B"],
      [.nonterminal "B", .terminal 'c']]),
    ("X", [[.terminal 'c']]), ("Y", [[.nonterminal "B"]])], by decide⟩⟩

theorem prune_keeps_what_words_need_misleading :
    ofRules misleading.start misleading.rules = .ok misleading ∧
      misleading.Generates misleading.start ∧ misleading.generating = ["S", "B", "X", "Y"] ∧
      (misleading.prune (Script.mk [])).useful.nonterminals = ["S", "B"] ∧
      (∃ form, misleading.Rewrites [.nonterminal "S"] form ∧ .nonterminal "X" ∈ form) ∧
      misleading.UsedFrom "S" "B" ∧ ¬ misleading.UsedFrom "S" "X" ∧
      (misleading.prune (Script.mk [])).useful.alternatives "B" =
        [[.terminal 'b'], [.nonterminal "B", .terminal 'c']] ∧
      ∀ word, (misleading.prune (Script.mk [])).useful.Derives "B" word ↔
        misleading.Derives "B" word := by
  have accepted : ofRules misleading.start misleading.rules = .ok misleading := by decide
  have generates : misleading.Generates misleading.start :=
    mem_generating_iff.mp (by decide +kernel)
  have names : (misleading.prune (Script.mk [])).useful.nonterminals = ["S", "B"] := by
    decide +kernel
  obtain ⟨-, reaches, kept⟩ := prune_keeps_what_words_need accepted (Script.mk [])
  obtain ⟨_, rfl, -, -, used, each⟩ := kept generates
  rw [names] at used each
  refine ⟨accepted, generates, by decide +kernel, names, ?_, (used "B").mp (by decide), ?_,
    by decide +kernel, (each "B" (by decide)).2⟩
  · exact (reaches "S" "X").mp (by decide +kernel)
  · exact fun uses => absurd ((used "X").mpr uses) (by decide)

end ContextFree.Grammar
