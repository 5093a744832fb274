import ContextFree.Grammar.Useful
import ContextFree.Proofs.Derivation
import Mathlib.Data.List.Basic

/-!
# The generating nonterminals

The rounds that collect generating nonterminals reach their fixed point, and the nonterminals
in it are exactly those that derive a word, in definition order. So whether a nonterminal
generates anything can be decided.

A round keeps what is known, in order, and adds to it. As long as it adds something the list
grows, and it cannot outgrow the list of all nonterminals.

A round goes by what the round before it has found. A scan that goes by what it has found itself so
far takes the nonterminals up in another order and may be over earlier. It ends with the same ones
(`TakenUp.filter_eq_generating`): whatever the order, nothing is taken up that does not derive
a word, and as long as something is missing something can be taken up.
-/

namespace ContextFree.Grammar

variable {g : Grammar} {name : String} {known : List String}

theorem generatingOver_eq_filter (g : Grammar) (known : List String) :
    g.generatingOver known =
      g.nonterminals.filter fun name => (g.alternatives name).any (Alternative.within known) := by
  rw [generatingOver, nonterminals, RuleTable.names, List.filter_map]
  congr 1
  refine List.filter_congr fun entry filed => ?_
  rw [Function.comp_apply, alternatives_eq_of_mem_entries filed]

theorem mem_generatingOver_iff :
    name ∈ g.generatingOver known ↔ ∃ alternative ∈ g.alternatives name,
      ∀ other ∈ Alternative.names alternative, other ∈ known := by
  rw [generatingOver_eq_filter, List.mem_filter, List.any_eq_true]
  simp only [Alternative.within_iff]
  constructor
  · rintro ⟨-, found⟩
    exact found
  · intro found
    rcases found with ⟨alternative, member, within⟩
    exact ⟨mem_nonterminals_of_mem_alternatives member, alternative, member, within⟩

theorem generatingOver_sublist (g : Grammar) (known : List String) :
    (g.generatingOver known).Sublist g.nonterminals := by
  rw [generatingOver_eq_filter]
  exact List.filter_sublist

/-- Whoever knows more finds more, in the same order. -/
theorem generatingOver_mono {more : List String} (included : known ⊆ more) :
    (g.generatingOver known).Sublist (g.generatingOver more) := by
  rw [generatingOver_eq_filter, generatingOver_eq_filter]
  refine List.monotone_filter_right _ fun name found => ?_
  obtain ⟨alternative, member, within⟩ := List.any_eq_true.mp found
  refine List.any_eq_true.mpr ⟨alternative, member, ?_⟩
  rw [Alternative.within_iff] at within ⊢
  exact fun other occurs => included (within other occurs)

/-- After one round for each nonterminal another one finds nothing new. -/
theorem generatingOver_generatingAfter {rounds : Nat}
    (growing : known.Sublist (g.generatingOver known))
    (enough : g.rules.size ≤ rounds + known.length) :
    g.generatingOver (g.generatingAfter rounds known) = g.generatingAfter rounds known := by
  induction rounds generalizing known with
  | zero =>
    -- All nonterminals are known by then, and a round lists no others.
    have bound := (g.generatingOver_sublist known).length_le
    have total : g.nonterminals.length = g.rules.size := by
      simp [nonterminals, RuleTable.names, RuleTable.size]
    exact (growing.eq_of_length_le (by omega)).symm
  | succ rounds ih =>
    rw [generatingAfter]
    by_cases settled : g.generatingOver known = known
    · rw [if_pos settled, settled]
    · rw [if_neg settled]
      have longer : known.length < (g.generatingOver known).length := by
        apply Nat.lt_of_not_le
        intro bound
        exact settled (growing.eq_of_length_le bound).symm
      exact ih (generatingOver_mono growing.subset) (by omega)

theorem generates_of_mem_generatingOver (sound : ∀ name ∈ known, g.Generates name) :
    ∀ name ∈ g.generatingOver known, g.Generates name := by
  intro name found
  obtain ⟨alternative, member, within⟩ := mem_generatingOver_iff.mp found
  exact generates_iff.mpr ⟨alternative, member, fun other occurs =>
    sound other (within other occurs)⟩

theorem generates_of_mem_generatingAfter {rounds : Nat}
    (sound : ∀ name ∈ known, g.Generates name) :
    ∀ name ∈ g.generatingAfter rounds known, g.Generates name := by
  induction rounds generalizing known with
  | zero => exact sound
  | succ rounds ih =>
    rw [generatingAfter]
    split
    · exact sound
    · exact ih (generates_of_mem_generatingOver sound)

/-- Where a round finds nothing new, nothing is missing. -/
theorem mem_of_generates (complete : g.generatingOver known ⊆ known)
    (generates : g.Generates name) : name ∈ known := by
  obtain ⟨word, derives⟩ := generates
  refine derives.of_closed (fun name _ => name ∈ known) ?_
  intro name alternative member word reads
  refine complete (mem_generatingOver_iff.mpr ⟨alternative, member, fun other occurs => ?_⟩)
  obtain ⟨-, found⟩ := reads.exists_of_mem_names occurs
  exact found

theorem generatingOver_generating (g : Grammar) : g.generatingOver g.generating = g.generating :=
  generatingOver_generatingAfter (List.nil_sublist _) (Nat.le_add_right _ _)

/-- The collected nonterminals are exactly those that derive a word. -/
theorem mem_generating_iff : name ∈ g.generating ↔ g.Generates name := by
  constructor
  · refine generates_of_mem_generatingAfter (fun name member => ?_) name
    cases member
  · refine mem_of_generates fun name found => ?_
    rwa [generatingOver_generating] at found

instance (g : Grammar) (name : String) : Decidable (g.Generates name) :=
  decidable_of_iff _ mem_generating_iff

/-- The collected nonterminals stand in definition order. -/
theorem generating_eq_filter (g : Grammar) :
    g.generating = g.nonterminals.filter (g.Generates ·) := by
  rw [← generatingOver_generating, generatingOver_eq_filter]
  refine List.filter_congr fun name _ => Bool.eq_iff_iff.mpr ?_
  rw [decide_eq_true_iff, generates_iff, List.any_eq_true]
  simp only [Alternative.within_iff, mem_generating_iff]

theorem Generates.mem_nonterminals (generates : g.Generates name) : name ∈ g.nonterminals := by
  obtain ⟨word, derives⟩ := generates
  exact derives.mem_nonterminals

theorem generating_eq_nil_iff : g.generating = [] ↔ ∀ name, ¬ g.Generates name := by
  simp only [List.eq_nil_iff_forall_not_mem, mem_generating_iff]

/-! ## Other orders -/

/-- The nonterminals have been taken up one at a time, the last one standing first, and each when it
had an alternative that needed none but those before it. -/
inductive TakenUp (g : Grammar) : List String → Prop
  | nil : TakenUp g []
  | cons {name : String} {known : List String} :
      name ∈ g.generatingOver known → TakenUp g known → TakenUp g (name :: known)

theorem TakenUp.generates (taken : g.TakenUp known) : ∀ name ∈ known, g.Generates name := by
  induction taken with
  | nil => simp
  | cons found _ ih =>
    exact List.forall_mem_cons.mpr ⟨generates_of_mem_generatingOver ih _ found, ih⟩

/-- In whatever order nonterminals are taken up, once there is none left they are the collected
ones. -/
theorem TakenUp.filter_eq_generating (taken : g.TakenUp known)
    (complete : g.generatingOver known ⊆ known) :
    g.nonterminals.filter known.contains = g.generating := by
  rw [generating_eq_filter]
  refine List.filter_congr fun name _ => ?_
  rw [Bool.eq_iff_iff, List.contains_iff_mem, decide_eq_true_iff]
  exact ⟨taken.generates name, mem_of_generates complete⟩

end ContextFree.Grammar
