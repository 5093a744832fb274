import ContextFree.Proofs.NormalForm
import ContextFree.Words.Adjacency
import Mathlib.Data.List.ProdSigma

/-!
# Families saturated by scans

Scans over the productions of a normal form are repeated until one of them does not make any list
grow. `Saturates` is this repetition, which nothing bounds. It ends with a family that has what it
began with and keeps what the productions pass on (`Saturates.closed`), and has nothing that could
be done without (`Saturates.all`). During a scan the family depends on the order of the productions;
these two facts do not.

It does end when only finitely many items can be passed on, and only to nonterminals of the normal
form: every scan but the last one fills a place that was free (`exists_saturates`).
-/

namespace ContextFree

variable {α : Type}

namespace Family

theorem listOf_insert (family : Family α) (name : String) (items : List α) (other : String) :
    Family.listOf (family.insert name items) other =
      if other = name then items else family.listOf other := by
  rw [listOf, RuleTable.get?_insert]
  split <;> rfl

/-- Whatever a nonterminal has in the family, `p` holds of the two. -/
def All (p : String → α → Prop) (family : Family α) : Prop :=
  ∀ name, ∀ item ∈ family.listOf name, p name item

theorem all_empty (p : String → α → Prop) : All p .empty := by
  intro name item member
  cases member

theorem mem_listOf_single {name other : String} {item single : α} :
    item ∈ Family.listOf (RuleTable.empty.insert name [single]) other ↔
      other = name ∧ item = single := by
  rw [listOf_insert]
  split
  · rename_i equal
    simp [equal]
  · rename_i different
    exact iff_of_false List.not_mem_nil fun both => different both.1

theorem all_single {p : String → α → Prop} {name : String} {single : α} (holds : p name single) :
    All p (RuleTable.empty.insert name [single]) := by
  intro other item member
  obtain ⟨rfl, rfl⟩ := mem_listOf_single.mp member
  exact holds

end Family

variable [BEq α] [LawfulBEq α]

/-! ## One scan -/

namespace Scan

variable {scan : Scan α} {share : String × List α} {family : Family α} {p : String → α → Prop}

theorem mem_lacking_iff {item : α} :
    item ∈ scan.lacking share ↔ item ∈ share.2 ∧ item ∉ scan.family.listOf share.1 := by
  simp [lacking]

theorem receive_of_subset (had : share.2 ⊆ scan.family.listOf share.1) :
    scan.receive share = scan := by
  have nothing : scan.lacking share = [] := by
    refine List.eq_nil_iff_forall_not_mem.mpr fun item lacked => ?_
    obtain ⟨passed, unknown⟩ := mem_lacking_iff.mp lacked
    exact unknown (had passed)
  rw [receive, nothing]

theorem receive_of_not_subset (lacked : ¬ share.2 ⊆ scan.family.listOf share.1) :
    scan.lacking share ≠ [] ∧ scan.receive share =
      ⟨scan.family.insert share.1 (scan.family.listOf share.1 ++ scan.lacking share), true⟩ := by
  have nonempty : scan.lacking share ≠ [] := by
    intro nothing
    refine lacked fun item passed => Classical.byContradiction fun unknown => ?_
    have member := mem_lacking_iff.mpr ⟨passed, unknown⟩
    rw [nothing] at member
    cases member
  refine ⟨nonempty, ?_⟩
  unfold receive
  split
  · contradiction
  · rfl

omit [BEq α] [LawfulBEq α] in
/-- Steps that leave the scan alone unless it grows have left it alone if it has not grown. -/
theorem foldl_of_still {β : Type} {step : Scan α → β → Scan α} {q : Scan α → β → Prop}
    (still : ∀ scan part, (step scan part).grown = false → step scan part = scan ∧ q scan part)
    (parts : List β) (scan : Scan α) (ended : (parts.foldl step scan).grown = false) :
    parts.foldl step scan = scan ∧ ∀ part ∈ parts, q scan part := by
  induction parts generalizing scan with
  | nil => exact ⟨rfl, by simp⟩
  | cons part rest ih =>
    rw [List.foldl_cons] at ended ⊢
    obtain ⟨same, others⟩ := ih (step scan part) ended
    rw [same] at ended
    obtain ⟨unchanged, first⟩ := still scan part ended
    rw [unchanged] at same others
    exact ⟨unchanged.symm ▸ same, List.forall_mem_cons.mpr ⟨first, others⟩⟩

/-- How a scan stands to the family that it began with: nothing is lost, `p` holds of all that
nonterminals have, and if the family has grown some nonterminal has something new. -/
structure Extends (p : String → α → Prop) (family : Family α) (scan : Scan α) : Prop where
  keeps : ∀ name, family.listOf name ⊆ scan.family.listOf name
  all : scan.family.All p
  added : scan.grown = true → ∃ name, ∃ item ∈ scan.family.listOf name, item ∉ family.listOf name

omit [BEq α] [LawfulBEq α] in
theorem extends_start (all : family.All p) : Extends p family ⟨family, false⟩ where
  keeps _ := List.Subset.refl _
  all := all
  added grown := nomatch grown

theorem Extends.receive (before : Extends p family scan)
    (suitable : ∀ item ∈ share.2, p share.1 item) : Extends p family (scan.receive share) := by
  by_cases had : share.2 ⊆ scan.family.listOf share.1
  · rw [receive_of_subset had]
    exact before
  · obtain ⟨nonempty, received⟩ := receive_of_not_subset had
    rw [received]
    refine ⟨fun name item member => ?_, fun name item member => ?_, fun _ => ?_⟩
    · rw [Family.listOf_insert]
      by_cases receiver : name = share.1
      · subst receiver
        rw [if_pos rfl]
        exact List.mem_append_left _ (before.keeps _ member)
      · rw [if_neg receiver]
        exact before.keeps name member
    · rw [Family.listOf_insert] at member
      by_cases receiver : name = share.1
      · subst receiver
        rw [if_pos rfl] at member
        rcases List.mem_append.mp member with old | added
        · exact before.all _ item old
        · exact suitable item (mem_lacking_iff.mp added).1
      · rw [if_neg receiver] at member
        exact before.all name item member
    · obtain ⟨item, added⟩ := List.exists_mem_of_ne_nil _ nonempty
      refine ⟨share.1, item, ?_, fun old => (mem_lacking_iff.mp added).2 (before.keeps _ old)⟩
      rw [Family.listOf_insert, if_pos rfl]
      exact List.mem_append_right _ added

end Scan

namespace NormalForm

variable {c : NormalForm} {flow : Flow α} {family result : Family α} {p : String → α → Prop}

omit [BEq α] [LawfulBEq α] in
theorem mem_listing_iff {name : String} {production : Production} :
    (name, production) ∈ c.listing ↔ production ∈ c.productions name := by
  simp only [listing, mem_productions_iff, List.mem_flatMap, List.mem_map, Prod.mk.injEq]
  constructor
  · rintro ⟨⟨lhs, productions⟩, filed, other, listed, rfl, rfl⟩
    exact ⟨productions, filed, listed⟩
  · rintro ⟨productions, filed, listed⟩
    exact ⟨_, filed, production, listed, rfl, rfl⟩

/-- Nonterminals have all that the productions pass on to them. -/
def Closed (c : NormalForm) (flow : Flow α) (family : Family α) : Prop :=
  ∀ name, ∀ production ∈ c.productions name, ∀ share ∈ flow name production family,
    share.2 ⊆ family.listOf share.1

/-- As long as `p` holds of all that nonterminals have, it holds of what is passed on to them. -/
def Passes (c : NormalForm) (flow : Flow α) (p : String → α → Prop) : Prop :=
  ∀ family : Family α, family.All p → ∀ name, ∀ production ∈ c.productions name,
    ∀ share ∈ flow name production family, ∀ item ∈ share.2, p share.1 item

theorem extends_scan (passes : c.Passes flow p) (all : family.All p) :
    (c.scan flow family).Extends p family := by
  refine List.foldlRecOn _ _ (Scan.extends_start all) fun scan before production listed => ?_
  have suitable := passes scan.family before.all _ _ (mem_listing_iff.mp listed)
  exact List.foldlRecOn _ _ before fun scan before share passed =>
    before.receive (suitable share passed)

/-- A scan that has not grown has left the family alone, which is closed already. -/
theorem closed_of_scan (still : (c.scan flow family).grown = false) :
    (c.scan flow family).family = family ∧ c.Closed flow family := by
  have receives : ∀ (scan : Scan α) share, (scan.receive share).grown = false →
      scan.receive share = scan ∧ share.2 ⊆ scan.family.listOf share.1 := by
    intro scan share still
    by_cases had : share.2 ⊆ scan.family.listOf share.1
    · exact ⟨Scan.receive_of_subset had, had⟩
    · rw [(Scan.receive_of_not_subset had).2] at still
      cases still
  have passes : ∀ (scan : Scan α) production, (scan.pass flow production).grown = false →
      scan.pass flow production = scan ∧ ∀ share ∈ flow production.1 production.2 scan.family,
        share.2 ⊆ scan.family.listOf share.1 :=
    fun scan _ still => Scan.foldl_of_still receives _ scan still
  obtain ⟨same, closed⟩ := Scan.foldl_of_still passes c.listing _ still
  refine ⟨congrArg Scan.family same, fun name production member => ?_⟩
  exact closed (name, production) (mem_listing_iff.mpr member)

/-! ## Scan after scan -/

/-- After so many scans, the last of which does not make the one family grow, it is the other. -/
inductive Saturates (c : NormalForm) (flow : Flow α) : Nat → Family α → Family α → Prop
  | done {family : Family α} : (c.scan flow family).grown = false →
      Saturates c flow 1 family (c.scan flow family).family
  | again {scans : Nat} {family result : Family α} : (c.scan flow family).grown = true →
      Saturates c flow scans (c.scan flow family).family result →
      Saturates c flow (scans + 1) family result

namespace Saturates

variable {scans : Nat}

theorem closed (saturates : c.Saturates flow scans family result) : c.Closed flow result := by
  induction saturates with
  | done still =>
    obtain ⟨same, closed⟩ := closed_of_scan still
    rwa [same]
  | again _ _ ih => exact ih

theorem subset (saturates : c.Saturates flow scans family result) (name : String) :
    family.listOf name ⊆ result.listOf name := by
  have grows : ∀ family : Family α, family.listOf name ⊆ (c.scan flow family).family.listOf name :=
    fun family => (extends_scan (p := fun _ _ => True) (fun _ _ _ _ _ _ _ _ _ => trivial)
      (fun _ _ _ => trivial)).keeps name
  induction saturates with
  | done _ => exact grows _
  | again _ _ ih => exact List.Subset.trans (grows _) ih

/-- What holds of all that nonterminals begin with, and of what is passed on, holds in the end. -/
theorem all (saturates : c.Saturates flow scans family result) (passes : c.Passes flow p)
    (start : family.All p) : result.All p := by
  induction saturates with
  | done _ => exact (extends_scan passes start).all
  | again _ _ ih => exact ih (extends_scan passes start).all

end Saturates

/-! ## The end of the scans -/

/-- A nonterminal of the normal form, and an item of a list. -/
def Within (c : NormalForm) (range : List α) (name : String) (item : α) : Prop :=
  name ∈ c.nonterminals ∧ item ∈ range

/-- The places that are still free: the nonterminals, each with the items that it does not have. -/
def free (c : NormalForm) (range : List α) (family : Family α) : List (String × α) :=
  (c.nonterminals ×ˢ range).filter fun place => !(family.listOf place.1).contains place.2

variable {range : List α}

omit [LawfulBEq α] in
theorem length_free_le (c : NormalForm) (range : List α) (family : Family α) :
    (c.free range family).length ≤ c.rules.size * range.length := by
  refine Nat.le_trans (List.length_filter_le _ _) (Nat.le_of_eq ?_)
  simp [List.length_product, nonterminals, RuleTable.names, RuleTable.size]

/-- A scan that has grown has filled a free place. -/
theorem length_free_lt {scan : Scan α} (after : scan.Extends (c.Within range) family)
    (grown : scan.grown = true) :
    (c.free range scan.family).length < (c.free range family).length := by
  have left : c.free range scan.family =
      (c.free range family).filter fun place => !(scan.family.listOf place.1).contains place.2 := by
    rw [free, free, List.filter_filter]
    refine List.filter_congr fun place _ => ?_
    have kept := after.keeps place.1 (a := place.2)
    by_cases had : place.2 ∈ family.listOf place.1
    · simp [had, kept had]
    · simp [had]
  obtain ⟨name, item, member, new⟩ := after.added grown
  rw [left, List.length_filter_lt_length_iff_exists]
  refine ⟨(name, item), ?_, by simpa using member⟩
  simpa [free, new, Within] using after.all name item member

/-- Scans come to an end when what is passed on stays within the nonterminals and a list of items,
and a bound that is greater than the number of free places does not cut them off. -/
theorem exists_saturates (passes : c.Passes flow (c.Within range))
    (all : family.All (c.Within range)) {rounds : Nat}
    (enough : (c.free range family).length < rounds) :
    ∃ scans ≤ (c.free range family).length + 1,
      c.Saturates flow scans family (c.saturate flow rounds family) := by
  induction rounds generalizing family with
  | zero => exact absurd enough (Nat.not_lt_zero _)
  | succ rounds ih =>
    rw [saturate]
    cases grown : (c.scan flow family).grown with
    | false => exact ⟨1, Nat.le_add_left 1 _, .done grown⟩
    | true =>
      have after := extends_scan passes all
      have fewer := length_free_lt after grown
      obtain ⟨scans, bound, saturates⟩ := ih after.all (by omega)
      exact ⟨scans + 1, by omega, .again grown saturates⟩

end NormalForm

end ContextFree
