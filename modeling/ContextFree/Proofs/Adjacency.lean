import ContextFree.Proofs.ConversionUseful
import ContextFree.Proofs.Family

/-!
# Adjacent terminals in the words of a normal form

The adjacency of a normal form has whatever can be seen in its words: the terminals that a word
begins and ends with, and those that follow one another in it. Two neighbours in a word are
parted by a pair of its derivation, whose left side ends with the one and whose right side begins
with the other (`Derives.exists_pair`).

Where all nonterminals are useful the adjacency has nothing else. Whatever can stand next to
a nonterminal does so in a word of the language, since the nonterminal occurs in a derivation from
the start symbol and all that stands around it derives a word (`Occurs`).
-/

namespace ContextFree

namespace NormalForm

variable {c : NormalForm} {name : String} {char : Char} {word rest front back : Word}

/-! ## Terminals at either end of a word -/

theorem Derives.mem_first (derives : c.Derives name word) (begins : word.head? = some char) :
    char ∈ c.first.listOf name := by
  induction derives with
  | terminal member =>
    cases begins
    exact mem_first_iff.mpr (.inl member)
  | pair member left _ ih _ =>
    rw [List.head?_append_of_ne_nil _ left.ne_nil] at begins
    exact mem_first_iff.mpr (.inr ⟨_, _, member, ih begins⟩)

theorem Derives.mem_last (derives : c.Derives name word) (ends : word.getLast? = some char) :
    char ∈ c.last.listOf name := by
  induction derives with
  | terminal member =>
    cases ends
    exact mem_last_iff.mpr (.inl member)
  | pair member _ right _ ih =>
    rw [List.getLast?_append_of_ne_nil _ right.ne_nil] at ends
    exact mem_last_iff.mpr (.inr ⟨_, _, member, ih ends⟩)

section Trim

variable (trim : c.Trim) (wellFormed : c.WellFormed)
include trim wellFormed

theorem Trim.exists_derives_of_mem_first (member : char ∈ c.first.listOf name) :
    ∃ word, c.Derives name word ∧ word.head? = some char := by
  apply edge_induction (motive := fun name char =>
    ∃ word, c.Derives name word ∧ word.head? = some char) ?_ ?_ member
  · exact fun name char own => ⟨[char], .terminal own, rfl⟩
  · intro name left right char listed begins
    obtain ⟨front, derivesLeft, begins⟩ := begins
    obtain ⟨-, -, back, -, -, derivesRight⟩ := trim.exists_produces wellFormed listed
    refine ⟨front ++ back, .pair listed derivesLeft derivesRight, ?_⟩
    rw [List.head?_append_of_ne_nil _ derivesLeft.ne_nil, begins]

theorem Trim.exists_derives_of_mem_last (member : char ∈ c.last.listOf name) :
    ∃ word, c.Derives name word ∧ word.getLast? = some char := by
  apply edge_induction (motive := fun name char =>
    ∃ word, c.Derives name word ∧ word.getLast? = some char) ?_ ?_ member
  · exact fun name char own => ⟨[char], .terminal own, rfl⟩
  · intro name left right char listed ends
    obtain ⟨back, derivesRight, ends⟩ := ends
    obtain ⟨-, front, -, -, derivesLeft, -⟩ := trim.exists_produces wellFormed listed
    refine ⟨front ++ back, .pair listed derivesLeft derivesRight, ?_⟩
    rw [List.getLast?_append_of_ne_nil _ derivesRight.ne_nil, ends]

end Trim

/-! ## Terminals next to each other -/

/-- Two characters next to each other stand in one of two parts, or on either side of the cut. -/
theorem pair_infix_append {x y : Char} (beside : [x, y] <:+: front ++ back) :
    [x, y] <:+: front ∨ [x, y] <:+: back ∨ front.getLast? = some x ∧ back.head? = some y := by
  rcases List.infix_append_iff.mp beside with
    inFront | inBack | ⟨ending, beginning, cut, ends, begins⟩
  · exact .inl inFront
  · exact .inr (.inl inBack)
  · rcases List.cons_eq_append_iff.mp cut with ⟨rfl, rfl⟩ | ⟨tail, rfl, cutBehind⟩
    · exact .inr (.inl begins.isInfix)
    · rcases List.cons_eq_append_iff.mp cutBehind with ⟨rfl, rfl⟩ | ⟨others, rfl, nothing⟩
      · obtain ⟨before, rfl⟩ := ends
        obtain ⟨behind, rfl⟩ := begins
        exact .inr (.inr ⟨by simp, rfl⟩)
      · obtain ⟨rfl, rfl⟩ := List.append_eq_nil_iff.mp nothing.symm
        exact .inl ends.isInfix

/-- Two terminals next to each other in a word are parted by a pair of its derivation. -/
theorem Derives.exists_pair {x y : Char} (derives : c.Derives name word)
    (beside : [x, y] <:+: word) :
    ∃ parent left right front back, .pair left right ∈ c.productions parent ∧
      c.Derives left front ∧ front.getLast? = some x ∧
      c.Derives right back ∧ back.head? = some y := by
  induction derives with
  | terminal =>
    have bound := beside.length_le
    simp at bound
  | @pair name left right front back member derivesLeft derivesRight ihLeft ihRight =>
    rcases pair_infix_append beside with inFront | inBack | ⟨ends, begins⟩
    · exact ihLeft inFront
    · exact ihRight inBack
    · exact ⟨name, left, right, front, back, member, derivesLeft, ends, derivesRight, begins⟩

/-- The nonterminal occurs between the two words in a derivation from the start symbol. -/
inductive Occurs (c : NormalForm) : String → Word → Word → Prop
  | start : Occurs c c.start [] []
  | left {parent left right : String} {front back word : Word} :
      Occurs c parent front back → .pair left right ∈ c.productions parent →
      c.Derives right word → Occurs c left front (word ++ back)
  | right {parent left right : String} {front back word : Word} :
      Occurs c parent front back → .pair left right ∈ c.productions parent →
      c.Derives left word → Occurs c right (front ++ word) back

theorem Occurs.accepts (occurs : c.Occurs name front back) (derives : c.Derives name word) :
    c.Accepts (front ++ word ++ back) := by
  induction occurs generalizing word with
  | start =>
    rw [List.nil_append, List.append_nil]
    exact derives
  | left _ listed derivesRight ih =>
    have accepts := ih (.pair listed derives derivesRight)
    simpa only [List.append_assoc] using accepts
  | right _ listed derivesLeft ih =>
    have accepts := ih (.pair listed derivesLeft derives)
    simpa only [List.append_assoc] using accepts

section Neighbours

variable (trim : c.Trim) (wellFormed : c.WellFormed)
include trim wellFormed

theorem Trim.exists_occurs (defined : name ∈ c.nonterminals) :
    ∃ front back, c.Occurs name front back := by
  have reached := (trim name defined).reached
  clear defined
  induction reached with
  | refl => exact ⟨[], [], .start⟩
  | tail _ step ih =>
    obtain ⟨front, back, occurs⟩ := ih
    obtain ⟨production, listed, side⟩ := step
    cases production with
    | terminal char => cases side
    | pair left right =>
      obtain ⟨-, before, behind, -, derivesLeft, derivesRight⟩ :=
        trim.exists_produces wellFormed listed
      rcases List.mem_cons.mp side with rfl | side
      · exact ⟨_, _, occurs.left listed derivesRight⟩
      · cases List.mem_singleton.mp side
        exact ⟨_, _, occurs.right listed derivesLeft⟩

/-- What can follow a nonterminal does so in a derivation from the start symbol. -/
theorem Trim.exists_occurs_of_mem_follow
    (member : .terminal char ∈ c.follow.listOf name) :
    ∃ front back, c.Occurs name front (char :: back) := by
  -- The end of the word is a neighbour too, but there is nothing to show for it.
  refine wellFormed.beside_induction (motive := fun name neighbour => ∀ char,
    neighbour = .terminal char → ∃ front back, c.Occurs name front (char :: back))
    ?_ ?_ ?_ member char rfl
  · exact fun char equal => nomatch equal
  · rintro parent left right char listed begins _ ⟨⟩
    obtain ⟨word, derives, begins⟩ := trim.exists_derives_of_mem_first wellFormed begins
    obtain ⟨front, back, occurs⟩ :=
      trim.exists_occurs wellFormed (mem_nonterminals_of_mem_productions listed)
    obtain ⟨tail, rfl⟩ := List.head?_eq_some_iff.mp begins
    exact ⟨front, tail ++ back, occurs.left listed derives⟩
  · intro parent left right neighbour listed further char equal
    obtain ⟨front, back, occurs⟩ := further char equal
    obtain ⟨-, before, -, -, derivesLeft, -⟩ := trim.exists_produces wellFormed listed
    exact ⟨front ++ before, back, occurs.right listed derivesLeft⟩

/-- What can precede a nonterminal does so in a derivation from the start symbol. -/
theorem Trim.exists_occurs_of_mem_precede
    (member : .terminal char ∈ c.precede.listOf name) :
    ∃ front back, c.Occurs name (front ++ [char]) back := by
  refine wellFormed.beside_induction (motive := fun name neighbour => ∀ char,
    neighbour = .terminal char → ∃ front back, c.Occurs name (front ++ [char]) back)
    ?_ ?_ ?_ member char rfl
  · exact fun char equal => nomatch equal
  · rintro parent left right char listed ends _ ⟨⟩
    obtain ⟨word, derives, ends⟩ := trim.exists_derives_of_mem_last wellFormed ends
    obtain ⟨front, back, occurs⟩ :=
      trim.exists_occurs wellFormed (mem_nonterminals_of_mem_productions listed)
    obtain ⟨rest, rfl⟩ := List.getLast?_eq_some_iff.mp ends
    refine ⟨front ++ rest, back, ?_⟩
    rw [List.append_assoc]
    exact occurs.right listed derives
  · intro parent left right neighbour listed further char equal
    obtain ⟨front, back, occurs⟩ := further char equal
    obtain ⟨-, -, behind, -, -, derivesRight⟩ := trim.exists_produces wellFormed listed
    exact ⟨front, behind ++ back, occurs.left listed derivesRight⟩

end Neighbours

end NormalForm

theorem Neighbour.mem_filterMap_char?_iff {neighbours : List Neighbour} {char : Char} :
    char ∈ neighbours.filterMap Neighbour.char? ↔ .terminal char ∈ neighbours := by
  rw [List.mem_filterMap]
  constructor
  · rintro ⟨neighbour, member, spelled⟩
    cases neighbour with
    | beginning => cases spelled
    | terminal other =>
      cases spelled
      exact member
    | ending => cases spelled
  · intro member
    exact ⟨_, member, rfl⟩

theorem lookup_map_key {β : Type} (value : Char → β) (keys : List Char) (key : Char) :
    (keys.map fun key => (key, value key)).lookup key =
      if key ∈ keys then some (value key) else none := by
  induction keys with
  | nil => rfl
  | cons first rest ih =>
    rw [List.map_cons, List.lookup_cons, ih]
    by_cases equal : key = first
    · subst equal
      simp
    · have different : (key == first) = false := by simpa using equal
      simp [different, equal]

namespace Adjacency

open Grammar (overgrown)

variable {c : NormalForm} {x y : Char}

/-- Two terminals are adjacent when one ends a nonterminal and the other can follow it, or one can
precede a nonterminal and the other begins it. -/
theorem mem_successorsOf_iff (wellFormed : c.WellFormed) :
    y ∈ (ofNormalForm c).successorsOf x ↔ ∃ name ∈ c.nonterminals,
      (x ∈ c.last.listOf name ∧ .terminal y ∈ c.follow.listOf name) ∨
        (.terminal x ∈ c.precede.listOf name ∧ y ∈ c.first.listOf name) := by
  rw [successorsOf, ofNormalForm, lookup_map_key]
  by_cases known : x ∈ c.terminals
  · rw [if_pos known, Option.getD_some, Alphabet.mem_ofChars, List.mem_flatMap]
    refine exists_congr fun name => and_congr_right fun _ => ?_
    simp only [List.mem_append, List.mem_ite_nil_right, List.contains_iff_mem,
      Neighbour.mem_filterMap_char?_iff]
  · rw [if_neg known]
    refine iff_of_false List.not_mem_nil ?_
    rintro ⟨name, -, ⟨ends, -⟩ | ⟨precedes, -⟩⟩
    · exact known (NormalForm.mem_terminals_of_mem_edge ends)
    · exact known (wellFormed.mem_terminals_of_mem_beside precedes)

theorem mem_initial_iff : x ∈ (ofNormalForm c).initial ↔ x ∈ c.first.listOf c.start :=
  Alphabet.mem_ofChars

theorem mem_finals_iff : x ∈ (ofNormalForm c).finals ↔ x ∈ c.last.listOf c.start :=
  Alphabet.mem_ofChars

/-! ## The adjacency of a language -/

/-- The adjacency has all that can be seen in the words of the normal form. -/
structure Covers (adjacency : Adjacency) (c : NormalForm) : Prop where
  successors : ∀ word, c.Accepts word → ∀ x y, [x, y] <:+: word → y ∈ adjacency.successorsOf x
  initial : ∀ word, c.Accepts word → ∀ x, word.head? = some x → x ∈ adjacency.initial
  finals : ∀ word, c.Accepts word → ∀ x, word.getLast? = some x → x ∈ adjacency.finals

/-- The adjacency has just what can be seen in the words of the normal form. -/
structure Exact (adjacency : Adjacency) (c : NormalForm) : Prop where
  successors : ∀ x y, y ∈ adjacency.successorsOf x ↔ ∃ word, c.Accepts word ∧ [x, y] <:+: word
  initial : ∀ x, x ∈ adjacency.initial ↔ ∃ word, c.Accepts word ∧ word.head? = some x
  finals : ∀ x, x ∈ adjacency.finals ↔ ∃ word, c.Accepts word ∧ word.getLast? = some x

theorem covers_ofNormalForm (wellFormed : c.WellFormed) : (ofNormalForm c).Covers c where
  successors := by
    intro word accepts x y beside
    obtain ⟨parent, left, right, front, back, listed, derivesLeft, ends, derivesRight, begins⟩ :=
      accepts.exists_pair beside
    -- One of the two ways to be adjacent is enough here: the pair that parts the terminals has
    -- the one at the end of its left side and the other at the beginning of its right side.
    have follows : .terminal y ∈ c.follow.listOf left :=
      (wellFormed.isLeast_beside .right).1.inner parent left right listed y
        (derivesRight.mem_first begins)
    exact (mem_successorsOf_iff wellFormed).mpr ⟨left, derivesLeft.mem_nonterminals,
      .inl ⟨derivesLeft.mem_last ends, follows⟩⟩
  initial word accepts x begins := mem_initial_iff.mpr (accepts.mem_first begins)
  finals word accepts x ends := mem_finals_iff.mpr (accepts.mem_last ends)

/-- A terminal that follows another one is found behind it in a word: the nonterminal that parts
them derives a word with the one at its end and occurs next to the other, or the other way
round. -/
theorem exists_accepts_of_mem_successorsOf (trim : c.Trim) (wellFormed : c.WellFormed)
    (member : y ∈ (ofNormalForm c).successorsOf x) :
    ∃ word, c.Accepts word ∧ [x, y] <:+: word := by
  obtain ⟨name, -, ⟨ends, follows⟩ | ⟨precedes, begins⟩⟩ :=
    (mem_successorsOf_iff wellFormed).mp member
  · obtain ⟨word, derives, ends⟩ := trim.exists_derives_of_mem_last wellFormed ends
    obtain ⟨rest, rfl⟩ := List.getLast?_eq_some_iff.mp ends
    obtain ⟨front, back, occurs⟩ := trim.exists_occurs_of_mem_follow wellFormed follows
    exact ⟨_, occurs.accepts derives, front ++ rest, back, by simp⟩
  · obtain ⟨word, derives, begins⟩ := trim.exists_derives_of_mem_first wellFormed begins
    obtain ⟨rest, rfl⟩ := List.head?_eq_some_iff.mp begins
    obtain ⟨front, back, occurs⟩ := trim.exists_occurs_of_mem_precede wellFormed precedes
    exact ⟨_, occurs.accepts derives, front, rest ++ back, by simp⟩

theorem exact_ofNormalForm (trim : c.Trim) (wellFormed : c.WellFormed) :
    (ofNormalForm c).Exact c where
  successors x y :=
    ⟨exists_accepts_of_mem_successorsOf trim wellFormed, fun ⟨word, accepts, beside⟩ =>
      (covers_ofNormalForm wellFormed).successors word accepts x y beside⟩
  initial x :=
    ⟨fun member => trim.exists_derives_of_mem_first wellFormed (mem_initial_iff.mp member),
      fun ⟨word, accepts, begins⟩ =>
        (covers_ofNormalForm wellFormed).initial word accepts x begins⟩
  finals x :=
    ⟨fun member => trim.exists_derives_of_mem_last wellFormed (mem_finals_iff.mp member),
      fun ⟨word, accepts, ends⟩ => (covers_ofNormalForm wellFormed).finals word accepts x ends⟩

/-- The adjacency of a normal form has all that can be seen in its words, and just that where all
nonterminals are useful, as they are in the conversion of any grammar that has words. -/
theorem adjacency_exact_of_useful :
    (∀ start rules c, NormalForm.ofRules start rules = .ok c →
      (ofNormalForm c).Covers c ∧ (c.Trim → (ofNormalForm c).Exact c)) ∧
    (∀ start rules g, Grammar.ofRules start rules = .ok g →
      ∀ (σ : Type) [RandomSource σ] (source : σ),
        (g.convert source).normalForm.isEmptyLanguage = false →
          (ofNormalForm (g.convert source).normalForm).Exact (g.convert source).normalForm) := by
  constructor
  · intro start rules c accepted
    have wellFormed := (NormalForm.ofRules_eq_ok_iff.mp accepted).2
    exact ⟨covers_ofNormalForm wellFormed, fun trim => exact_ofNormalForm trim wellFormed⟩
  · intro start rules g accepted σ _ source inhabited
    have wellFormed := Grammar.wellFormed_of_ofRules accepted
    obtain ⟨production, member⟩ :=
      List.exists_mem_of_ne_nil _ (List.isEmpty_eq_false_iff.mp inhabited)
    obtain ⟨name, generates⟩ := wellFormed.exists_generates_of_mem_convert member
    exact exact_ofNormalForm (wellFormed.trim_convert generates source)
      (wellFormed.wellFormed_convert source)

theorem adjacency_exact_of_useful_overgrown :
    Grammar.ofRules overgrown.start overgrown.rules = .ok overgrown ∧
      ∃ c, (overgrown.convert (Script.mk [])).normalForm = c ∧
        NormalForm.ofRules c.start c.rules = .ok c ∧ c.Trim ∧ c.isEmptyLanguage = false ∧
        (ofNormalForm c).successors = [('a', ['a', 'c']), ('b', ['a', 'c']), ('c', ['b'])] ∧
        (∃ word, c.Accepts word ∧ ['c', 'b'] <:+: word) ∧
        ¬ ∃ word, c.Accepts word ∧ ['a', 'b'] <:+: word := by
  have accepted : Grammar.ofRules overgrown.start overgrown.rules = .ok overgrown := by decide
  have generates : overgrown.Generates overgrown.start := by decide
  have wellFormed := Grammar.wellFormed_of_ofRules accepted
  have trim := wellFormed.trim_convert generates (Script.mk [])
  have again := NormalForm.ofRules_eq_ok_iff.mpr
    ⟨rfl, wellFormed.wellFormed_convert (Script.mk [])⟩
  have inhabited : (overgrown.convert (Script.mk [])).normalForm.isEmptyLanguage = false := by
    decide +kernel
  have useful := (adjacency_exact_of_useful.1 _ _ _ again).2 trim
  have converted := adjacency_exact_of_useful.2 _ _ _ accepted Script (Script.mk []) inhabited
  refine ⟨accepted, _, rfl, again, trim, inhabited, by decide +kernel, ?_, ?_⟩
  · exact (useful.successors 'c' 'b').mp (by decide +kernel)
  · rw [← converted.successors 'a' 'b']
    decide +kernel

end Adjacency

end ContextFree
