import ContextFree.Proofs.NormalForm
import ContextFree.Recognizer

/-!
# The table of a recognizer

The cell for a length and an offset holds exactly the nonterminals that derive this part of the
word (`table_filled`). The table is filled row by row: the first row holds the nonterminals with
a production for the single character, and a cell of any other row combines the cells of
smaller lengths for all ways to cut the part in two. Hence the recognizer decides the language
of the normal form, and its two early exits reject nothing that can be derived
(`recognise_eq_true_iff`).
-/

namespace ContextFree

namespace RuleTable

theorem exists_indexOf? {α : Type} {table : RuleTable α} {name : String}
    (defined : name ∈ table.names) : ∃ place, table.indexOf? name = some place := by
  obtain ⟨place, found⟩ := List.mem_iff_getElem?.mp defined
  exact ⟨place, indexOf?_eq_some_iff.mpr found⟩

theorem eq_of_indexOf?_eq {α : Type} {table : RuleTable α} {name other : String} {place : Nat}
    (found : table.indexOf? name = some place) (again : table.indexOf? other = some place) :
    name = other := by
  rw [indexOf?_eq_some_iff] at found again
  exact Option.some.inj (found.symm.trans again)

end RuleTable

namespace Recognizer

variable {c : NormalForm} {place : Nat} {char : Char} {word : Word}

/-! ## The productions, arranged for look-up -/

/-- A production stands at the place of its nonterminal. -/
theorem mem_placed_iff {production : Production} :
    (place, production) ∈ placed c ↔
      ∃ name, c.rules.indexOf? name = some place ∧ production ∈ c.productions name := by
  have named : ∀ productions, c.rules.values[place]? = some productions ↔
      ∃ name, c.rules.entries[place]? = some (name, productions) := by
    intro productions
    simp [RuleTable.values]
  simp only [placed, List.mem_flatMap, List.mem_map, Prod.mk.injEq, Prod.exists,
    List.mk_mem_zipIdx_iff_getElem?]
  constructor
  · intro listed
    rcases listed with ⟨productions, _, found, _, member, rfl, rfl⟩
    obtain ⟨name, entry⟩ := (named productions).mp found
    refine ⟨name, RuleTable.indexOf?_eq_some_iff.mpr ?_, ?_⟩
    · rw [RuleTable.names, List.getElem?_map, entry, Option.map_some]
    · rw [NormalForm.productions_eq_of_mem_entries (List.mem_of_getElem? entry)]
      exact member
  · intro listed
    rcases listed with ⟨name, found, member⟩
    rw [RuleTable.indexOf?_eq_some_iff, RuleTable.names, List.getElem?_map,
      Option.map_eq_some_iff] at found
    obtain ⟨⟨_, productions⟩, entry, rfl⟩ := found
    rw [NormalForm.productions_eq_of_mem_entries (List.mem_of_getElem? entry)] at member
    exact ⟨productions, place, (named productions).mpr ⟨_, entry⟩, production, member, rfl, rfl⟩

theorem mem_charCell_iff :
    place ∈ (ofNormalForm c).charCell char ↔
      ∃ name, c.rules.indexOf? name = some place ∧ .terminal char ∈ c.productions name := by
  rw [← mem_placed_iff, charCell, List.mem_eraseDups, List.mem_map]
  simp only [ofNormalForm, List.mem_filter, List.mem_filterMap, beq_iff_eq, Prod.exists]
  constructor
  · intro listed
    rcases listed with ⟨_, _, ⟨⟨other, production, member, unary⟩, rfl⟩, rfl⟩
    cases production with
    | terminal spelled =>
      cases unary
      exact member
    | pair left right => cases unary
  · intro member
    exact ⟨char, place, ⟨⟨place, _, member, rfl⟩, rfl⟩, rfl⟩

theorem binaryOf_eq_some_iff {production : Production} {left right other : Nat} :
    binaryOf c (place, production) = some (left, right, other) ↔
      place = other ∧ ∃ first second, production = .pair first second ∧
        c.rules.indexOf? first = some left ∧ c.rules.indexOf? second = some right := by
  cases production with
  | terminal char => simp [binaryOf]
  | pair first second =>
    cases foundFirst : c.rules.indexOf? first with
    | none => simp [binaryOf, foundFirst]
    | some placeFirst =>
      cases foundSecond : c.rules.indexOf? second with
      | none => simp [binaryOf, foundFirst, foundSecond]
      | some placeSecond =>
        simp only [binaryOf, foundFirst, foundSecond, Option.some.injEq, Prod.mk.injEq]
        constructor
        · rintro ⟨rfl, rfl, rfl⟩
          exact ⟨rfl, first, second, rfl, foundFirst, foundSecond⟩
        · intro matched
          rcases matched with ⟨rfl, _, _, equal, again, againSecond⟩
          cases equal
          rw [foundFirst] at again
          rw [foundSecond] at againSecond
          exact ⟨Option.some.inj again, Option.some.inj againSecond, rfl⟩

/-- The pairs of the normal form as places. -/
theorem mem_placedPairs_iff {left right : Nat} :
    (left, right, place) ∈ (placed c).filterMap (binaryOf c) ↔
      ∃ name first second, c.rules.indexOf? name = some place ∧
        .pair first second ∈ c.productions name ∧
        c.rules.indexOf? first = some left ∧ c.rules.indexOf? second = some right := by
  simp only [List.mem_filterMap, Prod.exists, binaryOf_eq_some_iff, mem_placed_iff]
  constructor
  · intro listed
    rcases listed with ⟨_, _, ⟨name, found, member⟩, rfl, first, second, rfl, sides⟩
    exact ⟨name, first, second, found, member, sides⟩
  · intro listed
    rcases listed with ⟨name, first, second, found, member, sides⟩
    exact ⟨place, _, ⟨name, found, member⟩, rfl, first, second, rfl, sides⟩

/-- The pairs are found under the place of their left side. -/
theorem mem_binary_iff {left right : Nat} :
    (right, place) ∈ (ofNormalForm c).binary[left]?.getD [] ↔
      ∃ name first second, c.rules.indexOf? name = some place ∧
        .pair first second ∈ c.productions name ∧
        c.rules.indexOf? first = some left ∧ c.rules.indexOf? second = some right := by
  rw [← mem_placedPairs_iff]
  by_cases bound : left < c.rules.size
  · have row : (ofNormalForm c).binary[left]? =
        some ((((placed c).filterMap (binaryOf c)).filter fun pair => pair.1 == left).map
          Prod.snd) := by
      simp [ofNormalForm, bound]
    rw [row, Option.getD_some, List.mem_map]
    constructor
    · intro listed
      rcases listed with ⟨⟨_, _, _⟩, member, equal⟩
      cases equal
      obtain ⟨member, equal⟩ := List.mem_filter.mp member
      rw [beq_iff_eq] at equal
      exact equal ▸ member
    · intro member
      exact ⟨_, List.mem_filter.mpr ⟨member, by simp⟩, rfl⟩
  · have none : (ofNormalForm c).binary[left]? = none := by
      simp only [ofNormalForm, Array.getElem?_eq_none_iff, Array.size_map, Array.size_range]
      omega
    rw [none, Option.getD_none]
    refine ⟨fun member => absurd member List.not_mem_nil, fun member => ?_⟩
    -- A pair whose left side has a place has it inside the table.
    obtain ⟨name, first, second, -, -, found, -⟩ := mem_placedPairs_iff.mp member
    rw [RuleTable.indexOf?_eq_some_iff] at found
    obtain ⟨inside, -⟩ := List.getElem?_eq_some_iff.mp found
    rw [RuleTable.names, List.length_map] at inside
    exact absurd inside bound

/-! ## Cells -/

/-- The cell holds the places of exactly those nonterminals that derive the part of a word. -/
def CellFor (c : NormalForm) (part : Word) (cell : Cell) : Prop :=
  ∀ place, place ∈ cell ↔ ∃ name, c.rules.indexOf? name = some place ∧ c.Derives name part

theorem CellFor.mem_iff {part : Word} {cell : Cell} (right : CellFor c part cell) {name : String}
    (found : c.rules.indexOf? name = some place) : place ∈ cell ↔ c.Derives name part := by
  rw [right place]
  constructor
  · intro derived
    rcases derived with ⟨other, again, derives⟩
    rw [RuleTable.eq_of_indexOf?_eq found again]
    exact derives
  · intro derives
    exact ⟨name, found, derives⟩

theorem mem_combine_iff {front back : Word} {left right : Cell} (forFront : CellFor c front left)
    (forBack : CellFor c back right) :
    place ∈ (ofNormalForm c).combine left right ↔
      ∃ name first second, c.rules.indexOf? name = some place ∧
        .pair first second ∈ c.productions name ∧
        c.Derives first front ∧ c.Derives second back := by
  simp only [combine, List.mem_flatMap, List.mem_map, List.mem_filter, List.contains_iff_mem,
    Prod.exists]
  constructor
  · intro combined
    rcases combined with ⟨leftPlace, inLeft, rightPlace, _, ⟨member, inRight⟩, rfl⟩
    obtain ⟨name, first, second, found, listed, foundFirst, foundSecond⟩ :=
      mem_binary_iff.mp member
    exact ⟨name, first, second, found, listed, (forFront.mem_iff foundFirst).mp inLeft,
      (forBack.mem_iff foundSecond).mp inRight⟩
  · intro listed
    rcases listed with ⟨name, first, second, found, listed, derivesFirst, derivesSecond⟩
    obtain ⟨leftPlace, foundFirst⟩ := RuleTable.exists_indexOf? derivesFirst.mem_nonterminals
    obtain ⟨rightPlace, foundSecond⟩ := RuleTable.exists_indexOf? derivesSecond.mem_nonterminals
    refine ⟨leftPlace, (forFront.mem_iff foundFirst).mpr derivesFirst, rightPlace, place,
      ⟨?_, (forBack.mem_iff foundSecond).mpr derivesSecond⟩, rfl⟩
    exact mem_binary_iff.mpr ⟨name, first, second, found, listed, foundFirst, foundSecond⟩

/-! ## Parts of a word -/

/-- The part of a word with a given length, from an offset on. -/
def part (word : Word) (offset length : Nat) : Word := (word.drop offset).take length

theorem length_part {offset length : Nat} (bound : offset + length ≤ word.length) :
    (part word offset length).length = length := by
  rw [part, List.length_take, List.length_drop]
  omega

theorem part_add (word : Word) (offset split rest : Nat) :
    part word offset (split + rest) =
      part word offset split ++ part word (offset + split) rest := by
  rw [part, List.take_add, List.drop_drop]
  rfl

/-- A part is cut in two at an offset of its own. -/
theorem part_eq_append {offset length : Nat} {front back : Word}
    (bound : offset + length ≤ word.length) (cut : part word offset length = front ++ back) :
    front.length + back.length = length ∧ part word offset front.length = front ∧
      part word (offset + front.length) back.length = back := by
  have total : front.length + back.length = length := by
    rw [← List.length_append, ← cut, length_part bound]
  rw [← total] at cut bound
  rw [part_add] at cut
  have sizes : (part word offset front.length).length = front.length := length_part (by omega)
  exact ⟨total, List.append_inj cut sizes⟩

theorem derives_singleton_iff {name : String} :
    c.Derives name [char] ↔ .terminal char ∈ c.productions name := by
  refine ⟨fun derives => ?_, .terminal⟩
  obtain ⟨production, member, produces⟩ := NormalForm.derives_iff_produces.mp derives
  cases production with
  | terminal other =>
    cases produces
    exact member
  | pair left right =>
    obtain ⟨front, back, cut, derivesLeft, derivesRight⟩ := produces
    have first := List.length_pos_iff.mpr derivesLeft.ne_nil
    have second := List.length_pos_iff.mpr derivesRight.ne_nil
    have total := congrArg List.length cut
    rw [List.length_append, List.length_singleton] at total
    omega

/-- A part of two or more characters is derived by a pair, at one of the ways to cut it. -/
theorem derives_part_iff {name : String} {offset length : Nat} (long : 2 ≤ length)
    (bound : offset + length ≤ word.length) :
    c.Derives name (part word offset length) ↔
      ∃ cut < length - 1, ∃ first second, .pair first second ∈ c.productions name ∧
        c.Derives first (part word offset (cut + 1)) ∧
        c.Derives second (part word (offset + (cut + 1)) (length - (cut + 1))) := by
  constructor
  · intro derives
    obtain ⟨production, member, produces⟩ := NormalForm.derives_iff_produces.mp derives
    have size : (part word offset length).length = length := length_part bound
    cases production with
    | terminal char =>
      rw [produces, List.length_singleton] at size
      omega
    | pair first second =>
      obtain ⟨front, back, cut, derivesFirst, derivesSecond⟩ := produces
      obtain ⟨total, partFront, partBack⟩ := part_eq_append bound cut
      -- Neither side is empty, so the cut is one of those that are tried.
      have positive := List.length_pos_iff.mpr derivesFirst.ne_nil
      have positiveBack := List.length_pos_iff.mpr derivesSecond.ne_nil
      have split : front.length - 1 + 1 = front.length := by omega
      have rest : length - front.length = back.length := by omega
      refine ⟨front.length - 1, by omega, first, second, member, ?_, ?_⟩
      · rw [split, partFront]
        exact derivesFirst
      · rw [split, rest, partBack]
        exact derivesSecond
  · intro cuts
    rcases cuts with ⟨cut, inside, first, second, member, derivesFirst, derivesSecond⟩
    have whole : length = cut + 1 + (length - (cut + 1)) := by omega
    rw [whole, part_add]
    exact .pair member derivesFirst derivesSecond

/-! ## Rows -/

/-- Each row there is has a cell for every part of its length, and the right nonterminals in it. -/
def Filled (c : NormalForm) (word : Word) (rows : CellTable) : Prop :=
  ∀ length offset, 1 ≤ length → length ≤ rows.size → offset + length ≤ word.length →
    ∃ row cell, rows[length - 1]? = some row ∧ row[offset]? = some cell ∧
      CellFor c (part word offset length) cell

theorem Filled.cellFor_cellAt {rows : CellTable} (filled : Filled c word rows)
    {length offset : Nat} (positive : 1 ≤ length) (inside : length ≤ rows.size)
    (bound : offset + length ≤ word.length) :
    CellFor c (part word offset length) (cellAt rows length offset) := by
  obtain ⟨row, cell, foundRow, foundCell, right⟩ := filled length offset positive inside bound
  rw [cellAt, foundRow, Option.getD_some, foundCell, Option.getD_some]
  exact right

theorem filled_firstRow (c : NormalForm) (word : Word) :
    Filled c word #[(ofNormalForm c).firstRow word] := by
  intro length offset positive inside bound
  have single : length = 1 := Nat.le_antisymm inside positive
  subst single
  have here : offset < word.length := by omega
  refine ⟨_, (ofNormalForm c).charCell word[offset], rfl, ?_, fun place => ?_⟩
  · simp [firstRow, here]
  · have letter : part word offset 1 = [word[offset]] := by
      rw [part, List.drop_eq_getElem_cons here, List.take_succ_cons, List.take_zero]
    rw [mem_charCell_iff, letter]
    simp only [derives_singleton_iff]

/-- A cell of the next row holds what it should when all rows before it do. -/
theorem Filled.cellFor_nextCell {rows : CellTable} (filled : Filled c word rows)
    (started : 1 ≤ rows.size) {offset : Nat} (bound : offset + (rows.size + 1) ≤ word.length) :
    CellFor c (part word offset (rows.size + 1))
      ((ofNormalForm c).nextCell rows (rows.size + 1) offset) := by
  intro place
  -- Both sides of a cut are shorter than the part, so their cells are in the rows there are.
  have combined : ∀ cut < rows.size, (place ∈ (ofNormalForm c).combine
      (cellAt rows (cut + 1) offset)
      (cellAt rows (rows.size + 1 - (cut + 1)) (offset + (cut + 1))) ↔
      ∃ name first second, c.rules.indexOf? name = some place ∧
        .pair first second ∈ c.productions name ∧
        c.Derives first (part word offset (cut + 1)) ∧
        c.Derives second (part word (offset + (cut + 1)) (rows.size + 1 - (cut + 1)))) := by
    intro cut inside
    refine mem_combine_iff ?_ ?_
    · exact filled.cellFor_cellAt (by omega) (by omega) (by omega)
    · exact filled.cellFor_cellAt (by omega) (by omega) (by omega)
  simp only [nextCell, List.mem_eraseDups, List.mem_flatMap, List.mem_range, Nat.add_sub_cancel]
  constructor
  · intro combined
    rcases combined with ⟨cut, inside, member⟩
    obtain ⟨name, first, second, found, listed, derives⟩ := (combined cut inside).mp member
    refine ⟨name, found, (derives_part_iff (Nat.succ_le_succ started) bound).mpr ?_⟩
    exact ⟨cut, inside, first, second, listed, derives⟩
  · intro derived
    rcases derived with ⟨name, found, derives⟩
    obtain ⟨cut, inside, first, second, listed, derives⟩ :=
      (derives_part_iff (Nat.succ_le_succ started) bound).mp derives
    exact ⟨cut, inside, (combined cut inside).mpr ⟨name, first, second, found, listed, derives⟩⟩

/-- One more row keeps the table filled. -/
theorem Filled.push {rows : CellTable} (filled : Filled c word rows) (started : 1 ≤ rows.size) :
    Filled c word (rows.push ((ofNormalForm c).nextRow word.length rows)) := by
  intro length offset positive inside bound
  rw [Array.size_push] at inside
  rcases Nat.lt_or_eq_of_le inside with old | new
  · obtain ⟨row, cell, foundRow, foundCell, right⟩ :=
      filled length offset positive (Nat.le_of_lt_succ old) bound
    refine ⟨row, cell, ?_, foundCell, right⟩
    rw [Array.getElem?_push, if_neg (by omega)]
    exact foundRow
  · subst new
    refine ⟨_, _, Array.getElem?_push_size, ?_, filled.cellFor_nextCell started bound⟩
    have here : offset < word.length + 1 - (rows.size + 1) := by omega
    rw [nextRow, Array.getElem?_map, Array.getElem?_range, if_pos here, Option.map_some]

/-- Any number of rows is added row by row, to a table that has one. -/
theorem Filled.addRows {rows : CellTable} (filled : Filled c word rows) (started : 1 ≤ rows.size)
    (count : Nat) :
    Filled c word ((ofNormalForm c).addRows word.length count rows) ∧
      ((ofNormalForm c).addRows word.length count rows).size = rows.size + count := by
  induction count generalizing rows with
  | zero => exact ⟨filled, rfl⟩
  | succ count ih =>
    have started : 1 ≤ (rows.push ((ofNormalForm c).nextRow word.length rows)).size := by
      rw [Array.size_push]
      omega
    obtain ⟨all, size⟩ := ih (filled.push ‹1 ≤ rows.size›) started
    refine ⟨all, ?_⟩
    rw [Recognizer.addRows, size, Array.size_push]
    omega

theorem filled_table (c : NormalForm) (word : Word) :
    Filled c word ((ofNormalForm c).table word) ∧
      ((ofNormalForm c).table word).size = 1 + (word.length - 1) :=
  (filled_firstRow c word).addRows (Nat.le_refl 1) (word.length - 1)

theorem part_zero_length (word : Word) : part word 0 word.length = word := by
  rw [part, List.drop_zero, List.take_length]

/-- The cell that the answer is read from. -/
theorem cellFor_whole (c : NormalForm) {word : Word} (nonempty : word ≠ []) :
    CellFor c word (cellAt ((ofNormalForm c).table word) word.length 0) := by
  have positive := List.length_pos_iff.mpr nonempty
  obtain ⟨filled, size⟩ := filled_table c word
  have whole : CellFor c (part word 0 word.length)
      (cellAt ((ofNormalForm c).table word) word.length 0) :=
    filled.cellFor_cellAt positive (by omega) (by omega)
  rw [part_zero_length] at whole
  exact whole

/-! ## The answer -/

/-- Every character of a derived word has a production that spells it. -/
theorem exists_terminal_of_mem {name : String} (derives : c.Derives name word)
    (occurs : char ∈ word) : ∃ other, .terminal char ∈ c.productions other := by
  induction derives with
  | @terminal name letter member =>
    rw [List.mem_singleton.mp occurs]
    exact ⟨name, member⟩
  | pair member derivesLeft derivesRight ihLeft ihRight =>
    rcases List.mem_append.mp occurs with front | back
    · exact ihLeft front
    · exact ihRight back

theorem charCell_ne_nil {name : String} (member : .terminal char ∈ c.productions name) :
    (ofNormalForm c).charCell char ≠ [] := by
  obtain ⟨place, found⟩ :=
    RuleTable.exists_indexOf? (NormalForm.mem_nonterminals_of_mem_productions member)
  exact List.ne_nil_of_mem (mem_charCell_iff.mpr ⟨name, found, member⟩)

/-- The look at the first row rejects no word that can be derived. -/
theorem firstRow_any_isEmpty {name : String} (derives : c.Derives name word) :
    ((ofNormalForm c).firstRow word).any List.isEmpty = false := by
  rw [firstRow, List.any_toArray, List.any_map, List.any_eq_false]
  intro char occurs
  obtain ⟨other, member⟩ := exists_terminal_of_mem derives occurs
  simpa using charCell_ne_nil member

/-- The recognizer decides the language of the normal form. -/
theorem recognise_eq_true_iff (c : NormalForm) (word : Word) :
    (ofNormalForm c).recognise word = true ↔ c.Accepts word := by
  constructor
  · intro accepted
    have nonempty : word ≠ [] := by
      rintro rfl
      cases accepted
    cases found : (ofNormalForm c).start with
    | none => simp [recognise, found] at accepted
    | some place =>
      simp only [recognise, found] at accepted
      have inside : place ∈ cellAt ((ofNormalForm c).table word) word.length 0 := by
        split at accepted
        · cases accepted
        · split at accepted
          · cases accepted
          · exact List.contains_iff_mem.mp accepted
      exact ((cellFor_whole c nonempty).mem_iff found).mp inside
  · intro accepts
    obtain ⟨place, found⟩ := RuleTable.exists_indexOf? accepts.mem_nonterminals
    have inside := ((cellFor_whole c accepts.ne_nil).mem_iff found).mpr accepts
    have nonempty : word.isEmpty = false := by simpa using accepts.ne_nil
    have start : (ofNormalForm c).start = some place := found
    rw [recognise, nonempty, firstRow_any_isEmpty accepts, start]
    exact List.contains_iff_mem.mpr inside

/-- A cell of the table has the place of a nonterminal exactly when the nonterminal derives the
part of the word that the cell is for, and the recognizer accepts exactly the words that the
start symbol derives. -/
theorem table_and_recognise_correct (c : NormalForm) :
    (∀ (word : Word) (length offset : Nat), 1 ≤ length → offset + length ≤ word.length →
      ∃ row cell, ((ofNormalForm c).table word)[length - 1]? = some row ∧
        row[offset]? = some cell ∧
        ∀ name place, c.rules.indexOf? name = some place →
          (place ∈ cell ↔ c.Derives name ((word.drop offset).take length))) ∧
      ∀ word, (ofNormalForm c).recognise word = true ↔ c.Accepts word := by
  refine ⟨fun word length offset positive bound => ?_, recognise_eq_true_iff c⟩
  obtain ⟨filled, size⟩ := filled_table c word
  obtain ⟨row, cell, foundRow, foundCell, right⟩ :=
    filled length offset positive (by omega) bound
  exact ⟨row, cell, foundRow, foundCell, fun name place found => right.mem_iff found⟩

/-- Any number of `a` and then one `b`, with a production that is there twice and two useless
nonterminals. -/
def lastB : NormalForm :=
  ⟨"S", ⟨[("S", [.pair "A" "S", .terminal 'b', .terminal 'b']), ("A", [.terminal 'a']),
    ("E", []), ("U", [.pair "U" "E"])], by decide⟩⟩

/-- The cell for the part `ab` of `aab` has the start symbol, at place 0. -/
theorem table_and_recognise_correct_lastB :
    ∃ row cell, ((ofNormalForm lastB).table ['a', 'a', 'b'])[1]? = some row ∧
      row[1]? = some cell ∧ 0 ∈ cell := by
  obtain ⟨row, cell, foundRow, foundCell, right⟩ :=
    (table_and_recognise_correct lastB).1 ['a', 'a', 'b'] 2 1 (by decide) (by decide)
  have derives : lastB.Derives "S" (['a'] ++ ['b']) :=
    .pair (show .pair "A" "S" ∈ lastB.productions "S" by decide) (.terminal (by decide))
      (.terminal (by decide))
  exact ⟨row, cell, foundRow, foundCell, (right "S" 0 (by decide)).mpr derives⟩

end Recognizer

end ContextFree
