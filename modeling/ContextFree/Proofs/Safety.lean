import ContextFree.Proofs.ConversionChecks
import ContextFree.Proofs.ConversionLanguage
import ContextFree.Proofs.Search

/-!
# Nothing is looked up in vain

The steps of a conversion, a recognizer and a search have cases that are not to occur: an
alternative without a binary form, a place outside a list or a table, a form whose next symbol is
no nonterminal. They pass over them or fall back on a default. Here it is shown that they never
have to.

* What pruning leaves has no empty alternative and no unit production, and a substitute is found
  at the place that is drawn for it.
* A recognizer that gives up at the first cell that is not in its table (`recognise?`) never gives
  up, and answers as the recognizer does.
* The forms in the queue of a search have terminals up to their position and nonterminals from
  there on, at every step.
-/

namespace ContextFree

/-! ## Pruning -/

namespace Grammar

variable {σ : Type} [RandomSource σ] {g : Grammar} {name : String}

theorem generating_prune (g : Grammar) (source : σ) :
    (g.prune source).generating = g.generating := by
  rw [prune]
  rcases g.startFate g.generating source with ⟨_ | substitute | _, after⟩ <;> rfl

/-- No alternative that a conversion makes binary is empty or a unit production. -/
theorem WellFormed.proper_prune (wellFormed : g.WellFormed) {source : σ}
    {alternative : Alternative}
    (member : alternative ∈ (g.prepared.prune source).useful.alternatives name) :
    alternative ≠ [] ∧ ∀ other, alternative ≠ [.nonterminal other] := by
  obtain ⟨nonempty, proper⟩ := (wellFormed.ready_prune source).proper name alternative member
  exact ⟨nonempty, fun other unit => proper (Alternative.isUnit_iff.mpr ⟨other, unit⟩)⟩

end Grammar

/-! ## Recognition -/

theorem mapM_eq_some_map {α β : Type} {f : α → Option β} {g : α → β} {items : List α}
    (succeeds : ∀ item ∈ items, f item = some (g item)) : items.mapM f = some (items.map g) := by
  induction items with
  | nil => rfl
  | cons item rest ih =>
    obtain ⟨first, others⟩ := List.forall_mem_cons.mp succeeds
    rw [List.mapM_cons, first, ih others]
    rfl

namespace Recognizer

variable {c : NormalForm} {word : Word} {rows : CellTable} {length offset : Nat}

/-- The cell of a table for a length and an offset, if the table has it. -/
def cellAt? (rows : CellTable) (length offset : Nat) : Option Cell :=
  if length = 0 then none
  else rows[length - 1]?.bind fun row => row[offset]?

/-- The cell for a length and an offset, if all cells that it needs are in the table. -/
def nextCell? (r : Recognizer) (rows : CellTable) (length offset : Nat) : Option Cell := do
  let cells ← (List.range (length - 1)).mapM fun cut => do
    let left ← cellAt? rows (cut + 1) offset
    let right ← cellAt? rows (length - (cut + 1)) (offset + (cut + 1))
    return r.combine left right
  return cells.flatten.eraseDups

/-- The row for the next length, if the word is that long and all its cells can be had. -/
def nextRow? (r : Recognizer) (size : Nat) (rows : CellTable) : Option (Array Cell) := do
  guard (rows.size < size)
  let cells ← (List.range (size - rows.size)).mapM fun offset =>
    r.nextCell? rows (rows.size + 1) offset
  return cells.toArray

/-- The rows with `count` more of them, if these can all be had. -/
def addRows? (r : Recognizer) (size : Nat) : (count : Nat) → CellTable → Option CellTable
  | 0, rows => some rows
  | count + 1, rows => do
    let row ← r.nextRow? size rows
    r.addRows? size count (rows.push row)

/-- The answer for a word, if every cell that is looked up on the way is in the table. -/
def recognise? (r : Recognizer) (word : Word) : Option Bool :=
  if word.isEmpty then some false
  else if (r.firstRow word).any List.isEmpty then some false
  else do
    let table ← r.addRows? word.length (word.length - 1) #[r.firstRow word]
    let cell ← cellAt? table word.length 0
    return r.start.any cell.contains

theorem Filled.cellAt?_eq (filled : Filled c word rows) (positive : 1 ≤ length)
    (inside : length ≤ rows.size) (bound : offset + length ≤ word.length) :
    cellAt? rows length offset = some (cellAt rows length offset) := by
  obtain ⟨row, cell, foundRow, foundCell, -⟩ := filled length offset positive inside bound
  have nonzero : length ≠ 0 := Nat.ne_zero_of_lt positive
  rw [cellAt?, if_neg nonzero, cellAt, foundRow, Option.bind_some, Option.getD_some, foundCell,
    Option.getD_some]

/-- Both sides of every cut are in the rows that are there. -/
theorem Filled.nextCell?_eq (filled : Filled c word rows)
    (bound : offset + (rows.size + 1) ≤ word.length) (r : Recognizer) :
    r.nextCell? rows (rows.size + 1) offset = some (r.nextCell rows (rows.size + 1) offset) := by
  have cells : ((List.range (rows.size + 1 - 1)).mapM fun cut => do
        let left ← cellAt? rows (cut + 1) offset
        let right ← cellAt? rows (rows.size + 1 - (cut + 1)) (offset + (cut + 1))
        return r.combine left right) =
      some ((List.range (rows.size + 1 - 1)).map fun cut =>
        r.combine (cellAt rows (cut + 1) offset)
          (cellAt rows (rows.size + 1 - (cut + 1)) (offset + (cut + 1)))) := by
    apply mapM_eq_some_map
    intro cut member
    rw [List.mem_range] at member
    rw [filled.cellAt?_eq (by omega) (by omega) (by omega),
      filled.cellAt?_eq (by omega) (by omega) (by omega)]
    rfl
  rw [nextCell?, cells, nextCell, List.flatMap_def]
  rfl

theorem Filled.nextRow?_eq (filled : Filled c word rows) (room : rows.size < word.length)
    (r : Recognizer) : r.nextRow? word.length rows = some (r.nextRow word.length rows) := by
  have cells : (List.range (word.length - rows.size)).mapM (r.nextCell? rows (rows.size + 1)) =
      some ((List.range (word.length - rows.size)).map (r.nextCell rows (rows.size + 1))) := by
    apply mapM_eq_some_map
    intro offset member
    rw [List.mem_range] at member
    exact filled.nextCell?_eq (by omega) r
  rw [nextRow?, cells, nextRow, Nat.add_sub_add_right, ← List.toArray_range, List.map_toArray]
  simp [guard, room]

theorem Filled.addRows?_eq (filled : Filled c word rows) (started : 1 ≤ rows.size) {count : Nat}
    (room : rows.size + count ≤ word.length) :
    (ofNormalForm c).addRows? word.length count rows =
      some ((ofNormalForm c).addRows word.length count rows) := by
  induction count generalizing rows with
  | zero => rfl
  | succ count ih =>
    have row := filled.nextRow?_eq (by omega) (ofNormalForm c)
    rw [addRows?, row, Recognizer.addRows]
    refine ih (filled.push started) ?_ ?_
    · rw [Array.size_push]
      omega
    · rw [Array.size_push]
      omega

/-- Every cell that is looked up is in the table. -/
theorem recognise?_eq_some (c : NormalForm) (word : Word) :
    (ofNormalForm c).recognise? word = some ((ofNormalForm c).recognise word) := by
  rw [recognise?, recognise]
  by_cases empty : word.isEmpty = true
  · rw [if_pos empty, if_pos empty]
  · rw [if_neg empty, if_neg empty]
    have positive : 1 ≤ word.length := List.length_pos_iff.mpr (by simpa using empty)
    split
    · rfl
    · have rows : (ofNormalForm c).addRows? word.length (word.length - 1)
          #[(ofNormalForm c).firstRow word] = some ((ofNormalForm c).table word) :=
        (filled_firstRow c word).addRows?_eq (Nat.le_refl 1) (by
          show 1 + (word.length - 1) ≤ word.length
          omega)
      obtain ⟨filled, size⟩ := filled_table c word
      have cell : cellAt? ((ofNormalForm c).table word) word.length 0 =
          some (cellAt ((ofNormalForm c).table word) word.length 0) :=
        filled.cellAt?_eq positive (by omega) (by omega)
      rw [rows]
      show ((cellAt? ((ofNormalForm c).table word) word.length 0).bind _) = _
      rw [cell]
      cases (ofNormalForm c).start <;> rfl

end Recognizer

/-! ## Forms of a search -/

namespace Form

variable {form : Form}

/-- The parts of a form, as conditions on its symbols. -/
theorem Leftmost.shape (leftmost : form.Leftmost) :
    form.position ≤ form.symbols.length ∧
      (∀ symbol ∈ form.symbols.take form.position, ∃ char, symbol = .terminal char) ∧
      ∀ symbol ∈ form.symbols.drop form.position, ∃ name, symbol = .nonterminal name := by
  obtain ⟨done, pending, rfl⟩ := leftmost
  refine ⟨?_, ?_, ?_⟩
  · rw [length_symbols_ofParts]
    exact Nat.le_add_right _ _
  · intro symbol member
    have before : symbol ∈ done.map Symbol.terminal := by simpa [ofParts] using member
    obtain ⟨char, -, equal⟩ := List.mem_map.mp before
    exact ⟨char, equal.symm⟩
  · intro symbol member
    have behind : symbol ∈ pending.map Symbol.nonterminal := by simpa [ofParts] using member
    obtain ⟨name, -, equal⟩ := List.mem_map.mp behind
    exact ⟨name, equal.symm⟩

/-- The words among the forms are those without nonterminals. -/
theorem Leftmost.isWord_iff (leftmost : form.Leftmost) :
    form.isWord = true ↔ ∀ symbol ∈ form.symbols, ∃ char, symbol = .terminal char := by
  obtain ⟨done, pending, rfl⟩ := leftmost
  rw [isWord_ofParts, List.isEmpty_iff]
  constructor
  · rintro rfl symbol member
    have spelled : symbol ∈ done.map Symbol.terminal := by simpa [ofParts] using member
    obtain ⟨char, -, equal⟩ := List.mem_map.mp spelled
    exact ⟨char, equal.symm⟩
  · intro terminals
    refine List.eq_nil_iff_forall_not_mem.mpr fun name member => ?_
    obtain ⟨char, equal⟩ := terminals (.nonterminal name) (by simpa [ofParts] using member)
    cases equal

/-- Any other form has a nonterminal at its position. -/
theorem Leftmost.exists_at_position (leftmost : form.Leftmost) (unfinished : form.isWord = false) :
    ∃ name, form.symbols[form.position]? = some (.nonterminal name) := by
  rcases leftmost.cases with ⟨finished, -⟩ | ⟨-, name, found⟩
  · rw [finished] at unfinished
    cases unfinished
  · obtain ⟨done, rest, rfl⟩ := leftmost.exists_eq_ofParts found
    exact ⟨name, by simp [ofParts]⟩

end Form

namespace Search

variable {σ : Type} [RandomSource σ] {alphabet : List Char}

/-- Every form in the queue of a search has two parts, after any number of steps. -/
theorem leftmost_run (c : NormalForm) (options : SearchOptions) (source : σ) (steps : Nat) :
    ∀ form ∈ (run c alphabet options steps
      ⟨.empty, .single (Form.initial c), 0, source⟩).queue.toList, form.Leftmost := by
  refine run_induction_of_parts (motive := fun _ queue => ∀ form ∈ queue, form.Leftmost)
    (fun _ _ leftmost => leftmost_visit leftmost) steps fun form member => ?_
  rw [Queue.toList_single, List.mem_singleton] at member
  exact member ▸ Form.leftmost_initial c

end Search

/-! ## No run gets stuck -/

open Grammar (startless)
open NormalForm (anyWord)

/-- The cases that are not to occur do not: in the conversion of a grammar, in the recognizer of a
normal form for any word, and in a search after any number of steps. -/
theorem no_run_gets_stuck :
    (∀ start rules g, Grammar.ofRules start rules = .ok g →
      ∀ (σ : Type) [RandomSource σ] (source : σ) (conversion : Conversion σ),
        g.convert source = conversion →
        (∀ name, ∀ alternative ∈ conversion.pruning.useful.alternatives name,
          alternative ≠ [] ∧ ∀ other, alternative ≠ [.nonterminal other]) ∧
        (conversion.unitFree.start ∉ conversion.pruning.generating →
          conversion.pruning.generating ≠ [] →
          ∃ substitute, conversion.pruning.generating[(RandomSource.below64
              conversion.pruning.generating.length source).1]? = some substitute ∧
            conversion.pruning.fate = .replaced substitute)) ∧
    (∀ start rules c, NormalForm.ofRules start rules = .ok c →
      (∀ word, (Recognizer.ofNormalForm c).recognise? word =
        some ((Recognizer.ofNormalForm c).recognise word)) ∧
      ∀ (σ : Type) [RandomSource σ] (options : SearchOptions) (source : σ) (steps : Nat),
        ∀ form ∈ (Search.run c c.terminals options steps
          ⟨.empty, .single (Form.initial c), 0, source⟩).queue.toList,
        (form.position ≤ form.symbols.length ∧
          (∀ symbol ∈ form.symbols.take form.position, ∃ char, symbol = .terminal char) ∧
          ∀ symbol ∈ form.symbols.drop form.position, ∃ name, symbol = .nonterminal name) ∧
        (form.isWord = false →
          ∃ name, form.symbols[form.position]? = some (.nonterminal name)) ∧
        (form.isWord = true ↔ ∀ symbol ∈ form.symbols, ∃ char, symbol = .terminal char)) := by
  refine ⟨fun start rules g accepted => ?_, fun start rules c accepted => ⟨?_, ?_⟩⟩
  · have wellFormed := Grammar.wellFormed_of_ofRules accepted
    rintro σ _ source _ rfl
    obtain ⟨-, unitFree, pruning, -⟩ := g.convert_steps source
    rw [unitFree, pruning, Grammar.generating_prune]
    refine ⟨fun name alternative member => wellFormed.proper_prune member,
      fun missing nonempty => ?_⟩
    obtain ⟨substitute, chosen, replaced⟩ :=
      Grammar.prune_of_start_notMem missing nonempty source
    exact ⟨substitute, chosen, congrArg Pruning.fate replaced⟩
  · exact Recognizer.recognise?_eq_some c
  · intro σ _ options source steps form queued
    have leftmost := Search.leftmost_run c options source steps form queued
    exact ⟨leftmost.shape, leftmost.exists_at_position, leftmost.isWord_iff⟩

/-- A conversion that draws a substitute, a word that a table is filled for, a word with a foreign
character, and a search that has filled a form up with random terminals and has an unfinished form
in its queue. -/
theorem no_run_gets_stuck_startless :
    (∃ substitute, (startless.convert (Script.mk [0, 1])).pruning.fate = .replaced substitute) ∧
      (Recognizer.ofNormalForm anyWord).recognise? ['a', 'b', 'a'] = some true ∧
      (Recognizer.ofNormalForm anyWord).recognise? ['a', 'c'] =
        some ((Recognizer.ofNormalForm anyWord).recognise ['a', 'c']) ∧
      ∃ form ∈ (Search.run anyWord anyWord.terminals { wordLength := some 2 } 3
          ⟨.empty, .single (Form.initial anyWord), 0, Script.mk [1]⟩).queue.toList,
        form.isWord = false ∧
          ∃ name, form.symbols[form.position]? = some (.nonterminal name) := by
  have accepted : Grammar.ofRules startless.start startless.rules = .ok startless := by decide
  have missing : (startless.convert (Script.mk [0, 1])).unitFree.start ∉
      (startless.convert (Script.mk [0, 1])).pruning.generating := by decide +kernel
  have nonempty : (startless.convert (Script.mk [0, 1])).pruning.generating ≠ [] := by
    decide +kernel
  obtain ⟨substitute, -, replaced⟩ := (no_run_gets_stuck.1 _ _ _ accepted Script
    (Script.mk [0, 1]) _ rfl).2 missing nonempty
  have acceptedNormal : NormalForm.ofRules anyWord.start anyWord.rules = .ok anyWord := by decide
  obtain ⟨recognised, forms⟩ := no_run_gets_stuck.2 _ _ _ acceptedNormal
  have queued : Form.mk [.terminal 'a', .nonterminal "S"] 1 ∈
      (Search.run anyWord anyWord.terminals { wordLength := some 2 } 3
        ⟨.empty, .single (Form.initial anyWord), 0, Script.mk [1]⟩).queue.toList := by
    decide +kernel
  obtain ⟨-, found, -⟩ := forms Script { wordLength := some 2 } (Script.mk [1]) 3 _ queued
  have accepts : (Recognizer.ofNormalForm anyWord).recognise ['a', 'b', 'a'] = true := by
    decide +kernel
  have filled := (recognised ['a', 'b', 'a']).trans (congrArg some accepts)
  exact ⟨⟨substitute, replaced⟩, filled, recognised _, _, queued, by decide, found (by decide)⟩

end ContextFree
