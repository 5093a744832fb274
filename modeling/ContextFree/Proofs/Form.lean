import ContextFree.Proofs.Derivation
import ContextFree.Proofs.NormalForm
import ContextFree.Words.Search

/-!
# Forms of leftmost derivations

A form leads to a word when its nonterminals can be replaced until the word is left. One step
of a derivation loses nothing: a form leads to a word exactly if one of its expansions does
(`leads_iff_expand`). Every step makes the form longer by one symbol or moves its position on by
one, so that the rank of a form counts the steps that have been taken, whatever productions
these were. A form with a word of `n` characters for its symbols has rank `2 * n`.
-/

namespace ContextFree

/-- What a production derives is what its right-hand side stands for. -/
theorem NormalForm.produces_iff_reads {c : NormalForm} {production : Production} {word : Word} :
    c.Produces production word ↔ Reads c.Derives production.alternative word := by
  cases production with
  | terminal char => exact reads_terminal.symm
  | pair left right =>
    rw [Production.alternative, reads_cons]
    simp only [reads_nonterminal]
    exact Iff.rfl

/-- Replacing a nonterminal by its productions, one at a time, keeps the words stood for. -/
theorem NormalForm.reads_replace_iff {c : NormalForm} {front back : Alternative} {name : String}
    {word : Word} :
    Reads c.Derives (front ++ ([.nonterminal name] ++ back)) word ↔
      ∃ production ∈ c.productions name,
        Reads c.Derives (front ++ (production.alternative ++ back)) word := by
  simp only [reads_append, reads_nonterminal, derives_iff_produces, produces_iff_reads]
  constructor
  · rintro ⟨left, _, rfl, readsFront, middle, right, rfl, ⟨production, member, reads⟩, readsBack⟩
    exact ⟨production, member, left, _, rfl, readsFront, middle, right, rfl, reads, readsBack⟩
  · rintro ⟨production, member, left, _, rfl, readsFront, middle, right, rfl, reads, readsBack⟩
    exact ⟨left, _, rfl, readsFront, middle, right, rfl, ⟨production, member, reads⟩, readsBack⟩

/-- In normal form no symbol stands for the empty word. -/
theorem NormalForm.length_le_of_reads {c : NormalForm} {alternative : Alternative} {word : Word}
    (reads : Reads c.Derives alternative word) : alternative.length ≤ word.length := by
  induction alternative generalizing word with
  | nil => exact Nat.zero_le _
  | cons symbol rest ih =>
    cases symbol with
    | terminal char =>
      obtain ⟨tail, rfl, readsRest⟩ := reads
      exact Nat.succ_le_succ (ih readsRest)
    | nonterminal name =>
      obtain ⟨front, back, rfl, derives, readsRest⟩ := reads
      have positive := List.length_pos_iff.mpr derives.ne_nil
      have bound := ih readsRest
      rw [List.length_cons, List.length_append]
      omega

namespace Form

variable {c : NormalForm} {form : Form} {name : String} {production : Production}
variable {word done : Word} {pending : List String}

/-! ## The two parts of a form -/

/-- The form with the terminals of a word in front and nonterminals behind them. -/
def ofParts (done : Word) (pending : List String) : Form :=
  ⟨done.map .terminal ++ pending.map .nonterminal, done.length⟩

/-- There are only terminals before the position and only nonterminals from there on. -/
def Leftmost (form : Form) : Prop := ∃ done pending, form = ofParts done pending

@[simp]
theorem length_symbols_ofParts :
    (ofParts done pending).symbols.length = done.length + pending.length := by
  simp [ofParts]

@[simp]
theorem isWord_ofParts : (ofParts done pending).isWord = pending.isEmpty := by
  cases pending with
  | nil => simp [isWord, ofParts]
  | cons name rest => simp [isWord, ofParts]

@[simp]
theorem word_ofParts : (ofParts done pending).word = done := by
  simp [word, ofParts, Alternative.chars, List.filterMap_map, Function.comp_def, Symbol.char?]

@[simp]
theorem leftmost?_ofParts : (ofParts done pending).leftmost? = pending.head? := by
  cases pending with
  | nil => simp [leftmost?, ofParts]
  | cons name rest => simp [leftmost?, ofParts, Symbol.name?]

theorem expand_ofParts_terminal (done : Word) (name : String) (pending : List String)
    (char : Char) :
    (ofParts done (name :: pending)).expand (.terminal char) =
      ofParts (done ++ [char]) pending := by
  simp [expand, ofParts, Production.alternative, List.drop_append]

theorem expand_ofParts_pair (done : Word) (name left right : String) (pending : List String) :
    (ofParts done (name :: pending)).expand (.pair left right) =
      ofParts done (left :: right :: pending) := by
  simp [expand, ofParts, Production.alternative, List.drop_append]

theorem leftmost_initial (c : NormalForm) : (initial c).Leftmost := ⟨[], [c.start], rfl⟩

/-- A form is a word, or it has a nonterminal to be replaced next. -/
theorem Leftmost.cases (leftmost : form.Leftmost) :
    (form.isWord = true ∧ form = ofParts form.word []) ∨
      (form.isWord = false ∧ ∃ name, form.leftmost? = some name) := by
  obtain ⟨done, pending, rfl⟩ := leftmost
  cases pending with
  | nil => simp
  | cons name rest => simp

theorem Leftmost.exists_eq_ofParts (leftmost : form.Leftmost)
    (found : form.leftmost? = some name) : ∃ done rest, form = ofParts done (name :: rest) := by
  obtain ⟨done, pending, rfl⟩ := leftmost
  rw [leftmost?_ofParts] at found
  obtain ⟨rest, rfl⟩ := List.head?_eq_some_iff.mp found
  exact ⟨done, rest, rfl⟩

theorem Leftmost.expand (leftmost : form.Leftmost) (found : form.leftmost? = some name)
    (production : Production) : (form.expand production).Leftmost := by
  obtain ⟨done, rest, rfl⟩ := leftmost.exists_eq_ofParts found
  cases production with
  | terminal char => exact ⟨_, _, expand_ofParts_terminal done name rest char⟩
  | pair left right => exact ⟨_, _, expand_ofParts_pair done name left right rest⟩

/-! ## The words that a form leads to -/

/-- The word is left when the nonterminals of the form have been replaced. -/
def Leads (c : NormalForm) (form : Form) (word : Word) : Prop := Reads c.Derives form.symbols word

theorem leads_initial_iff : (initial c).Leads c word ↔ c.Accepts word := reads_nonterminal

theorem leads_ofParts_nil_iff : (ofParts done []).Leads c word ↔ word = done := by
  rw [Leads, ofParts, List.map_nil, List.append_nil, reads_map_terminal]

theorem symbols_of_leftmost? (found : form.leftmost? = some name) :
    form.symbols = form.symbols.take form.position ++
      ([.nonterminal name] ++ form.symbols.drop (form.position + 1)) := by
  obtain ⟨symbol, here, named⟩ := Option.bind_eq_some_iff.mp found
  have spelled : symbol = .nonterminal name := by
    cases symbol with
    | terminal char => cases named
    | nonterminal other =>
      cases named
      rfl
  subst spelled
  obtain ⟨bound, equal⟩ := List.getElem?_eq_some_iff.mp here
  rw [List.singleton_append, ← equal, ← List.drop_eq_getElem_cons, List.take_append_drop]

theorem symbols_expand (form : Form) (production : Production) :
    (form.expand production).symbols = form.symbols.take form.position ++
      (production.alternative ++ form.symbols.drop (form.position + 1)) := by
  rw [← List.append_assoc]
  cases production <;> rfl

/-- The terminals of an expansion are those of the form and that of the production. -/
theorem mem_symbols_expand {char : Char}
    (member : .terminal char ∈ (form.expand production).symbols) :
    .terminal char ∈ form.symbols ∨ production = .terminal char := by
  rw [symbols_expand, List.mem_append, List.mem_append] at member
  rcases member with before | here | behind
  · exact .inl (List.mem_of_mem_take before)
  · cases production with
    | terminal other =>
      cases List.mem_singleton.mp here
      exact .inr rfl
    | pair left right => simp [Production.alternative] at here
  · exact .inl (List.mem_of_mem_drop behind)

/-- A form leads to a word if and only if one of its expansions does. -/
theorem leads_iff_expand (found : form.leftmost? = some name) :
    form.Leads c word ↔
      ∃ production ∈ c.productions name, (form.expand production).Leads c word := by
  have split := symbols_of_leftmost? found
  simp only [Leads, symbols_expand]
  rw [split, NormalForm.reads_replace_iff, ← split]

/-! ## Ranks -/

/-- The symbols of a form and its position counted together, which is one more than the number
of steps from the initial form. -/
def rank (form : Form) : Nat := form.symbols.length + form.position

@[simp]
theorem rank_ofParts : (ofParts done pending).rank = 2 * done.length + pending.length := by
  rw [rank, length_symbols_ofParts]
  show done.length + pending.length + done.length = 2 * done.length + pending.length
  omega

theorem Leftmost.rank_expand (leftmost : form.Leftmost) (found : form.leftmost? = some name)
    (production : Production) : (form.expand production).rank = form.rank + 1 := by
  obtain ⟨done, rest, rfl⟩ := leftmost.exists_eq_ofParts found
  cases production with
  | terminal char =>
    rw [expand_ofParts_terminal]
    simp only [rank_ofParts, List.length_append, List.length_cons, List.length_nil]
    omega
  | pair left right =>
    rw [expand_ofParts_pair]
    simp only [rank_ofParts, List.length_cons]
    omega

/-- A form does not outrank the words that it leads to. -/
theorem Leftmost.rank_le_of_leads (leftmost : form.Leftmost) (leads : form.Leads c word) :
    form.rank ≤ 2 * word.length := by
  have bound := NormalForm.length_le_of_reads leads
  obtain ⟨done, pending, rfl⟩ := leftmost
  rw [length_symbols_ofParts] at bound
  rw [rank_ofParts]
  omega

end Form

end ContextFree
