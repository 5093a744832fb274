import ContextFree.NormalForm.Basic

/-!
# Recognition

A recognizer decides whether a normal form derives a word. It fills a table whose cell for a
length and an offset holds the nonterminals that derive the part of the word of this length at
this offset. Nonterminals are named by their place in the order of the rules.
-/

namespace ContextFree

/-- The nonterminals that derive one part of a word. -/
abbrev Cell := List Nat

/-- Cells by length, counted from 1 at the first row, and then by offset. -/
abbrev CellTable := Array (Array Cell)

/-- The productions of a normal form, arranged for look-up: the terminals with the nonterminal
that they come from and, for each nonterminal, the pairs that it is the left side of, each as
its right side and the nonterminal that it comes from. -/
structure Recognizer where
  start : Option Nat
  unary : List (Char × Nat)
  binary : Array (List (Nat × Nat))

namespace Recognizer

/-- The productions with the place of the nonterminal that they come from. -/
def placed (c : NormalForm) : List (Nat × Production) :=
  c.rules.values.zipIdx.flatMap fun entry => entry.1.map fun production => (entry.2, production)

/-- The terminal of a placed production, and its place. -/
def unaryOf : Nat × Production → Option (Char × Nat)
  | (place, .terminal char) => some (char, place)
  | (_, .pair _ _) => none

/-- The places of both sides of a placed production's pair, and its own. -/
def binaryOf (c : NormalForm) : Nat × Production → Option (Nat × Nat × Nat)
  | (_, .terminal _) => none
  | (place, .pair left right) =>
    match c.rules.indexOf? left, c.rules.indexOf? right with
    | some left, some right => some (left, right, place)
    | _, _ => none

/-- The recognizer for a normal form. -/
def ofNormalForm (c : NormalForm) : Recognizer :=
  let productions := placed c
  let pairs := productions.filterMap (binaryOf c)
  { start := c.rules.indexOf? c.start
    unary := productions.filterMap unaryOf
    binary := (Array.range c.rules.size).map fun left =>
      (pairs.filter fun pair => pair.1 == left).map Prod.snd }

/-- The nonterminals with the production `char`. -/
def charCell (r : Recognizer) (char : Char) : Cell :=
  ((r.unary.filter fun entry => entry.1 == char).map Prod.snd).eraseDups

/-- The nonterminals with a pair whose left side is in `left` and whose right side is in
`right`. -/
def combine (r : Recognizer) (left right : Cell) : Cell :=
  left.flatMap fun name =>
    ((r.binary[name]?.getD []).filter fun pair => right.contains pair.1).map Prod.snd

/-- The cell of a table for a length and an offset, empty where the table has none. -/
def cellAt (rows : CellTable) (length offset : Nat) : Cell :=
  ((rows[length - 1]?.getD #[])[offset]?).getD []

/-- The cell for a length and an offset, from the cells for smaller lengths: every way to cut
the part in two is tried. -/
def nextCell (r : Recognizer) (rows : CellTable) (length offset : Nat) : Cell :=
  ((List.range (length - 1)).flatMap fun cut =>
    let split := cut + 1
    r.combine (cellAt rows split offset) (cellAt rows (length - split) (offset + split))).eraseDups

/-- The row for the next length, for a word of `size` characters. -/
def nextRow (r : Recognizer) (size : Nat) (rows : CellTable) : Array Cell :=
  let length := rows.size + 1
  (Array.range (size + 1 - length)).map fun offset => r.nextCell rows length offset

/-- The rows with `count` more of them. -/
def addRows (r : Recognizer) (size : Nat) : (count : Nat) → CellTable → CellTable
  | 0, rows => rows
  | count + 1, rows => r.addRows size count (rows.push (r.nextRow size rows))

/-- The row for length 1. -/
def firstRow (r : Recognizer) (word : Word) : Array Cell := (word.map r.charCell).toArray

/-- The table for a word. -/
def table (r : Recognizer) (word : Word) : CellTable :=
  r.addRows word.length (word.length - 1) #[r.firstRow word]

/-- The normal form derives the word. The empty word is never derived, nor is a word with a
character that no production has; for any other the start symbol is looked up in the cell for
the whole word. -/
def recognise (r : Recognizer) (word : Word) : Bool :=
  if word.isEmpty then false
  else if (r.firstRow word).any List.isEmpty then false
  else
    match r.start with
    | some start => (cellAt (r.table word) word.length 0).contains start
    | none => false

end Recognizer

end ContextFree
