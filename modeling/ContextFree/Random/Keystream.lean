import ContextFree.Random.Source

/-!
# The ChaCha keystream

A random source that gives out the words of the ChaCha keystream with twelve rounds, block
after block. The key is stretched from a 64-bit seed by a linear congruential generator.
-/

namespace ContextFree

namespace ChaCha

/-- The sixteen words that a block is mixed from. -/
abbrev Block := Vector UInt32 16

/-- The word with its bits moved up by `count` places, the highest ones coming in below. -/
def rotateLeft (word count : UInt32) : UInt32 := word <<< count ||| word >>> (32 - count)

/-- Mixes four words of a block. -/
def quarterRound (a b c d : Fin 16) (block : Block) : Block :=
  let wa := block.get a + block.get b
  let wd := rotateLeft (block.get d ^^^ wa) 16
  let wc := block.get c + wd
  let wb := rotateLeft (block.get b ^^^ wc) 12
  let wa := wa + wb
  let wd := rotateLeft (wd ^^^ wa) 8
  let wc := wc + wd
  let wb := rotateLeft (wb ^^^ wc) 7
  (((block.set a wa).set b wb).set c wc).set d wd

/-- Mixes the four columns and then the four diagonals. -/
def doubleRound (block : Block) : Block :=
  block
    |> quarterRound 0 4 8 12 |> quarterRound 1 5 9 13
    |> quarterRound 2 6 10 14 |> quarterRound 3 7 11 15
    |> quarterRound 0 5 10 15 |> quarterRound 1 6 11 12
    |> quarterRound 2 7 8 13 |> quarterRound 3 4 9 14

/-- Mixes a block by the given number of double rounds. -/
def doubleRounds : Nat → Block → Block
  | 0, block => block
  | count + 1, block => doubleRounds count (doubleRound block)

/-- The block before mixing: four constants, the key, the block's number and two zeros. -/
def startingBlock (key : Vector UInt32 8) (number : UInt64) : Block :=
  let constants : Vector UInt32 4 := #v[0x61707865, 0x3320646e, 0x79622d32, 0x6b206574]
  let place : Vector UInt32 4 := #v[number.toUInt32, (number >>> 32).toUInt32, 0, 0]
  constants ++ key ++ place

/-- The block of the keystream with the given number. -/
def keystreamBlock (key : Vector UInt32 8) (number : UInt64) : Block :=
  let start := startingBlock key number
  (doubleRounds 6 start).zipWith (· + ·) start

end ChaCha

/-- A keystream: its key, the number of the next block, and what is left of the last one. -/
structure Keystream where
  key : Vector UInt32 8
  nextBlock : UInt64
  pending : List UInt32

namespace Keystream

/-- One step of the generator that stretches a seed. -/
def stretch (state : UInt64) : UInt64 := state * 6364136223846793005 + 11634580027462260723

/-- The state after the given number of steps. -/
def stretched : Nat → UInt64 → UInt64
  | 0, state => state
  | count + 1, state => stretched count (stretch state)

/-- The key word that a state of the generator gives: some middle bits, rotated by the
number that the highest bits spell. -/
def keyWord (state : UInt64) : UInt32 :=
  let middle := (((state >>> 18) ^^^ state) >>> 27).toUInt32
  let count := (state >>> 59).toUInt32
  middle >>> count ||| middle <<< ((32 - count) % 32)

/-- The keystream of a seed, from its first word on. -/
def ofSeed (seed : UInt64) : Keystream where
  key := Vector.ofFn fun index : Fin 8 => keyWord (stretched (index + 1) seed)
  nextBlock := 0
  pending := []

instance : RandomSource Keystream where
  next stream :=
    match stream.pending with
    | word :: rest => (word, { stream with pending := rest })
    | [] =>
      let block := ChaCha.keystreamBlock stream.key stream.nextBlock
      (block.get 0, { stream with
        nextBlock := stream.nextBlock + 1
        pending := block.toList.tail })

end Keystream

end ContextFree
