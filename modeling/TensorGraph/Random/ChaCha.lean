/-!
# A seeded generator

The stream of words of the ChaCha cipher with twelve rounds, whose key is drawn from a seed of 64
bits by a linear congruential generator with permuted output.

- `ChaCha.keyOfSeed`: the eight words of the key.
- `ChaCha.block`: the sixteen words of the stream for one value of the block counter.
- `ChaCha.words`: the first words of the stream.
-/

namespace TensorGraph.ChaCha

/-- The bits of a word moved up by `n`, those pushed out coming back below. -/
def rotateLeft (x n : UInt32) : UInt32 := (x <<< n) ||| (x >>> (32 - n))

/-- The next state of the generator that draws the key. -/
def nextState (s : UInt64) : UInt64 := s * 6364136223846793005 + 11634580027462260723

/-- The word that a state of the generator gives out: its middle bits, rotated by its highest. -/
def output (s : UInt64) : UInt32 :=
  let x := (((s >>> 18) ^^^ s) >>> 27).toUInt32
  let n := (s >>> 59).toUInt32
  if n = 0 then x else (x >>> n) ||| (x <<< (32 - n))

/-- `n` words drawn after the state `s`. -/
def drawWords : Nat → UInt64 → List UInt32
  | 0, _ => []
  | n + 1, s => output (nextState s) :: drawWords n (nextState s)

/-- The key for a seed. -/
def keyOfSeed (seed : UInt64) : List UInt32 := drawWords 8 seed

/-- The state of the cipher: sixteen words. -/
abbrev Words := Vector UInt32 16

/-- One step on four words of the state. -/
def quarterRound (w : Words) (a b c d : Fin 16) : Words :=
  let w := w.set a (w[a] + w[b])
  let w := w.set d (rotateLeft (w[d] ^^^ w[a]) 16)
  let w := w.set c (w[c] + w[d])
  let w := w.set b (rotateLeft (w[b] ^^^ w[c]) 12)
  let w := w.set a (w[a] + w[b])
  let w := w.set d (rotateLeft (w[d] ^^^ w[a]) 8)
  let w := w.set c (w[c] + w[d])
  w.set b (rotateLeft (w[b] ^^^ w[c]) 7)

/-- A round on the columns and one on the diagonals. -/
def doubleRound (w : Words) : Words :=
  let w := quarterRound w 0 4 8 12
  let w := quarterRound w 1 5 9 13
  let w := quarterRound w 2 6 10 14
  let w := quarterRound w 3 7 11 15
  let w := quarterRound w 0 5 10 15
  let w := quarterRound w 1 6 11 12
  let w := quarterRound w 2 7 8 13
  quarterRound w 3 4 9 14

/-- The state before the rounds: four fixed words, the key, the block counter and two zeros. -/
def initialWords (key : List UInt32) (counter : UInt64) : Words :=
  let words : List UInt32 := 0x61707865 :: 0x3320646e :: 0x79622d32 :: 0x6b206574
    :: (key ++ [counter.toUInt32, (counter >>> 32).toUInt32, 0, 0])
  Vector.ofFn fun i => words.getD i 0

/-- The words of the stream for one value of the block counter. -/
def block (key : List UInt32) (counter : UInt64) : Words :=
  let before := initialWords key counter
  before.zipWith (· + ·) (Nat.repeat doubleRound 6 before)

/-- The first `n` words of the stream for a seed. -/
def words (seed : UInt64) (n : Nat) : Array UInt32 :=
  let key := keyOfSeed seed
  let blocks := (Array.range ((n + 15) / 16)).flatMap fun i => (block key i.toUInt64).toArray
  blocks.take n

end TensorGraph.ChaCha
