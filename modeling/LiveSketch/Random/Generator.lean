/-!
# The generator of random words

A generator is a key and a place in the endless stream of 32-bit words that the key determines. The
stream consists of the blocks of a ChaCha permutation with twelve rounds, in the order of the block
counter, sixteen words a block.

* `Generator.ofSeed` spreads a 64-bit seed over the key.
* `Generator.word` takes one word, `Generator.doubleWord` two, the low one first.

A generator is a value: what it yields depends on the key and the place alone.
-/
namespace LiveSketch.Random

/-- A place in the stream of a key. -/
structure Generator where
  key : Vector UInt32 8
  /-- The number of words taken so far. -/
  position : Nat
  deriving DecidableEq, Repr

/-- The sixteen words that a block is computed in. -/
abbrev Block := Vector UInt32 16

/-- `w` rotated left by `n` bits, for `0 < n < 32`. -/
def rotateLeft (w n : UInt32) : UInt32 := (w <<< n) ||| (w >>> (32 - n))

/-- Mixes four words of a block. -/
def quarterRound (s : Block) (a b c d : Fin 16) : Block :=
  let wa := s[a] + s[b]
  let wd := rotateLeft (s[d] ^^^ wa) 16
  let wc := s[c] + wd
  let wb := rotateLeft (s[b] ^^^ wc) 12
  let wa := wa + wb
  let wd := rotateLeft (wd ^^^ wa) 8
  let wc := wc + wd
  let wb := rotateLeft (wb ^^^ wc) 7
  (((s.set a wa).set b wb).set c wc).set d wd

/-- One round down the columns and one along the diagonals. -/
def twoRounds (s : Block) : Block :=
  let s := quarterRound s 0 4 8 12
  let s := quarterRound s 1 5 9 13
  let s := quarterRound s 2 6 10 14
  let s := quarterRound s 3 7 11 15
  let s := quarterRound s 0 5 10 15
  let s := quarterRound s 1 6 11 12
  let s := quarterRound s 2 7 8 13
  quarterRound s 3 4 9 14

/-- The block with this number: twelve rounds on the constants, the key and the counter, then the
start added again. -/
def block (key : Vector UInt32 8) (counter : UInt64) : Block :=
  let start : Block := #v[0x61707865, 0x3320646e, 0x79622d32, 0x6b206574,
    key[0], key[1], key[2], key[3], key[4], key[5], key[6], key[7],
    counter.toUInt32, (counter >>> 32).toUInt32, 0, 0]
  let mixed := twoRounds (twoRounds (twoRounds (twoRounds (twoRounds (twoRounds start)))))
  mixed.zipWith (· + ·) start

namespace Generator

/-- The word at place `n` of the stream of a key. -/
def wordAt (key : Vector UInt32 8) (n : Nat) : UInt32 :=
  (block key (UInt64.ofNat (n / 16))).get ⟨n % 16, Nat.mod_lt n (by decide)⟩

/-- Takes one word. -/
def word (g : Generator) : UInt32 × Generator :=
  (wordAt g.key g.position, { g with position := g.position + 1 })

/-- Takes two words, the low one first. -/
def doubleWord (g : Generator) : UInt64 × Generator :=
  let (low, g) := g.word
  let (high, g) := g.word
  ((high.toUInt64 <<< 32) ||| low.toUInt64, g)

/-- One step of the sequence that the key of a seed is made of. -/
def spread (s : UInt64) : UInt64 := s * 6364136223846793005 + 11634580027462260723

/-- The key word that a state of that sequence yields. -/
def keyWord (s : UInt64) : UInt32 :=
  let x := (((s >>> 18) ^^^ s) >>> 27).toUInt32
  let n := (s >>> 59).toUInt32
  (x >>> n) ||| (x <<< ((32 - n) % 32))

/-- The first `n` states of the sequence from a seed. -/
def spreads : Nat → UInt64 → List UInt64
  | 0, _ => []
  | n + 1, s => spread s :: spreads n (spread s)

/-- The generator of a seed, at the start of its stream. -/
def ofSeed (seed : UInt64) : Generator :=
  let words := (spreads 8 seed).map keyWord
  { key := Vector.ofFn fun i => words.getD i 0, position := 0 }

end Generator

end LiveSketch.Random
