/-!
# The keystream of seeded searches

ChaCha with twelve rounds, an eight-word key, a 64-bit block counter and stream number zero. The key is expanded from a
64-bit seed by a linear congruential generator with a permuted output.

* `Keystream.keyOfSeed` : the key of a seed;
* `Keystream.block` : the sixteen words of one block.
-/

namespace CoverSearch.Keystream

abbrev Word := UInt32

/-! ## Key -/

def rotateLeft (x : Word) (n : Word) : Word := (x <<< n) ||| (x >>> (32 - n))

def rotateRight (x : Word) (n : Word) : Word := (x >>> n) ||| (x <<< (32 - n))

/-- The next state of the key generator. -/
def advance (s : UInt64) : UInt64 := s * 6364136223846793005 + 11634580027462260723

/-- The output for a state: the high bits folded into 32 bits, rotated by the highest ones. -/
def output (s : UInt64) : Word := rotateRight (((s >>> 18) ^^^ s) >>> 27).toUInt32 (s >>> 59).toUInt32

/-- The next `n` key words after a state. -/
def keyWords (s : UInt64) : Nat → List Word
  | 0 => []
  | n + 1 => output (advance s) :: keyWords (advance s) n

def keyOfSeed (seed : UInt64) : List Word := keyWords seed 8

/-! ## Block -/

/-- The sixteen words that a block is computed on. -/
abbrev State := Vector Word 16

/-- One column or diagonal, by the positions of its four words. -/
def quarterRound (s : State) (i j k l : Fin 16) : State :=
  let a := s[i] + s[j]
  let d := rotateLeft (s[l] ^^^ a) 16
  let c := s[k] + d
  let b := rotateLeft (s[j] ^^^ c) 12
  let a := a + b
  let d := rotateLeft (d ^^^ a) 8
  let c := c + d
  let b := rotateLeft (b ^^^ c) 7
  (((s.set i a).set j b).set k c).set l d

/-- Four columns, then four diagonals. -/
def doubleRound (s : State) : State :=
  let s := quarterRound s 0 4 8 12
  let s := quarterRound s 1 5 9 13
  let s := quarterRound s 2 6 10 14
  let s := quarterRound s 3 7 11 15
  let s := quarterRound s 0 5 10 15
  let s := quarterRound s 1 6 11 12
  let s := quarterRound s 2 7 8 13
  quarterRound s 3 4 9 14

/-- The constants, the key, the counter and the stream number. -/
def initial (key : List Word) (counter : UInt64) : State :=
  #v[0x61707865, 0x3320646e, 0x79622d32, 0x6b206574,
    key.getD 0 0, key.getD 1 0, key.getD 2 0, key.getD 3 0,
    key.getD 4 0, key.getD 5 0, key.getD 6 0, key.getD 7 0,
    counter.toUInt32, (counter >>> 32).toUInt32, 0, 0]

/-- The words of the block with the given counter. -/
def block (key : List Word) (counter : UInt64) : List Word :=
  let start := initial key counter
  let mixed := (List.range 6).foldl (fun s _ => doubleRound s) start
  (start.zipWith (· + ·) mixed).toList

end CoverSearch.Keystream
