import EntityScript.Decimal.Binary32

/-!
The sequence of random numbers behind `random`. A seed is stretched to a key of eight words, and the
key determines an endless sequence of words, the blocks of a ChaCha stream of twelve rounds one after
the other. A number between 0 and 1 is made from the upper bits of a word.
-/

namespace EntityScript

/-- A generator: its key, and how many words were drawn. -/
structure Generator where
  key : Vector UInt32 8
  drawn : Nat
deriving DecidableEq, Repr

namespace Generator

def rotateLeft (x : UInt32) (n : UInt32) : UInt32 := (x <<< n) ||| (x >>> (32 - n))

def rotateRight (x : UInt32) (n : UInt32) : UInt32 :=
  if n = 0 then x else (x >>> n) ||| (x <<< (32 - n))

/-- The state from which key words are made, one step on. -/
def stretch (state : UInt64) : UInt64 := state * 6364136223846793005 + 11634580027462260723

def keyWord (state : UInt64) : UInt32 :=
  rotateRight (((state >>> 18) ^^^ state) >>> 27).toUInt32 (state >>> 59).toUInt32

def stateAt (seed : UInt64) : Nat → UInt64
  | 0 => seed
  | n + 1 => stretch (stateAt seed n)

def ofSeed (seed : Nat) : Generator :=
  ⟨Vector.ofFn fun i => keyWord (stateAt (UInt64.ofNat seed) (i.val + 1)), 0⟩

/-- A block of the stream, or the state it is made from. -/
abbrev Block := Vector UInt32 16

def initialBlock (key : Vector UInt32 8) (n : Nat) : Block :=
  #v[0x61707865, 0x3320646e, 0x79622d32, 0x6b206574,
    key[0], key[1], key[2], key[3], key[4], key[5], key[6], key[7],
    UInt32.ofNat n, UInt32.ofNat (n / UInt32.size), 0, 0]

def quarterRound (b : Block) (i j k l : Fin 16) : Block :=
  let b := b.set i (b[i] + b[j])
  let b := b.set l (rotateLeft (b[l] ^^^ b[i]) 16)
  let b := b.set k (b[k] + b[l])
  let b := b.set j (rotateLeft (b[j] ^^^ b[k]) 12)
  let b := b.set i (b[i] + b[j])
  let b := b.set l (rotateLeft (b[l] ^^^ b[i]) 8)
  let b := b.set k (b[k] + b[l])
  b.set j (rotateLeft (b[j] ^^^ b[k]) 7)

def doubleRound (b : Block) : Block :=
  let b := quarterRound b 0 4 8 12
  let b := quarterRound b 1 5 9 13
  let b := quarterRound b 2 6 10 14
  let b := quarterRound b 3 7 11 15
  let b := quarterRound b 0 5 10 15
  let b := quarterRound b 1 6 11 12
  let b := quarterRound b 2 7 8 13
  quarterRound b 3 4 9 14

def blockAt (key : Vector UInt32 8) (n : Nat) : Block :=
  let initial := initialBlock key n
  (Nat.repeat doubleRound 6 initial).zipWith (· + ·) initial

def wordAt (key : Vector UInt32 8) (n : Nat) : UInt32 :=
  (blockAt key (n / 16)).get ⟨n % 16, Nat.mod_lt n (by decide)⟩

/-- The next number, at least 0 and below 1, and the generator after it. -/
def next (g : Generator) : Float32 × Generator :=
  let word := wordAt g.key g.drawn
  (Binary32.nearest false (word >>> 8).toNat (Binary32.pow2 24), { g with drawn := g.drawn + 1 })

end Generator

end EntityScript
