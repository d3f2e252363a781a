/-
# The Mersenne twister

A random source with a period of `2 ^ 19937 - 1`.  Its state is 624 words of 32 bits, filled from
the words of the seed's magnitude, the least significant first.  Each draw takes one or more
tempered words.

A whole number below `n` is drawn by taking as many bits as `n` has until they spell a number
below `n`; a double is made of 53 bits.
-/
import FormulaEvolution.Random.Source

namespace FormulaEvolution

/-- A Mersenne twister, with the seed it starts from. -/
structure Twister where
  seed : Int
  words : Array UInt32
  position : Nat
  deriving Repr

namespace Twister

/-! ## 1. Filling the state -/

/-- Words of the state. -/
def stateSize : Nat := 624

/-- Distance of the words that are combined. -/
def middleDistance : Nat := 397

/-- The state before the seed's words are mixed in. -/
def initialWords (start : UInt32) : Array UInt32 :=
  (List.range (stateSize - 1)).foldl (fun ws i =>
    let last := ws.getD i 0
    ws.push ((1812433253 : UInt32) * (last ^^^ (last >>> 30)) + UInt32.ofNat (i + 1))) #[start]

/-- A place in the state and what follows it: after the last word comes the second one, and the
first one takes over the value of the last. -/
def advance (ws : Array UInt32) (i : Nat) : Array UInt32 × Nat :=
  if i + 1 < stateSize then (ws, i + 1)
  else (ws.set! 0 (ws.getD (stateSize - 1) 0), 1)

/-- Mix one word of the key into the state. -/
def mixKey (key : Array UInt32) : Array UInt32 × Nat × Nat → Array UInt32 × Nat × Nat
  | (ws, i, j) =>
    let last := ws.getD (i - 1) 0
    let word := (ws.getD i 0 ^^^ ((last ^^^ (last >>> 30)) * 1664525)) + key.getD j 0 +
      UInt32.ofNat j
    let (ws, i) := advance (ws.set! i word) i
    (ws, i, if j + 1 < key.size then j + 1 else 0)

/-- Mix the state once more, without the key. -/
def mixRest : Array UInt32 × Nat → Array UInt32 × Nat
  | (ws, i) =>
    let last := ws.getD (i - 1) 0
    let word := (ws.getD i 0 ^^^ ((last ^^^ (last >>> 30)) * 1566083941)) - UInt32.ofNat i
    advance (ws.set! i word) i

/-- The words of a magnitude, the least significant first; zero has one word. -/
def keyWords : Nat → Nat → List UInt32
  | 0, _ => []
  | fuel + 1, n =>
    UInt32.ofNat (n % UInt32.size) ::
      (if n / UInt32.size = 0 then [] else keyWords fuel (n / UInt32.size))

/-- The state at the start of the sequence of a seed. -/
def seedWords (seed : Int) : Array UInt32 :=
  let key := (keyWords (seed.natAbs.log2 / 32 + 1) seed.natAbs).toArray
  let (ws, i, _) := Nat.repeat (mixKey key) (max stateSize key.size) (initialWords 19650218, 1, 0)
  let (ws, _) := Nat.repeat mixRest (stateSize - 1) (ws, i)
  ws.set! 0 0x80000000

/-- A generator at the start of the sequence of a seed. -/
def ofSeed (seed : Int) : Twister :=
  { seed, words := seedWords seed, position := stateSize }

/-! ## 2. Words -/

/-- Refresh one word of the state from its neighbour and a distant word. -/
def refreshWord (ws : Array UInt32) (i : Nat) : Array UInt32 :=
  let mixed := (ws.getD i 0 &&& 0x80000000) ||| (ws.getD ((i + 1) % stateSize) 0 &&& 0x7FFFFFFF)
  let far := ws.getD ((i + middleDistance) % stateSize) 0
  ws.set! i (far ^^^ (mixed >>> 1) ^^^ (if mixed &&& 1 = 0 then 0 else 0x9908B0DF))

/-- Refresh the whole state. -/
def refresh (ws : Array UInt32) : Array UInt32 := (List.range stateSize).foldl refreshWord ws

/-- Spread the bits of a word. -/
def temper (y : UInt32) : UInt32 :=
  let y := y ^^^ (y >>> 11)
  let y := y ^^^ ((y <<< 7) &&& 0x9D2C5680)
  let y := y ^^^ ((y <<< 15) &&& 0xEFC60000)
  y ^^^ (y >>> 18)

/-- The next word. -/
def nextWord (t : Twister) : UInt32 × Twister :=
  let (ws, i) := if t.position < stateSize then (t.words, t.position) else (refresh t.words, 0)
  (temper (ws.getD i 0), { t with words := ws, position := i + 1 })

/-! ## 3. Numbers -/

/-- A number of `k` bits, taken from words, the least significant first; of the last word the
high bits are taken. -/
def bits : Nat → Nat → Twister → Nat × Twister
  | 0, _, t => (0, t)
  | fuel + 1, k, t =>
    let (word, t) := t.nextWord
    if k ≤ 32 then (word.toNat >>> (32 - k), t)
    else
      let (high, t) := bits fuel (k - 32) t
      (word.toNat + high * UInt32.size, t)

/-- A number of `k` bits. -/
def takeBits (k : Nat) (t : Twister) : Nat × Twister := bits (k / 32 + 1) k t

/-- The next number of 31 bits. -/
def next (t : Twister) : Nat × Twister := t.takeBits 31

/-- How many bits a number has. -/
def bitCount (n : Nat) : Nat := if n = 0 then 0 else n.log2 + 1

/-- Tries that are made before a number is reduced instead of drawn again.  Each try succeeds
with a chance of more than one half. -/
def tries : Nat := 4096

/-- Draw numbers of `k` bits until one is below `n`. -/
def drawBelow (n k : Nat) (h : 0 < n) : Nat → Twister → Fin n × Twister
  | 0, t =>
    let (r, t) := t.takeBits k
    (⟨r % n, Nat.mod_lt r h⟩, t)
  | fuel + 1, t =>
    let (r, t) := t.takeBits k
    if hr : r < n then (⟨r, hr⟩, t) else drawBelow n k h fuel t

/-- The next double between zero and one: 27 bits and 26 bits over `2 ^ 53`. -/
def nextUnit (t : Twister) : Float × Twister :=
  let (a, t) := t.nextWord
  let (b, t) := t.nextWord
  let whole := (a >>> 5).toNat * 67108864 + (b >>> 6).toNat
  (whole.toFloat * (1.0 / 9007199254740992.0), t)

instance : RandomSource Twister where
  below n h t := drawBelow n (bitCount n) h tries t
  unit := nextUnit

/-! ## 4. Starting again -/

/-- Start the sequence again, from a new seed if one is given. -/
def reset (t : Twister) (seed? : Option Int) : Twister := ofSeed (seed?.getD t.seed)

/-- A copy starts from the seed and not from where the sequence stands. -/
def copy (t : Twister) : Twister := ofSeed t.seed

/-- How a generator is shown. -/
def describe (t : Twister) : String := "MersenneTwister(seed=" ++ toString t.seed ++ ")"

/-- A generator knows the seed it starts from. -/
@[simp] theorem seed_ofSeed (seed : Int) : (ofSeed seed).seed = seed := by
  simp only [ofSeed]

/-- A copy of a copy is the same copy: only the seed counts, not where the sequence stands. -/
theorem copy_copy (t : Twister) : t.copy.copy = t.copy := by
  simp only [copy, seed_ofSeed]

end Twister
end FormulaEvolution
