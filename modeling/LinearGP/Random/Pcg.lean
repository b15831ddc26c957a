import LinearGP.Random.Source

/-!
# A permuted congruential generator

The state is a 128 bit congruential generator; a word of output is the exclusive or of its two
halves, rotated by its top six bits.  Bounded draws multiply a word by the bound and take the high
half, and reject words whose low half lies above a zone, so that every result is as likely.
-/

set_option autoImplicit false

namespace LinearGP

/-- The state of the generator and its odd increment. -/
structure Pcg64 where
  state : BitVec 128
  increment : BitVec 128
deriving DecidableEq

namespace Pcg64

def multiplier : BitVec 128 := 0x2360ED051FC65DA44385DF649FCCF645#128

def step (g : Pcg64) : Pcg64 := { g with state := g.state * multiplier + g.increment }

/-- The next 64 bit word. -/
def nextWord (g : Pcg64) : BitVec 64 × Pcg64 :=
  let g := g.step
  let folded := g.state.extractLsb' 64 64 ^^^ g.state.extractLsb' 0 64
  (folded.rotateRight (g.state.extractLsb' 122 6).toNat, g)

/-- The next 32 bit word: the low half of a word. -/
def nextHalf (g : Pcg64) : BitVec 32 × Pcg64 :=
  let (word, g) := g.nextWord
  (word.setWidth 32, g)

/-- Spread a 64 bit seed over `count` words of 32 bits, by a small generator of the same kind. -/
def seedWords : Nat → BitVec 64 → List (BitVec 32)
  | 0, _ => []
  | count + 1, seed =>
    let seed := seed * 6364136223846793005#64 + 11634580027462260723#64
    let folded : BitVec 32 := (((seed >>> 18) ^^^ seed) >>> 27).setWidth 32
    folded.rotateRight (seed >>> 59).toNat :: seedWords count seed

/-- The number whose 32 bit digits are the given words, lowest first. -/
def ofDigits (words : List (BitVec 32)) : BitVec 128 :=
  words.foldr (fun word high => high <<< 32 ||| word.setWidth 128) 0

/-- The generator of a seed. -/
def ofSeed (seed : BitVec 64) : Pcg64 :=
  let words := seedWords 8 seed
  let increment := ofDigits (words.drop 4) ||| 1
  step { state := ofDigits (words.take 4) + increment, increment }

/-- Words that a bounded draw rejects before it settles for the lowest result.  A word is rejected
with a chance of one half at most. -/
def patience : Nat := 1000

/-- A result below `bound`: the high half of the first product of a word and the bound whose low
half is in the zone. -/
def reduce {width : Nat} (word : Pcg64 → BitVec width × Pcg64) (bound zone : Nat) :
    Nat → Pcg64 → Nat × Pcg64
  | 0, g => (0, g)
  | tries + 1, g =>
    let (v, g) := word g
    let product := v.toNat * bound
    if (BitVec.ofNat width product).toNat ≤ zone then (product >>> width, g)
    else reduce word bound zone tries g

/-- A word that is reduced to a bound is below it, also when all tries are rejected. -/
theorem reduce_lt {width : Nat} (word : Pcg64 → BitVec width × Pcg64) (bound zone tries : Nat)
    (g : Pcg64) (positive : 0 < bound) : (reduce word bound zone tries g).1 < bound := by
  induction tries generalizing g with
  | zero => exact positive
  | succ tries ih =>
    simp only [reduce]
    split
    · simp only [Nat.shiftRight_eq_div_pow]
      apply Nat.div_lt_of_lt_mul
      exact Nat.mul_lt_mul_of_pos_right (word g).1.isLt positive
    · exact ih _

/-- An index below a bound. -/
def index (bound : Nat) (g : Pcg64) : Nat × Pcg64 :=
  let zone := (bound <<< (63 - bound.log2)) - 1
  reduce nextWord bound zone patience g

/-- A drawn index is below its bound. -/
theorem index_lt (bound : Nat) (g : Pcg64) (positive : 0 < bound) :
    (index bound g).1 < bound := by
  rw [index]
  exact reduce_lt nextWord bound _ patience g positive

/-- The largest low half of a product that an opcode draw accepts. -/
def opcodeZone (range : Nat) : Nat := 0xffffffff - (0x100000000 - range) % range

/-- An opcode from a half open range, within a number of words. -/
def opcodeWithin (tries : Nat) (low high : Opcode) (g : Pcg64) : Opcode × Pcg64 :=
  let range := high.toNat - low.toNat
  let drawn := reduce nextHalf range (opcodeZone range) tries g
  (UInt16.ofNat (low.toNat + drawn.1), drawn.2)

/-- An opcode from a half open range. -/
def opcode (low high : Opcode) (g : Pcg64) : Opcode × Pcg64 := opcodeWithin patience low high g

/-- An offset below the length of a range of opcodes leads into the range. -/
theorem offset_mem {low high : Opcode} {offset : Nat} (h : offset < high.toNat - low.toNat) :
    low ≤ UInt16.ofNat (low.toNat + offset) ∧ UInt16.ofNat (low.toNat + offset) < high := by
  have hhigh : high.toNat < 2 ^ 16 := high.toNat_lt
  have hvalue : (UInt16.ofNat (low.toNat + offset)).toNat = low.toNat + offset :=
    UInt16.toNat_ofNat_of_lt' (by simp only [UInt16.size]; omega)
  constructor
  · rw [UInt16.le_iff_toNat_le, hvalue]
    omega
  · rw [UInt16.lt_iff_toNat_lt, hvalue]
    omega

/-- Drawn opcodes stay in their range, whatever the number of words. -/
theorem opcodeWithin_mem (tries : Nat) (low high : Opcode) (g : Pcg64) (h : low < high) :
    low ≤ (opcodeWithin tries low high g).1 ∧ (opcodeWithin tries low high g).1 < high := by
  have hlt : low.toNat < high.toNat := UInt16.lt_iff_toNat_lt.mp h
  exact offset_mem (reduce_lt nextHalf _ _ tries g (by omega))

/-- A drawn opcode is within its bounds. -/
theorem opcode_mem (low high : Opcode) (g : Pcg64) (h : low < high) :
    low ≤ (opcode low high g).1 ∧ (opcode low high g).1 < high :=
  opcodeWithin_mem patience low high g h

/-- A coin.  A certain one is not drawn for. -/
def coin (chance : Binary64) (g : Pcg64) : Bool × Pcg64 :=
  if chance = .one then (true, g)
  else
    let (word, g) := g.nextWord
    (word.toNat < chance.floorScaled 64, g)

instance : DrawSource Pcg64 where
  index := index
  opcode := opcode
  coin := coin
  index_lt := index_lt
  opcode_mem := opcode_mem

end Pcg64

end LinearGP
