import LinearGP.Ieee.Precision

/-!
# Double precision numbers

`Binary64` is the type of losses, rates and ratios.  Besides the numeric order it has a total order
that tells all patterns apart, and exact conversions to natural numbers: a finite number that is
not negative is `significand * 2 ^ exponent`.
-/

set_option autoImplicit false

namespace LinearGP

/-- A double precision number, given by its bit pattern. -/
@[ext] structure Binary64 where
  bits : BitVec 64
deriving DecidableEq

namespace Binary64

def zero : Binary64 := ⟨0⟩

def one : Binary64 := ⟨0x3ff0000000000000#64⟩

def infinity : Binary64 := ⟨0x7ff0000000000000#64⟩

instance : Inhabited Binary64 := ⟨zero⟩

def isNaN (x : Binary64) : Bool := Precision.double.isNaN x.bits

def isFinite (x : Binary64) : Bool := Precision.double.isFinite x.bits

/-- The numeric order. -/
def less (x y : Binary64) : Bool := Precision.double.less x.bits y.bits

/-- At most, in the numeric order; false when either side is not a number. -/
def atMost (x y : Binary64) : Bool := !x.isNaN && !y.isNaN && !y.less x

/-- A number between zero and one. -/
def isChance (x : Binary64) : Bool := zero.atMost x && x.atMost one

/-- Position in the total order of patterns, which puts negative zero below positive zero and what
is not a number at the two ends. -/
def totalKey (x : Binary64) : Int :=
  if x.bits.msb then -(Precision.double.magnitude x.bits : Int) - 1
  else Precision.double.magnitude x.bits

def add (x y : Binary64) : Binary64 := ⟨Precision.double.add x.bits y.bits⟩

def sub (x y : Binary64) : Binary64 := ⟨Precision.double.sub x.bits y.bits⟩

def mul (x y : Binary64) : Binary64 := ⟨Precision.double.mul x.bits y.bits⟩

def abs (x : Binary64) : Binary64 := ⟨Precision.double.abs x.bits⟩

/-- The number nearest to a natural number below `2 ^ 64`, ties to even. -/
def ofNat (n : Nat) : Binary64 := ⟨(UInt64.ofNat n).toFloat.toBits.toBitVec⟩

/-- The number nearest to an integer whose magnitude is below `2 ^ 64`, ties to even. -/
def ofInt (n : Int) : Binary64 :=
  if n < 0 then ⟨(ofNat n.natAbs).bits ||| BitVec.twoPow 64 63⟩ else ofNat n.natAbs

/-- The same number as a single precision pattern.  Every such number is exact: a fraction only
gains low zeros, and a subnormal one is shifted until its leading bit becomes the implicit one. -/
def ofSingle (x : BitVec 32) : Binary64 :=
  let exponent := (x.extractLsb' 23 8).toNat
  let fraction := (x.setWidth 23).toNat
  let magnitude :=
    if exponent = 255 then (2047 <<< 52) + (fraction <<< 29)
    else if exponent = 0 then
      if fraction = 0 then 0
      else ((873 + fraction.log2) <<< 52) + (fraction <<< (52 - fraction.log2))
    else ((exponent + 896) <<< 52) + (fraction <<< 29)
  let positive := BitVec.ofNat 64 magnitude
  ⟨if x.msb then positive ||| BitVec.twoPow 64 63 else positive⟩

def biasedExponent (x : Binary64) : Nat := (x.bits.extractLsb' 52 11).toNat

/-- The significand as a whole number, with its implicit bit. -/
def significand (x : Binary64) : Nat :=
  (x.bits.setWidth 52).toNat + (if x.biasedExponent = 0 then 0 else 1 <<< 52)

/-- The power of two that scales the significand. -/
def exponent (x : Binary64) : Int := (Max.max x.biasedExponent 1 : Nat) - 1075

/-- The largest whole number not above `x * 2 ^ shift`, for a finite `x` that is not negative. -/
def floorScaled (x : Binary64) (shift : Nat) : Nat :=
  let e := x.exponent + shift
  if 0 ≤ e then x.significand <<< e.toNat else x.significand >>> (-e).toNat

/-- The least whole number not below `x`, for a finite `x` that is not negative. -/
def ceil (x : Binary64) : Nat :=
  let e := x.exponent
  if 0 ≤ e then x.significand <<< e.toNat
  else (x.significand + ((1 <<< (-e).toNat) - 1)) >>> (-e).toNat

end Binary64

end LinearGP
