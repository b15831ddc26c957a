/-!
# Binary interchange formats

A floating point number is handled as its bit pattern, in single (32 bit) or double (64 bit)
precision.  Classification and order are computed on the pattern itself: the order of two numbers
is the order of their signed magnitudes.  Rounded arithmetic is the machine's, with one rule for
not-a-number operands stated here: the first such operand is returned made quiet, and an invalid
operation gives the default not-a-number, whose sign is set.
-/

set_option autoImplicit false

namespace LinearGP

/-- Width of a floating point number. -/
inductive Precision where
  | single
  | double
deriving DecidableEq

namespace Precision

@[reducible] def bits : Precision → Nat
  | single => 32
  | double => 64

/-- Explicit bits of the significand. -/
def fractionBits : Precision → Nat
  | single => 23
  | double => 52

/-- Magnitude of an infinity: the exponent is all ones.  Every larger magnitude is not a number. -/
def infinity : Precision → Nat
  | single => 0x7f800000
  | double => 0x7ff0000000000000

/-- The pattern without its sign. -/
def magnitude (p : Precision) (x : BitVec p.bits) : Nat := (x.setWidth (p.bits - 1)).toNat

def isNaN (p : Precision) (x : BitVec p.bits) : Bool := p.infinity < p.magnitude x

def isFinite (p : Precision) (x : BitVec p.bits) : Bool := p.magnitude x < p.infinity

/-- The magnitude with its sign; both zeros have the same key. -/
def key (p : Precision) (x : BitVec p.bits) : Int :=
  if x.msb then -(p.magnitude x : Int) else p.magnitude x

/-- The numeric order.  Nothing is less than, or greater than, what is not a number. -/
def less (p : Precision) (x y : BitVec p.bits) : Bool :=
  !p.isNaN x && !p.isNaN y && p.key x < p.key y

/-- Set the top bit of the fraction, which marks a quiet not-a-number. -/
def quiet (p : Precision) (x : BitVec p.bits) : BitVec p.bits :=
  x ||| BitVec.twoPow p.bits (p.fractionBits - 1)

/-- The result of an invalid operation: quiet and with its sign set. -/
def defaultNaN : (p : Precision) → BitVec p.bits
  | single => 0xffc00000#32
  | double => 0xfff8000000000000#64

def abs (p : Precision) (x : BitVec p.bits) : BitVec p.bits :=
  BitVec.ofNat p.bits (p.magnitude x)

/-- An operation of the machine on two patterns. -/
def machine (single : Float32 → Float32 → Float32) (double : Float → Float → Float) :
    (p : Precision) → BitVec p.bits → BitVec p.bits → BitVec p.bits
  | .single, x, y => (single (.ofBits ⟨x⟩) (.ofBits ⟨y⟩)).toBits.toBitVec
  | .double, x, y => (double (.ofBits ⟨x⟩) (.ofBits ⟨y⟩)).toBits.toBitVec

/-- A machine operation under the rule for operands and results that are not numbers. -/
def arithmetic (single : Float32 → Float32 → Float32) (double : Float → Float → Float)
    (p : Precision) (x y : BitVec p.bits) : BitVec p.bits :=
  if p.isNaN x then p.quiet x
  else if p.isNaN y then p.quiet y
  else
    let result := machine single double p x y
    if p.isNaN result then p.defaultNaN else result

/-- Sum, rounded to the nearest even. -/
def add : (p : Precision) → BitVec p.bits → BitVec p.bits → BitVec p.bits :=
  arithmetic Float32.add Float.add

def sub : (p : Precision) → BitVec p.bits → BitVec p.bits → BitVec p.bits :=
  arithmetic Float32.sub Float.sub

def mul : (p : Precision) → BitVec p.bits → BitVec p.bits → BitVec p.bits :=
  arithmetic Float32.mul Float.mul

def div : (p : Precision) → BitVec p.bits → BitVec p.bits → BitVec p.bits :=
  arithmetic Float32.div Float.div

/-- The lesser operand; the second one when they compare equal or not at all. -/
def min (p : Precision) (x y : BitVec p.bits) : BitVec p.bits := if p.less x y then x else y

/-- The greater operand; the second one when they compare equal or not at all. -/
def max (p : Precision) (x y : BitVec p.bits) : BitVec p.bits := if p.less y x then x else y

/-- Square root, rounded to the nearest even.  Numbers below zero have none. -/
def sqrt (p : Precision) (x : BitVec p.bits) : BitVec p.bits :=
  arithmetic (fun a _ => a.sqrt) (fun a _ => a.sqrt) p x x

end Precision

end LinearGP
