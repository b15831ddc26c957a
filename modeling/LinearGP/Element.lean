import LinearGP.Ieee.Binary64

/-!
# Sample elements

Samples are made of one of four numeric types.  A value is its bit pattern, of the width of its
type; `ElementKind.toDouble` and `ElementKind.distance` read the pattern as the number it stands
for.
-/

set_option autoImplicit false

namespace LinearGP

/-- The numeric types that samples can be made of. -/
inductive ElementKind where
  | f32
  | f64
  | i32
  | i64
deriving DecidableEq

namespace ElementKind

/-- Bytes of a vector register. -/
def vectorBytes : Nat := 16

@[reducible] def bits : ElementKind → Nat
  | f32 => 32
  | f64 => 64
  | i32 => 32
  | i64 => 64

def size : ElementKind → Nat
  | f32 => 4
  | f64 => 8
  | i32 => 4
  | i64 => 8

/-- Floating point values live in vector registers, integers in general purpose ones. -/
def isFloat : ElementKind → Bool
  | f32 => true
  | f64 => true
  | i32 => false
  | i64 => false

/-- Values that fit in one vector register. -/
def lanes (k : ElementKind) : Nat := vectorBytes / k.size

def name : ElementKind → String
  | f32 => "F32"
  | f64 => "F64"
  | i32 => "I32"
  | i64 => "I64"

/-- A value of the type, as its bit pattern. -/
abbrev Value (k : ElementKind) := BitVec k.bits

/-- The double nearest to the number a value stands for. -/
def toDouble : (k : ElementKind) → k.Value → Binary64
  | f32, x => .ofSingle x
  | f64, x => ⟨x⟩
  | i32, x => .ofInt x.toInt
  | i64, x => .ofInt x.toInt

/-- The absolute difference of two values.  Integers are subtracted exactly and rounded once;
floating point values are subtracted as doubles. -/
def distance : (k : ElementKind) → k.Value → k.Value → Binary64
  | f32, x, y => ((Binary64.ofSingle x).sub (.ofSingle y)).abs
  | f64, x, y => (Binary64.sub ⟨x⟩ ⟨y⟩).abs
  | i32, x, y => .ofNat (x.toInt - y.toInt).natAbs
  | i64, x, y => .ofNat (x.toInt - y.toInt).natAbs

/-- A vector register is exactly filled. -/
theorem lanes_mul_bits (k : ElementKind) : k.lanes * k.bits = 128 := by cases k <;> rfl

end ElementKind

end LinearGP
