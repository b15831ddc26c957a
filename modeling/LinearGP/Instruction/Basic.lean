import LinearGP.Access
import LinearGP.Ieee.Precision

/-!
# Instructions

The concrete machine instructions that programs are made of, operands included.  All of them work
on registers only.
-/

set_option autoImplicit false

namespace LinearGP

/-- Two operand integer operations. -/
inductive IntOp where
  | mov
  | add
  | sub
  | imul
  | and
  | or
  | xor
deriving DecidableEq

/-- Integer operations on a single register. -/
inductive UnaryOp where
  | neg
  | not
  | inc
  | dec
deriving DecidableEq

/-- Operations that count bits. -/
inductive BitCountOp where
  | popcnt
  | lzcnt
  | tzcnt
deriving DecidableEq

/-- The instruction set extensions that a machine may have or lack. -/
structure Host where
  popcnt : Bool
  lzcnt : Bool
  bmi1 : Bool
deriving DecidableEq

/-- A machine with all of them. -/
def Host.full : Host := ⟨true, true, true⟩

/-- Floating point arithmetic. -/
inductive FloatOp where
  | add
  | sub
  | mul
  | div
  | min
  | max
  | sqrt
deriving DecidableEq

/-- Which part of a vector register an instruction works on: its lowest number, or all of them. -/
structure FloatForm where
  precision : Precision
  packed : Bool
deriving DecidableEq

namespace FloatForm

def all : List FloatForm :=
  [⟨.single, false⟩, ⟨.double, false⟩, ⟨.single, true⟩, ⟨.double, true⟩]

/-- Numbers that are worked on. -/
def lanes (form : FloatForm) : Nat := if form.packed then 128 / form.precision.bits else 1

def range : FloatForm → BitRange
  | ⟨.single, false⟩ => .low32
  | ⟨.double, false⟩ => .low64
  | ⟨_, true⟩ => .low128

/-- The letters that end the name of an instruction of this form. -/
def suffix : FloatForm → String
  | ⟨.single, false⟩ => "ss"
  | ⟨.double, false⟩ => "sd"
  | ⟨.single, true⟩ => "ps"
  | ⟨.double, true⟩ => "pd"

def ofSuffix? (suffix : String) : Option FloatForm := all.find? (·.suffix = suffix)

end FloatForm

/-- One machine instruction. -/
inductive Instruction where
  | nop
  /-- `op dst, src` on whole general purpose registers. -/
  | int (op : IntOp) (dst src : Gpr)
  /-- `op reg` on a whole general purpose register. -/
  | unary (op : UnaryOp) (reg : Gpr)
  /-- `op dst, src` that counts bits of `src`. -/
  | bitCount (op : BitCountOp) (dst src : Gpr)
  /-- Unsigned division of `rdx:rax` by `src`.  A guarded division clears `rdx` first and is skipped
  when the divisor is zero. -/
  | div (src : Gpr) (guarded : Bool)
  /-- `op dst, src` on numbers in vector registers. -/
  | float (op : FloatOp) (form : FloatForm) (dst src : Xmm)
  /-- Copy a whole vector register. -/
  | moveAll (dst src : Xmm)
  /-- Copy the lowest number of a vector register, leaving the rest of `dst`. -/
  | moveLow (form : FloatForm) (dst src : Xmm)
deriving DecidableEq

namespace Instruction

/-- Only an unguarded division can stop the machine. -/
def isUnsafe : Instruction → Bool
  | div _ guarded => !guarded
  | _ => false

/-- The machine has what the instruction needs.  Only counting bits takes extensions, one for each way
to count. -/
def isSupported (host : Host) : Instruction → Bool
  | bitCount .popcnt _ _ => host.popcnt
  | bitCount .lzcnt _ _ => host.lzcnt
  | bitCount .tzcnt _ _ => host.bmi1
  | _ => true

/-- Lowest bits copied by a `moveLow`: a single number, or else a double one. -/
def moveLowBits (form : FloatForm) : Nat := if form = ⟨.single, false⟩ then 32 else 64

end Instruction

end LinearGP
