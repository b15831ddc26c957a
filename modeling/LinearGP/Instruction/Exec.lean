import LinearGP.Instruction.Basic
import LinearGP.Lane
import LinearGP.Registers

/-!
# What instructions do

`Instruction.exec` gives the register file after an instruction, or nothing when a division stops
the machine.  Integer instructions work on 64 bits and wrap.  Floating point instructions work lane
by lane and leave the bits that their form does not cover.  This is the documented meaning of an
instruction; a machine that lacks the instruction does not promise it.
-/

set_option autoImplicit false

namespace LinearGP

def IntOp.apply : IntOp → BitVec 64 → BitVec 64 → BitVec 64
  | mov, _, y => y
  | add, x, y => x + y
  | sub, x, y => x - y
  | imul, x, y => x * y
  | and, x, y => x &&& y
  | or, x, y => x ||| y
  | xor, x, y => x ^^^ y

def UnaryOp.apply : UnaryOp → BitVec 64 → BitVec 64
  | neg, x => -x
  | not, x => ~~~x
  | inc, x => x + 1
  | dec, x => x - 1

/-- The number of set bits, of leading zeros, or of trailing zeros. -/
def BitCountOp.apply : BitCountOp → BitVec 64 → BitVec 64
  | popcnt, x => x.cpop
  | lzcnt, x => x.clz
  | tzcnt, x => x.ctz

/-- The result of a floating point operation.  A square root does not depend on the destination. -/
def FloatOp.apply (p : Precision) : FloatOp → BitVec p.bits → BitVec p.bits → BitVec p.bits
  | add, x, y => p.add x y
  | sub, x, y => p.sub x y
  | mul, x, y => p.mul x y
  | div, x, y => p.div x y
  | min, x, y => p.min x y
  | max, x, y => p.max x y
  | sqrt, _, y => p.sqrt y

namespace Registers

/-- Divide `rdx:rax`, leaving the quotient in `rax` and the remainder in `rdx`.  Stops the machine
when the divisor is zero or the quotient does not fit. -/
def divide (s : Registers) (divisor : BitVec 64) : Option Registers :=
  let dividend := (s.rdx ++ s.rax).toNat
  if divisor = 0 ∨ 0x10000000000000000 ≤ dividend / divisor.toNat then none
  else some { s with
    rax := BitVec.ofNat 64 (dividend / divisor.toNat)
    rdx := BitVec.ofNat 64 (dividend % divisor.toNat) }

/-- Apply an operation to every lane that a form covers. -/
def floatLanes (s : Registers) (op : FloatOp) (form : FloatForm) (dst src : Xmm) : BitVec 128 :=
  setLanes (s.xmm dst) form.lanes fun i =>
    op.apply form.precision (lane form.precision.bits (s.xmm dst) i)
      (lane form.precision.bits (s.xmm src) i)

end Registers

namespace Instruction

/-- The register file after an instruction, if the machine does not stop. -/
def exec : Instruction → Registers → Option Registers
  | nop, s => some s
  | int op dst src, s => some (s.setGpr dst (op.apply (s.gpr dst) (s.gpr src)))
  | unary op reg, s => some (s.setGpr reg (op.apply (s.gpr reg)))
  | bitCount op dst src, s => some (s.setGpr dst (op.apply (s.gpr src)))
  | div src false, s => s.divide (s.gpr src)
  | div src true, s =>
    let s := s.setGpr .rdx 0
    if s.gpr src = 0 then some s else s.divide (s.gpr src)
  | float op form dst src, s => some (s.setXmm dst (s.floatLanes op form dst src))
  | moveAll dst src, s => some (s.setXmm dst (s.xmm src))
  | moveLow form dst src, s =>
    some (s.setXmm dst
      (setLane (s.xmm dst) 0 (lane (moveLowBits form) (s.xmm src) 0)))

def execAll (instructions : List Instruction) (s : Registers) : Option Registers :=
  instructions.foldlM (fun s i => i.exec s) s

end Instruction

end LinearGP
