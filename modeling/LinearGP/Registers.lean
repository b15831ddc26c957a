import LinearGP.Register

/-!
# The register file

The contents of the eight registers.  `Registers.value` looks at any register as bits, so that
statements about spans of bits need not tell the two kinds of register apart.
-/

set_option autoImplicit false

namespace LinearGP

/-- The contents of the register file. -/
@[ext] structure Registers where
  rax : BitVec 64
  rcx : BitVec 64
  rdx : BitVec 64
  rsi : BitVec 64
  xmm0 : BitVec 128
  xmm1 : BitVec 128
  xmm2 : BitVec 128
  xmm3 : BitVec 128
deriving DecidableEq

namespace Registers

def cleared : Registers := ⟨0, 0, 0, 0, 0, 0, 0, 0⟩

def gpr (s : Registers) : Gpr → BitVec 64
  | .rax => s.rax
  | .rcx => s.rcx
  | .rdx => s.rdx
  | .rsi => s.rsi

def xmm (s : Registers) : Xmm → BitVec 128
  | .xmm0 => s.xmm0
  | .xmm1 => s.xmm1
  | .xmm2 => s.xmm2
  | .xmm3 => s.xmm3

def setGpr (s : Registers) : Gpr → BitVec 64 → Registers
  | .rax, v => { s with rax := v }
  | .rcx, v => { s with rcx := v }
  | .rdx, v => { s with rdx := v }
  | .rsi, v => { s with rsi := v }

def setXmm (s : Registers) : Xmm → BitVec 128 → Registers
  | .xmm0, v => { s with xmm0 := v }
  | .xmm1, v => { s with xmm1 := v }
  | .xmm2, v => { s with xmm2 := v }
  | .xmm3, v => { s with xmm3 := v }

def value (s : Registers) : (r : Register) → BitVec r.bits
  | .gpr r => s.gpr r
  | .xmm r => s.xmm r

def bit (s : Registers) (r : Register) (i : Nat) : Bool := (s.value r).getLsbD i

/-- A general purpose register after one of them was set. -/
theorem gpr_setGpr (s : Registers) (r q : Gpr) (v : BitVec 64) :
    (s.setGpr r v).gpr q = if q = r then v else s.gpr q := by
  cases r <;> cases q <;> rfl

/-- Vector registers do not notice when a general purpose register is set. -/
theorem xmm_setGpr (s : Registers) (r : Gpr) (q : Xmm) (v : BitVec 64) :
    (s.setGpr r v).xmm q = s.xmm q := by
  cases r <;> cases q <;> rfl

/-- A vector register after one of them was set. -/
theorem xmm_setXmm (s : Registers) (r q : Xmm) (v : BitVec 128) :
    (s.setXmm r v).xmm q = if q = r then v else s.xmm q := by
  cases r <;> cases q <;> rfl

/-- General purpose registers do not notice when a vector register is set. -/
theorem gpr_setXmm (s : Registers) (r : Xmm) (q : Gpr) (v : BitVec 128) :
    (s.setXmm r v).gpr q = s.gpr q := by
  cases r <;> cases q <;> rfl

end Registers

end LinearGP
