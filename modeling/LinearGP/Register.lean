import LinearGP.BitRange

/-!
# Registers

The register file that programs work on: four general purpose registers of 64 bits and four vector
registers of 128 bits.  Input column `c` is loaded into the register at position `c` of the file it
belongs to.
-/

set_option autoImplicit false

namespace LinearGP

/-- The general purpose registers of the register file. -/
inductive Gpr where
  | rax
  | rcx
  | rdx
  | rsi
deriving DecidableEq

namespace Gpr

/-- The file in input column order. -/
def all : List Gpr := [rax, rcx, rdx, rsi]

/-- The register that input column `n` is loaded into. -/
def ofNat? : Nat → Option Gpr
  | 0 => some rax
  | 1 => some rcx
  | 2 => some rdx
  | 3 => some rsi
  | _ => none

def code : Gpr → Nat
  | rax => 0
  | rcx => 1
  | rdx => 2
  | rsi => 6

def name : Gpr → String
  | rax => "rax"
  | rcx => "rcx"
  | rdx => "rdx"
  | rsi => "rsi"

end Gpr

/-- The vector registers of the register file. -/
inductive Xmm where
  | xmm0
  | xmm1
  | xmm2
  | xmm3
deriving DecidableEq

namespace Xmm

/-- The file in input column order. -/
def all : List Xmm := [xmm0, xmm1, xmm2, xmm3]

/-- The register that input column `n` is loaded into. -/
def ofNat? : Nat → Option Xmm
  | 0 => some xmm0
  | 1 => some xmm1
  | 2 => some xmm2
  | 3 => some xmm3
  | _ => none

def code : Xmm → Nat
  | xmm0 => 0
  | xmm1 => 1
  | xmm2 => 2
  | xmm3 => 3

def name : Xmm → String
  | xmm0 => "xmm0"
  | xmm1 => "xmm1"
  | xmm2 => "xmm2"
  | xmm3 => "xmm3"

end Xmm

/-- Any register that an instruction can read or write. -/
inductive Register where
  | gpr (r : Gpr)
  | xmm (r : Xmm)
deriving DecidableEq

namespace Register

/-- The whole file: general purpose registers, then vector registers. -/
def all : List Register := Gpr.all.map gpr ++ Xmm.all.map xmm

@[reducible] def bits : Register → Nat
  | gpr _ => 64
  | xmm _ => 128

def code : Register → Nat
  | gpr r => r.code
  | xmm r => r.code

def name : Register → String
  | gpr r => r.name
  | xmm r => r.name

def fullRange : Register → BitRange
  | gpr _ => .low64
  | xmm _ => .low128

/-- The place of the register in the file, which orders registers. -/
def position (r : Register) : Nat := all.idxOf r

/-- At most, in the order of the file. -/
def atMost (r s : Register) : Bool := r.position ≤ s.position

def sort (registers : List Register) : List Register := registers.mergeSort atMost

def ofName? (name : String) : Option Register := all.find? (·.name = name)

/-- The list of registers has every one of them. -/
theorem mem_all (r : Register) : r ∈ all := by
  rcases r with r | r <;> cases r <;> decide

end Register

end LinearGP
