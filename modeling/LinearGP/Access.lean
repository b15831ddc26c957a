import LinearGP.Register
import LinearGP.StatusFlags

/-!
# Operand accesses

What an instruction reads and writes, explicitly or not, is described by a list of accesses.
Analyses of programs work on these lists and never look at the instruction itself.
-/

set_option autoImplicit false

namespace LinearGP

/-- Control and status fields that are no general registers. -/
inductive ControlField where
  /-- Rounding mode and exception masks of floating point arithmetic. -/
  | mxcsr
deriving DecidableEq

/-- One thing that an instruction depends on or changes. -/
inductive Access where
  | read (register : Register) (range : BitRange)
  /-- A write that is not `always` made depends on a condition at run time. -/
  | write (register : Register) (range : BitRange) (always : Bool)
  /-- A constant that the encoding implies. -/
  | immediate (value : Int)
  | statusRead (flags : StatusFlags)
  | statusWrite (flags : StatusFlags)
  | controlRead (field : ControlField)
  | memoryRead (width : Nat)
  | memoryWrite (width : Nat)
deriving DecidableEq

/-- What an analysis knows about each opcode; nothing for opcodes that name no instruction. -/
abbrev AccessTable := Opcode → Option (List Access)

end LinearGP
