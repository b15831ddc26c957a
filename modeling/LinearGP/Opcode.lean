/-!
# Opcodes

A program is a sequence of 16 bit opcodes.  The two lowest values are sentinels: `END` closes a
program and `HALT` closes a partition of programs.  Every other opcode may name an instruction.
-/

set_option autoImplicit false

namespace LinearGP

/-- An instruction of a catalog, or a sentinel. -/
abbrev Opcode := UInt16

namespace Opcode

/-- The sentinel that closes a program. -/
def END : Opcode := 0

/-- The sentinel that closes a partition. -/
def HALT : Opcode := 1

def first : Opcode := 2

/-- A sentinel is never the opcode of an instruction. -/
def isSentinel (opcode : Opcode) : Bool := opcode < first

end Opcode

end LinearGP
