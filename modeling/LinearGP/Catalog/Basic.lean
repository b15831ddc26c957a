import LinearGP.Instruction.Accesses
import LinearGP.Instruction.Mnemonic

/-!
# Catalogs of instructions

A catalog gives opcodes to instructions: the instruction at position `i` has the opcode `i + 2`,
because the two lowest opcodes are sentinels.  A catalog is never empty and never outgrows the
16 bit opcode space, so no opcode wraps.
-/

set_option autoImplicit false

namespace LinearGP

/-- Instructions with opcodes, for samples of one element type. -/
structure Catalog where
  instructions : Array Instruction
  element : ElementKind
  vectorized : Bool
  size_pos : 0 < instructions.size
  size_le : instructions.size ≤ 65533

namespace Catalog

/-- The catalog that holds exactly the given instructions, in order. -/
def ofInstructions (element : ElementKind) (vectorized : Bool) (instructions : Array Instruction) :
    Except Failure Catalog :=
  if empty : instructions.size = 0 then refuse .emptyCatalog
  else if fits : instructions.size ≤ 65533 then
    .ok ⟨instructions, element, vectorized, Nat.pos_of_ne_zero empty, fits⟩
  else refuse (.catalogTooLarge instructions.size)

def size (c : Catalog) : Nat := c.instructions.size

def isEmpty (c : Catalog) : Bool := c.instructions.isEmpty

/-- Number of opcodes, the two sentinels included. -/
def opcodeCount (c : Catalog) : Nat := c.size + 2

/-- One past the highest opcode of an instruction. -/
def endOpcode (c : Catalog) : Opcode := UInt16.ofNat c.opcodeCount

def instruction? (c : Catalog) (opcode : Opcode) : Option Instruction :=
  if opcode.isSentinel then none else c.instructions[opcode.toNat - 2]?

/-- The opcode at which an instruction occurs first. -/
def opcode? (c : Catalog) (instruction : Instruction) : Option Opcode :=
  (c.instructions.findIdx? (· = instruction)).map fun i => UInt16.ofNat i + Opcode.first

/-- The opcodes of instructions, in order. -/
def opcodes (c : Catalog) : List Opcode :=
  (List.range' Opcode.first.toNat (c.endOpcode.toNat - Opcode.first.toNat)).map UInt16.ofNat

/-- Every instruction with its opcode. -/
def entries (c : Catalog) : List (Opcode × Instruction) := c.opcodes.zip c.instructions.toList

/-- What analyses know about the opcodes of the catalog. -/
def accessTable (c : Catalog) : AccessTable := fun opcode =>
  (c.instruction? opcode).map Instruction.accesses

end Catalog

end LinearGP
