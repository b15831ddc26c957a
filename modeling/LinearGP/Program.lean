import LinearGP.Catalog.Basic
import LinearGP.Instruction.Assembly

/-!
# Programs

A program on its own is a list of opcodes, without sentinels.
-/

set_option autoImplicit false

namespace LinearGP

/-- The opcodes of the instructions to run, in order. -/
abbrev Program := List Opcode

namespace Program

/-- The written form of an opcode; a comment when it names no instruction. -/
def line (catalog : Catalog) (opcode : Opcode) : String :=
  match catalog.instruction? opcode with
  | some instruction => instruction.toAssembly
  | none => s!"; invalid opcode {opcode}"

def listing (catalog : Catalog) (program : Program) : String :=
  String.join (program.map fun opcode => line catalog opcode ++ "\n")

end Program

end LinearGP
