import LinearGP.Catalog.Basic
import LinearGP.Instruction.Exec
import LinearGP.Layout.Transfer
import LinearGP.Program

/-!
# Evaluating a program on a row

What a program computes, apart from how it is run: clear the registers, load the inputs of a row,
execute the instructions in order, and take the output.
-/

set_option autoImplicit false

namespace LinearGP

namespace Layout

variable {k : ElementKind}

/-- The values of a column of a row in a region of inputs. -/
def columnValues (l : Layout) (inputs : Array k.Value) (row column : Nat) : List k.Value :=
  (List.range l.lanes).map fun lane =>
    inputs.getD ((row * l.arity + column) * l.lanes + lane) 0

/-- The registers at the start of a row. -/
def initialRegisters (l : Layout) (inputs : Array k.Value) (row : Nat) : Registers :=
  (List.range l.arity).foldl
    (fun s column => l.loadColumn column (l.columnValues inputs row column) s) .cleared

/-- The outputs of instructions for a row, if the machine does not stop. -/
def evaluate (l : Layout) (instructions : List Instruction) (inputs : Array k.Value) (row : Nat) :
    Option (List k.Value) :=
  (Instruction.execAll instructions (l.initialRegisters inputs row)).map (l.readOutput k)

end Layout

namespace Program

/-- The instructions of a program; the first opcode that names none is turned down. -/
def instructions (catalog : Catalog) (program : Program) : Except Failure (List Instruction) :=
  program.mapM fun opcode =>
    match catalog.instruction? opcode with
    | some instruction => .ok instruction
    | none => refuse (.unknownOpcode opcode)

end Program

end LinearGP
