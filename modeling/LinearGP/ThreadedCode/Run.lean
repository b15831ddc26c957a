import LinearGP.Instruction.Exec
import LinearGP.Layout.Regions
import LinearGP.Store.Basic
import LinearGP.ThreadedCode.Basic

/-!
# Running threaded code

`ThreadedCode.dispatch` is one jump of the engine: fetch the opcode of the current slot, go to its
cell, and do what the cell does.  `ThreadedCode.run` makes as many jumps as a partition needs, one
for each instruction and each `END` on every row, and one for the `HALT`.
-/

set_option autoImplicit false

namespace LinearGP

namespace ThreadedCode

variable {k : ElementKind}

/-- The engine after a jump. -/
inductive Status (k : ElementKind) where
  | running (engine : Engine k)
  | halted (engine : Engine k)

/-- The opcode at the current slot. -/
def fetch (slots : Array Opcode) (slot : BitVec 64) : Except Failure Opcode :=
  if slot.toNat % 2 = 0 then
    match slots[slot.toNat / 2]? with
    | some opcode => .ok opcode
    | none => breach .wildAccess
  else breach .wildAccess

def runInstruction (c : ThreadedCode) (inputs : Array k.Value) (instruction : Instruction)
    (e : Engine k) : Except Failure (Engine k) :=
  match instruction.exec e.registers with
  | none => breach .divideError
  | some registers =>
    let count := if c.counting then e.count + 1 else e.count
    StubOp.execAll c.layout inputs [.nextSlot, .dispatch] { e with registers, count }

/-- Store the output of a row, then start the program on the next row or the next program on the
first row.  The row is compared without its sign. -/
def finishRow (c : ThreadedCode) (inputs : Array k.Value) (e : Engine k) :
    Except Failure (Engine k) := do
  let e ← StubOp.execAll c.layout inputs (endOps c.layout) e
  if e.row.ult (immediate c.layout.rows) then
    StubOp.execAll c.layout inputs (againOps c.layout c.programSize) e
  else StubOp.execAll c.layout inputs (nextOps c.layout) e

def dispatch (c : ThreadedCode) (slots : Array Opcode) (inputs : Array k.Value) (e : Engine k) :
    Except Failure (Status k) := do
  let opcode ← fetch slots e.slot
  match c.cellAt? (c.target opcode) with
  | none => breach .wildAccess
  | some cell =>
    match cell.body with
    | .halt => return .halted e
    | .finishRow => return .running (← c.finishRow inputs e)
    | .run instruction => return .running (← c.runInstruction inputs instruction e)

/-- Make up to `jumps` jumps, until the engine halts. -/
def runFor (c : ThreadedCode) (slots : Array Opcode) (inputs : Array k.Value) :
    Nat → Engine k → Except Failure (Engine k)
  | 0, _ => .error .unfinished
  | jumps + 1, e =>
    match c.dispatch slots inputs e with
    | .error failure => .error failure
    | .ok (.halted e) => .ok e
    | .ok (.running e) => c.runFor slots inputs jumps e

/-- The engine on entry, with the outputs of an earlier run still in place. -/
def enter (c : ThreadedCode) (inputs outputs : Array k.Value) : Except Failure (Engine k) :=
  StubOp.execAll c.layout inputs (entryOps c.layout)
    { slot := 0, base := 0, row := 0, scratch := 0, count := 0, registers := .cleared, outputs }

/-- Jumps from entry to halt. -/
def jumps (c : ThreadedCode) (programs : Nat) : Nat :=
  programs * c.layout.rows * (c.programSize + 1) + 1

/-- The first opcode without a cell. -/
def firstUnknown (c : ThreadedCode) (slots : Array Opcode) : Option Opcode :=
  slots.find? fun opcode => c.opcodeCount ≤ opcode.toNat

/-- Run every program of a partition on every row, and return the number of counted instructions.
The state is the slice of outputs that belongs to the partition. -/
def run (c : ThreadedCode) (partition : Partition) (input : InputRegion k) :
    EStateM Failure (Array k.Value) Nat := fun outputs =>
  if c.layout.element ≠ k ∨ partition.programSize ≠ c.programSize ∨
      input.values.size ≠ c.layout.inputLength ∨
      outputs.size ≠ partition.programCount * c.layout.outputsPerProgram ∨
      partition.slots.back? ≠ some Opcode.HALT then
    .error (.breach .shapeMismatch) outputs
  else match c.firstUnknown partition.slots with
    | some opcode => .error (.error (.unknownOpcode opcode)) outputs
    | none =>
      match c.enter input.values outputs with
      | .error failure => .error failure outputs
      | .ok e =>
        match c.runFor partition.slots input.values (c.jumps partition.programCount) e with
        | .error failure => .error failure outputs
        | .ok e => .ok e.count.toNat e.outputs

end ThreadedCode

end LinearGP
