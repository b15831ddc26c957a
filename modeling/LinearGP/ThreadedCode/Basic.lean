import LinearGP.Catalog.Basic
import LinearGP.Instruction.MachineCode
import LinearGP.ThreadedCode.Engine

/-!
# Threaded code

Every opcode has a cell of machine code.  The cell of an instruction runs it, steps to the next slot
and jumps straight to the cell of the opcode found there.  The cell of `END` stores the output of
the row and starts the program on the next row, or the next program on the first row.  The cell of
`HALT` returns.

Cells are laid out one after the other, each on a multiple of 32 bytes, so that a shift turns an
opcode into the offset of its cell.
-/

set_option autoImplicit false

namespace LinearGP

/-- What the cell of an opcode does. -/
inductive Cell.Body where
  | finishRow
  | halt
  /-- Run an instruction and go on with the next slot. -/
  | run (instruction : Instruction)
deriving DecidableEq

/-- The machine code of one opcode. -/
structure Cell where
  /-- Offset in the code. -/
  start : Nat
  size : Nat
  body : Cell.Body
deriving DecidableEq

def Cell.capacity : Nat := 32

/-- The least multiple of the size of a cell that is not below `n`. -/
def alignToCell (n : Nat) : Nat := (n + 31) / 32 * 32

/-- Bytes of machine code that a cell needs.  The two sentinels only jump. -/
def Cell.Body.length (layout : Layout) (counting : Bool) : Cell.Body → Nat
  | finishRow => 5
  | halt => 5
  | run instruction =>
    (if counting then 3 else 0) + instruction.encode.length +
      (StubOp.nextSlot.length layout + StubOp.dispatch.length layout)

/-- Machine code that runs every program of a partition on every row. -/
structure ThreadedCode where
  layout : Layout
  programSize : Nat
  counting : Bool
  /-- Offset of the first cell. -/
  table : Nat
  cells : Array Cell
  codeSize : Nat

namespace ThreadedCode

/-- What runs on entry. -/
def entryOps (l : Layout) : List StubOp :=
  [.save, .arguments, .tableBase, .clearRow, .clearCount] ++ l.loadOps ++ [.dispatch]

/-- What runs at the end of a row, up to the branch. -/
def endOps (l : Layout) : List StubOp := l.storeOps ++ [.nextRow, .branchOnRow]

/-- What runs when rows are left: the same program again. -/
def againOps (l : Layout) (programSize : Nat) : List StubOp :=
  [.rewind (programSize * 2)] ++ l.loadOps ++ [.dispatch]

/-- What runs after the last row: the next program. -/
def nextOps (l : Layout) : List StubOp :=
  [.clearRow, .nextProgram l.outputProgramStride, .nextSlot] ++ l.loadOps ++ [.dispatch]

def stubSize (l : Layout) (programSize : Nat) : Nat :=
  let ops := entryOps l ++ endOps l ++ againOps l programSize ++ nextOps l ++ [StubOp.leave]
  ops.foldl (fun n op => n + op.length l) 0

/-- Lay out a cell at the end of the cells so far. -/
def placeCell (layout : Layout) (counting : Bool) (placed : Array Cell × Nat) (body : Cell.Body) :
    Except Failure (Array Cell × Nat) :=
  let size := body.length layout counting
  if Cell.capacity < size then refuse (.cellOverflow (UInt16.ofNat placed.1.size) size)
  else .ok (placed.1.push { start := placed.2, size, body }, alignToCell (placed.2 + size))

/-- The cells of a catalog in opcode order. -/
def bodies (catalog : Catalog) : List Cell.Body :=
  [.finishRow, .halt] ++ catalog.instructions.toList.map .run

/-- Threaded code for the programs of a catalog. -/
def create (catalog : Catalog) (layout : Layout) (programSize : Nat) (counting : Bool) :
    Except Failure ThreadedCode :=
  if catalog.element ≠ layout.element ∨ catalog.vectorized ≠ layout.isVectorized then
    refuse .layoutMismatch
  else if programSize = 0 then refuse (.zero .programSize)
  else if !fitsDisplacement layout.rows ∨ !fitsDisplacement layout.outputProgramStride then
    refuse .regionTooLarge
  else do
    let rewind ← fitsWord (programSize * 2)
    if !fitsDisplacement rewind then refuse .regionTooLarge else
    let table := alignToCell (stubSize layout programSize)
    let (cells, codeSize) ← (bodies catalog).foldlM (placeCell layout counting) (#[], table)
    return { layout, programSize, counting, table, cells, codeSize }

def opcodeCount (c : ThreadedCode) : Nat := c.cells.size

def largestCell (c : ThreadedCode) : Nat := c.cells.foldl (fun n cell => max n cell.size) 0

/-- Where dispatch jumps for an opcode: the opcode is shifted in a 32 bit register and added to the
address of the table. -/
def target (c : ThreadedCode) (opcode : Opcode) : BitVec 64 :=
  ((opcode.toBitVec.setWidth 32) <<< 5).setWidth 64 + BitVec.ofNat 64 c.table

/-- The cell that starts at an address. -/
def cellAt? (c : ThreadedCode) (address : BitVec 64) : Option Cell :=
  match c.cells[(address.toNat - c.table) / Cell.capacity]? with
  | some cell => if cell.start = address.toNat then some cell else none
  | none => none

end ThreadedCode

end LinearGP
