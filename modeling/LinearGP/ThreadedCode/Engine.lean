import LinearGP.Layout.Transfer

/-!
# The engine that threaded code runs on

Threaded code keeps its own state in registers that programs do not touch: the address of the
current slot, the address of the outputs of the current program, the row, a scratch register and a
count of executed instructions.  Addresses are byte offsets into the region they point into.  A load
or store that does not stay on the elements of its region is a wild access.

`StubOp` lists the operations that surround programs, each with its length in machine code and its
effect.
-/

set_option autoImplicit false

namespace LinearGP

/-- The state of the engine. -/
structure Engine (k : ElementKind) where
  /-- Offset of the current slot in the partition. -/
  slot : BitVec 64
  /-- Offset of the outputs of the current program. -/
  base : BitVec 64
  row : BitVec 64
  scratch : BitVec 64
  count : BitVec 64
  registers : Registers
  outputs : Array k.Value

/-- A 32 bit immediate as machine code uses it, extended with its sign. -/
def immediate (n : Nat) : BitVec 64 := (BitVec.ofNat 32 n).signExtend 64

variable {k : ElementKind}

/-- The elements at an address. -/
def readRegion (values : Array k.Value) (address : BitVec 64) (count : Nat) :
    Except Failure (List k.Value) :=
  let start := address.toNat / k.size
  if address.toNat % k.size = 0 ∧ start + count ≤ values.size then
    .ok ((List.range count).map fun i => values.getD (start + i) 0)
  else breach .wildAccess

/-- Write values one after the other. -/
def writeAll (values : Array k.Value) (start : Nat) : List k.Value → Array k.Value
  | [] => values
  | v :: rest => writeAll (values.setIfInBounds start v) (start + 1) rest

/-- Replace the elements at an address. -/
def writeRegion (values : Array k.Value) (address : BitVec 64) (written : List k.Value) :
    Except Failure (Array k.Value) :=
  let start := address.toNat / k.size
  if address.toNat % k.size = 0 ∧ start + written.length ≤ values.size then
    .ok (writeAll values start written)
  else breach .wildAccess

/-- The operations around programs. -/
inductive StubOp where
  | save
  | arguments
  | tableBase
  | clearRow
  | clearCount
  | clearRegisters
  /-- Scratch becomes the row, `stride` times. -/
  | scaleRow (stride : Nat)
  /-- Load a column whose offset in the row is `displacement`. -/
  | loadColumn (column displacement : Nat)
  /-- Store the output at the scratch offset of the current program. -/
  | storeOutput
  | nextRow
  /-- Tell whether rows are left, and leave the straight path if not. -/
  | branchOnRow
  /-- Go back by `bytes` of slots. -/
  | rewind (bytes : Nat)
  /-- Go on by `stride` bytes of outputs. -/
  | nextProgram (stride : Nat)
  | nextSlot
  | dispatch
  /-- Hand over the count, restore the registers of the caller and return. -/
  | leave
deriving DecidableEq

namespace StubOp

def length (l : Layout) : StubOp → Nat
  | save => 9
  | arguments => 9
  | tableBase => 7
  | clearRow => 2
  | clearCount => 3
  | clearRegisters => 4 * 3 + 4 * 4
  | scaleRow _ => 7
  | loadColumn _ _ => if l.isVectorized then 9 else if l.element.isFloat then 10 else 8
  | storeOutput => if l.isVectorized then 5 else if l.element.isFloat then 6 else 4
  | nextRow => 4
  | branchOnRow => 7 + 6
  | rewind _ => 7
  | nextProgram _ => 7
  | nextSlot => 4
  | dispatch => 4 + 4 + 3 + 3
  | leave => 3 + 9 + 1

/-- The effect on the engine.  Operations that only transfer control have none. -/
def exec (l : Layout) (inputs : Array k.Value) : StubOp → Engine k → Except Failure (Engine k)
  | arguments, e => .ok { e with slot := 0, base := 0 }
  | clearRow, e => .ok { e with row := 0 }
  | clearCount, e => .ok { e with count := 0 }
  | clearRegisters, e => .ok { e with registers := .cleared }
  | scaleRow stride, e => .ok { e with scratch := e.row * immediate stride }
  | loadColumn column displacement, e => do
    let values ← readRegion inputs (e.scratch + immediate displacement) l.lanes
    return { e with registers := l.loadColumn column values e.registers }
  | storeOutput, e => do
    let outputs ← writeRegion e.outputs (e.base + e.scratch) (l.readOutput k e.registers)
    return { e with outputs }
  | nextRow, e => .ok { e with row := e.row + 1 }
  | rewind bytes, e => .ok { e with slot := e.slot - immediate bytes }
  | nextProgram stride, e => .ok { e with base := e.base + immediate stride }
  | nextSlot, e => .ok { e with slot := e.slot + 2 }
  | save, e | tableBase, e | branchOnRow, e | dispatch, e | leave, e => .ok e

def execAll (l : Layout) (inputs : Array k.Value) (ops : List StubOp) (e : Engine k) :
    Except Failure (Engine k) :=
  ops.foldlM (fun e op => op.exec l inputs e) e

end StubOp

namespace Layout

/-- Clear the register file and load the inputs of the current row. -/
def loadOps (l : Layout) : List StubOp :=
  [.clearRegisters, .scaleRow l.inputRowStride] ++
    (List.range l.arity).map fun column => .loadColumn column (column * l.columnStride)

/-- Store the output of the current row. -/
def storeOps (l : Layout) : List StubOp := [.scaleRow l.outputRowStride, .storeOutput]

end Layout

end LinearGP
