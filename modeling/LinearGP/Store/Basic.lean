import LinearGP.Program

/-!
# The program store

All programs of a population share one buffer of opcodes.  The buffer has one partition for each
thread.  A partition holds its programs one after the other, each closed by an `END`, and is itself
closed by a `HALT`:

```text
| p0 i0 .. p0 iN END | p1 i0 .. p1 iN END | .. | HALT || next partition ..
```

`Store.offset` gives the place of an instruction in the buffer.
-/

set_option autoImplicit false

namespace LinearGP

/-- The programs of a population in one buffer. -/
structure Store where
  threads : Nat
  perThread : Nat
  programSize : Nat
  /-- The buffer, sentinels included. -/
  slots : Array Opcode
  initialized : Bool
deriving DecidableEq

/-- The slots that one thread runs. -/
structure Partition where
  /-- Slots, sentinels included. -/
  slots : Array Opcode
  programCount : Nat
  programSize : Nat
deriving DecidableEq

namespace Store

def programCount (s : Store) : Nat := s.perThread * s.threads

/-- Slots from one program to the next. -/
def programStride (s : Store) : Nat := s.programSize + 1

/-- Slots of a partition. -/
def partitionLength (s : Store) : Nat := s.perThread * s.programStride + 1

/-- A store whose sentinels still have to be written.  Its bytes have to be addressable. -/
def create (threads programs programSize : Nat) : Except Failure Store :=
  if threads = 0 then refuse (.zero .threadCount)
  else if programs = 0 then refuse (.zero .programCount)
  else if programSize = 0 then refuse (.zero .programSize)
  else if programs % threads ≠ 0 then refuse (.unevenPartition programs threads)
  else
    let perThread := programs / threads
    let length := (perThread * (programSize + 1) + 1) * threads
    if 0x8000000000000000 ≤ 2 * length then breach .overflow
    else .ok { threads, perThread, programSize
               slots := Array.replicate length Opcode.END, initialized := false }

/-- A partition of programs made of the first instruction. -/
def blankPartition (perThread programSize : Nat) : List Opcode :=
  (List.replicate perThread (List.replicate programSize Opcode.first ++ [Opcode.END])).flatten ++
    [Opcode.HALT]

/-- Write every sentinel, and the first instruction everywhere else. -/
def prepare (s : Store) : Except Failure Store :=
  if s.initialized then refuse .alreadyInitialized
  else .ok { s with
    slots := (List.replicate s.threads (blankPartition s.perThread s.programSize)).flatten.toArray
    initialized := true }

/-- The place of an instruction in the buffer. -/
def offset (s : Store) (program instruction : Nat) : Except Failure Nat :=
  if !s.initialized then breach .uninitializedStore
  else if s.programCount ≤ program then breach .programOutOfRange
  else if s.programSize ≤ instruction then breach .instructionOutOfRange
  else .ok (program / s.perThread * s.partitionLength
    + program % s.perThread * s.programStride + instruction)

def get (s : Store) (program instruction : Nat) : Except Failure Opcode :=
  (s.offset program instruction).map fun i => s.slots.getD i Opcode.END

/-- Replace one instruction by another; sentinels are turned down. -/
def set (s : Store) (program instruction : Nat) (opcode : Opcode) : Except Failure Store := do
  let i ← s.offset program instruction
  if opcode.isSentinel then refuse (.sentinelOpcode opcode)
  else return { s with slots := s.slots.setIfInBounds i opcode }

def program (s : Store) (program : Nat) : Except Failure Program :=
  (s.offset program 0).map fun start =>
    (s.slots.extract start (start + s.programSize)).toList

/-- Copy `length` slots from one place to another. -/
def copySlots (slots : Array Opcode) (source target length : Nat) : Array Opcode :=
  (List.range length).foldl
    (fun copied i => copied.setIfInBounds (target + i) (slots.getD (source + i) Opcode.END)) slots

/-- Overwrite a program with another one, its sentinel included. -/
def copyProgram (s : Store) (source target : Nat) : Except Failure Store := do
  let i ← s.offset source 0
  let j ← s.offset target 0
  return { s with slots := copySlots s.slots i j s.programStride }

/-- The slots of one thread. -/
def partition (s : Store) (thread : Nat) : Except Failure Partition :=
  if !s.initialized then breach .uninitializedStore
  else if s.slots.size < (thread + 1) * s.partitionLength then breach .indexOutOfRange
  else
    let start := thread * s.partitionLength
    .ok { slots := s.slots.extract start (start + s.partitionLength)
          programCount := s.perThread
          programSize := s.programSize }

def partitions (s : Store) : Except Failure (List Partition) :=
  (List.range s.threads).mapM s.partition

end Store

end LinearGP
