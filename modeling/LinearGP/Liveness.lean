import LinearGP.Access
import LinearGP.Program

/-!
# Liveness and introns

An intron is an instruction that cannot influence the output of its program.  Introns are found by
going through the program backwards with the bits that still matter: one span for each register
that holds such bits.  An instruction is kept when it writes some of them; then the bits it reads
matter as well.

The analysis knows instructions by their accesses only, and turns down those that access memory.
-/

set_option autoImplicit false

namespace LinearGP

/-- The bits that matter, one span for each register that has any. -/
abbrev Liveness := List (Register × BitRange)

/-- What an instruction reads and writes in registers, and whether it accesses memory. -/
structure Operands where
  reads : List (Register × BitRange)
  writes : List (Register × BitRange × Bool)
  memory : Bool
deriving DecidableEq

namespace Operands

def empty : Operands := { reads := [], writes := [], memory := false }

def readCapacity : Nat := 4

def writeCapacity : Nat := 2

/-- Record one access. -/
def record (o : Operands) : Access → Except Failure Operands
  | .read register range =>
    if readCapacity ≤ o.reads.length then breach .tableFull
    else .ok { o with reads := o.reads ++ [(register, range)] }
  | .write register range always =>
    if writeCapacity ≤ o.writes.length then breach .tableFull
    else .ok { o with writes := o.writes ++ [(register, range, always)] }
  | .memoryRead _ => .ok { o with memory := true }
  | .memoryWrite _ => .ok { o with memory := true }
  | .immediate _ => .ok o
  | .statusRead _ => .ok o
  | .statusWrite _ => .ok o
  | .controlRead _ => .ok o

/-- The operands among a list of accesses. -/
def ofAccesses (accesses : List Access) : Except Failure Operands := accesses.foldlM record empty

end Operands

namespace Liveness

/-- One span for each register of the file. -/
def capacity : Nat := Register.all.length

/-- The bits of a register that matter. -/
def range? (live : Liveness) (register : Register) : Option BitRange := live.lookup register

/-- What is left of a span of which some bits were written.  The span is cut where the write covers
its lower half and the two are the usual parts of a register; any other write that leaves bits keeps
the whole span. -/
def remainder (live written : BitRange) : Option BitRange :=
  if written.contains live then none
  else if live = .low16 ∧ written = .low8 then some .secondByte
  else if live = .low128 ∧ written = .low64 then some .upperHalf
  else some live

/-- The place of the first entry of a register. -/
def place? (live : Liveness) (register : Register) : Option Nat :=
  live.findIdx? fun entry => entry.1 = register

/-- Remove the entry at a place, to which the last entry is moved. -/
def swapRemove (live : Liveness) (place : Nat) : Liveness :=
  match live.getLast? with
  | none => live
  | some last => (live.set place last).dropLast

/-- Replace the span of a register that has one, or remove its entry. -/
def update (live : Liveness) (register : Register) (range : Option BitRange) : Liveness :=
  match live.place? register, range with
  | none, _ => live
  | some place, some range => live.set place (register, range)
  | some place, none => live.swapRemove place

/-- Go back over a write: the bits left, and whether the write makes any that matter. -/
def acrossWrite (live : Liveness) (register : Register) (written : BitRange) (always : Bool) :
    Liveness × Bool :=
  match live.range? register with
  | none => (live, false)
  | some range =>
    if !written.overlaps range then (live, false)
    else if always then (live.update register (remainder range written), true)
    else (live, true)

/-- Go back over the writes of an instruction. -/
def acrossWrites (live : Liveness) (writes : List (Register × BitRange × Bool)) :
    Liveness × Bool :=
  writes.foldl (fun (live, isLive) (register, written, always) =>
    let (live, hit) := live.acrossWrite register written always
    (live, isLive || hit)) (live, false)

/-- Let the bits of a read matter. -/
def acrossRead (live : Liveness) (register : Register) (read : BitRange) :
    Except Failure Liveness :=
  match live.range? register with
  | some range => .ok (live.update register (some (range.cover read)))
  | none =>
    if capacity ≤ live.length then breach .tableFull
    else .ok (live ++ [(register, read)])

def acrossReads (live : Liveness) (reads : List (Register × BitRange)) :
    Except Failure Liveness :=
  reads.foldlM (fun live (register, read) => live.acrossRead register read) live

/-- Go back over an instruction: the bits that matter before it, and whether it is kept. -/
def across (live : Liveness) (operands : Operands) : Except Failure (Liveness × Bool) :=
  match live.acrossWrites operands.writes with
  | (live, false) => .ok (live, false)
  | (live, true) => (live.acrossReads operands.reads).map fun live => (live, true)

end Liveness

namespace Program

/-- Go back over one opcode at a position of the program. -/
def backOver (table : AccessTable) (opcode : Opcode) (position : Nat) (live : Liveness) :
    Except Failure (Liveness × Bool) :=
  match table opcode with
  | none => refuse (.unknownOpcode opcode)
  | some accesses => do
    let operands ← Operands.ofAccesses accesses
    if operands.memory then refuse (.memoryOperand position) else live.across operands

/-- The bits that matter before the rest of a program, which starts at a position, and the opcodes
of the rest that are kept. -/
def liveBefore (table : AccessTable) (output : Liveness) :
    (position : Nat) → Program → Except Failure (Liveness × Program)
  | _, [] => .ok (output, [])
  | position, opcode :: rest => do
    let (live, kept) ← liveBefore table output (position + 1) rest
    let (live, isLive) ← backOver table opcode position live
    return (live, if isLive then opcode :: kept else kept)

/-- Drop every instruction that cannot influence a span of the output register. -/
def eliminateIntrons (table : AccessTable) (output : Register) (range : BitRange)
    (program : Program) : Except Failure Program :=
  (liveBefore table [(output, range)] 0 program).map (·.2)

end Program

end LinearGP
