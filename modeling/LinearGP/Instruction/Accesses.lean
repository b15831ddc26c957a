import LinearGP.Instruction.Basic

/-!
# Accesses of an instruction

`Instruction.accesses` lists everything that an instruction reads and writes, in a fixed order:
reads, writes, then constants, flags and control fields.  A conditional write is one that a guarded
division may skip.
-/

set_option autoImplicit false

namespace LinearGP

namespace Instruction

def readGpr (r : Gpr) : Access := .read (.gpr r) .low64

def writeGpr (r : Gpr) (always : Bool := true) : Access := .write (.gpr r) .low64 always

/-- The result does not depend on the register that is combined with itself. -/
def isZeroing (op : IntOp) (dst src : Gpr) : Bool := dst = src && (op = .xor || op = .sub)

/-- Everything an instruction reads and writes. -/
def accesses : Instruction → List Access
  | nop => []
  | int .mov dst src => [readGpr src, writeGpr dst]
  | int op dst src =>
    (if isZeroing op dst src then [] else [readGpr dst, readGpr src]) ++
      [writeGpr dst, .statusWrite .arithmetic]
  | unary op reg =>
    [readGpr reg, writeGpr reg] ++
      match op with
      | .neg => [.statusWrite .arithmetic]
      | .not => []
      | .inc => [.immediate 1, .statusWrite (StatusFlags.arithmetic.without (.ofList [.carry]))]
      | .dec => [.immediate (-1), .statusWrite (StatusFlags.arithmetic.without (.ofList [.carry]))]
  | bitCount _ dst src => [readGpr src, writeGpr dst, .statusWrite .arithmetic]
  | div src guarded =>
    [readGpr .rax, readGpr src] ++ (if guarded then [] else [readGpr .rdx]) ++
      [writeGpr .rax (!guarded), writeGpr .rdx, .statusWrite .arithmetic]
  | float op form dst src =>
    (if op = .sqrt then [] else [.read (.xmm dst) form.range]) ++
      [.read (.xmm src) form.range, .write (.xmm dst) form.range true, .controlRead .mxcsr]
  | moveAll dst src => [.read (.xmm src) .low128, .write (.xmm dst) .low128 true]
  | moveLow form dst src => [.read (.xmm src) form.range, .write (.xmm dst) form.range true]

end Instruction

end LinearGP
