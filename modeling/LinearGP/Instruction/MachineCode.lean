import LinearGP.Instruction.Basic

/-!
# Machine code

The bytes of an instruction.  A register pair is one byte that holds both numbers; wide integer
instructions carry the prefix byte `48`, those on vector registers the prefix byte `40`.
-/

set_option autoImplicit false

namespace LinearGP

/-- The operand byte for two registers: the first number goes into the middle bits. -/
def operandByte (reg rm : Nat) : UInt8 :=
  (0xc0 : UInt8) ||| (UInt8.ofNat reg <<< 3) ||| UInt8.ofNat rm

/-- The operation bytes before the operands. -/
def FloatForm.mandatoryByte : FloatForm → List UInt8
  | ⟨.single, false⟩ => [0xf3]
  | ⟨.double, false⟩ => [0xf2]
  | ⟨.single, true⟩ => []
  | ⟨.double, true⟩ => [0x66]

def FloatOp.byte : FloatOp → UInt8
  | add => 0x58
  | sub => 0x5c
  | mul => 0x59
  | div => 0x5e
  | min => 0x5d
  | max => 0x5f
  | sqrt => 0x51

def BitCountOp.byte : BitCountOp → UInt8
  | popcnt => 0xb8
  | lzcnt => 0xbd
  | tzcnt => 0xbc

namespace Instruction

/-- The bytes of an unguarded division. -/
def encodeDiv (src : Gpr) : List UInt8 := [0x48, 0xf7, operandByte 6 src.code]

def encodeInt (dst src : Gpr) : IntOp → List UInt8
  | .mov => [0x48, 0x89, operandByte src.code dst.code]
  | .add => [0x48, 0x01, operandByte src.code dst.code]
  | .sub => [0x48, 0x29, operandByte src.code dst.code]
  | .imul => [0x48, 0x0f, 0xaf, operandByte dst.code src.code]
  | .and => [0x48, 0x21, operandByte src.code dst.code]
  | .or => [0x48, 0x09, operandByte src.code dst.code]
  | .xor => [0x48, 0x31, operandByte src.code dst.code]

/-- The bytes of an instruction.  A guarded division clears `rdx`, tests the divisor, and jumps over
the three bytes of the division when it is zero. -/
def encode : Instruction → List UInt8
  | nop => []
  | int op dst src => encodeInt dst src op
  | unary .neg reg => [0x48, 0xf7, operandByte 3 reg.code]
  | unary .not reg => [0x48, 0xf7, operandByte 2 reg.code]
  | unary .inc reg => [0x48, 0xff, operandByte 0 reg.code]
  | unary .dec reg => [0x48, 0xff, operandByte 1 reg.code]
  | bitCount op dst src => [0xf3, 0x48, 0x0f, op.byte, operandByte dst.code src.code]
  | div src true =>
    [0x31, 0xd2, 0x48, 0x85, operandByte src.code src.code, 0x74, 0x03] ++ encodeDiv src
  | div src false => encodeDiv src
  | float op form dst src =>
    form.mandatoryByte ++ [0x40, 0x0f, op.byte, operandByte dst.code src.code]
  | moveAll dst src => [0x40, 0x0f, 0x28, operandByte dst.code src.code]
  | moveLow form dst src =>
    (if form = ⟨.single, false⟩ then [0xf3] else [0xf2]) ++
      [0x40, 0x0f, 0x10, operandByte dst.code src.code]

/-- No instruction takes more than ten bytes, which is a guarded division. -/
theorem length_encode_le (i : Instruction) : i.encode.length ≤ 10 := by
  rcases i with _ | ⟨op, dst, src⟩ | ⟨op, reg⟩ | ⟨op, dst, src⟩ | ⟨src, guarded⟩ |
    ⟨op, ⟨precision, packed⟩, dst, src⟩ | ⟨dst, src⟩ | ⟨form, dst, src⟩
  · simp [encode]
  · cases op <;> simp [encode, encodeInt]
  · cases op <;> simp [encode]
  · simp [encode]
  · cases guarded <;> simp [encode, encodeDiv]
  · cases precision <;> cases packed <;> simp [encode, FloatForm.mandatoryByte]
  · simp [encode]
  · simp only [encode]
    split <;> simp

end Instruction

end LinearGP
