import LinearGP.Element
import LinearGP.Instruction.Basic

/-!
# Mnemonics

A mnemonic names a family of instructions that differ in their operands only.  Lists of mnemonics
say which instructions a catalog may hold; moves have a list of their own.
-/

set_option autoImplicit false

namespace LinearGP

/-- Families of instructions. -/
inductive Mnemonic where
  | nop
  | mov
  | add
  | sub
  | imul
  | and
  | or
  | xor
  | neg
  | not
  | inc
  | dec
  | popcnt
  | lzcnt
  | tzcnt
  | div
  | movaps
  | movLow
  | fadd
  | fsub
  | fmul
  | fdiv
  | fmin
  | fmax
  | fsqrt
deriving DecidableEq

namespace Mnemonic

/-- Every mnemonic, in catalog order. -/
def all : List Mnemonic :=
  [nop, mov, add, sub, imul, and, or, xor, neg, not, inc, dec, popcnt, lzcnt, tzcnt, div,
    movaps, movLow, fadd, fsub, fmul, fdiv, fmin, fmax, fsqrt]

def name : Mnemonic → String
  | nop => "Nop"
  | mov => "Mov"
  | add => "Add"
  | sub => "Sub"
  | imul => "Imul"
  | and => "And"
  | or => "Or"
  | xor => "Xor"
  | neg => "Neg"
  | not => "Not"
  | inc => "Inc"
  | dec => "Dec"
  | popcnt => "Popcnt"
  | lzcnt => "Lzcnt"
  | tzcnt => "Tzcnt"
  | div => "Div"
  | movaps => "Movaps"
  | movLow => "MovLow"
  | fadd => "FAdd"
  | fsub => "FSub"
  | fmul => "FMul"
  | fdiv => "FDiv"
  | fmin => "FMin"
  | fmax => "FMax"
  | fsqrt => "FSqrt"

def ofName? (name : String) : Option Mnemonic := all.find? (·.name = name)

/-- The family only copies a register. -/
def isMove : Mnemonic → Bool
  | mov | movaps | movLow => true
  | _ => false

def isFloat : Mnemonic → Bool
  | movaps | movLow | fadd | fsub | fmul | fdiv | fmin | fmax | fsqrt => true
  | _ => false

/-- The family is of use for samples of a given type. -/
def fits (m : Mnemonic) (element : ElementKind) : Bool :=
  m = nop || m.isFloat = element.isFloat

/-- Put a mnemonic into a list in catalog order, unless it is there already. -/
def insert (m : Mnemonic) : List Mnemonic → List Mnemonic
  | [] => [m]
  | next :: rest =>
    if m = next then next :: rest
    else if m.ctorIdx < next.ctorIdx then m :: next :: rest
    else next :: insert m rest

/-- The members of a list in catalog order, each of them once. -/
def ordered (list : List Mnemonic) : List Mnemonic := list.foldl (fun set m => insert m set) []

/-- The list of mnemonics has every one of them. -/
theorem mem_all (m : Mnemonic) : m ∈ all := by
  cases m <;> decide

end Mnemonic

def IntOp.mnemonic : IntOp → Mnemonic
  | mov => .mov
  | add => .add
  | sub => .sub
  | imul => .imul
  | and => .and
  | or => .or
  | xor => .xor

def UnaryOp.mnemonic : UnaryOp → Mnemonic
  | neg => .neg
  | not => .not
  | inc => .inc
  | dec => .dec

def BitCountOp.mnemonic : BitCountOp → Mnemonic
  | popcnt => .popcnt
  | lzcnt => .lzcnt
  | tzcnt => .tzcnt

def FloatOp.mnemonic : FloatOp → Mnemonic
  | add => .fadd
  | sub => .fsub
  | mul => .fmul
  | div => .fdiv
  | min => .fmin
  | max => .fmax
  | sqrt => .fsqrt

/-- The family that an instruction belongs to. -/
def Instruction.mnemonic : Instruction → Mnemonic
  | nop => .nop
  | int op _ _ => op.mnemonic
  | unary op _ => op.mnemonic
  | bitCount op _ _ => op.mnemonic
  | div _ _ => .div
  | float op _ _ _ => op.mnemonic
  | moveAll _ _ => .movaps
  | moveLow _ _ _ => .movLow

end LinearGP
