import LinearGP.Instruction.Basic

/-!
# Assembly text

The written form of an instruction: its operation, then the destination and the source.
-/

set_option autoImplicit false

namespace LinearGP

def IntOp.name : IntOp → String
  | mov => "mov"
  | add => "add"
  | sub => "sub"
  | imul => "imul"
  | and => "and"
  | or => "or"
  | xor => "xor"

def UnaryOp.name : UnaryOp → String
  | neg => "neg"
  | not => "not"
  | inc => "inc"
  | dec => "dec"

def BitCountOp.name : BitCountOp → String
  | popcnt => "popcnt"
  | lzcnt => "lzcnt"
  | tzcnt => "tzcnt"

/-- The written operation, without the letters of its form. -/
def FloatOp.name : FloatOp → String
  | add => "add"
  | sub => "sub"
  | mul => "mul"
  | div => "div"
  | min => "min"
  | max => "max"
  | sqrt => "sqrt"

/-- The written form of an instruction. -/
def Instruction.toAssembly : Instruction → String
  | nop => "nop"
  | int op dst src => op.name ++ " " ++ dst.name ++ ", " ++ src.name
  | unary op reg => op.name ++ " " ++ reg.name
  | bitCount op dst src => op.name ++ " " ++ dst.name ++ ", " ++ src.name
  | div src guarded => "div " ++ src.name ++ (if guarded then " ; zero guarded" else "")
  | float op form dst src => op.name ++ form.suffix ++ " " ++ dst.name ++ ", " ++ src.name
  | moveAll dst src => "movaps " ++ dst.name ++ ", " ++ src.name
  | moveLow form dst src => "mov" ++ form.suffix ++ " " ++ dst.name ++ ", " ++ src.name

end LinearGP
