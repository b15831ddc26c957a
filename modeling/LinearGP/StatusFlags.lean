/-!
# Status flags

The arithmetic flags of the processor, as a set.  Instructions report which of them they write.
-/

set_option autoImplicit false

namespace LinearGP

/-- One arithmetic flag. -/
inductive StatusFlag where
  | carry
  | parity
  | adjust
  | zero
  | sign
  | overflow
deriving DecidableEq

namespace StatusFlag

/-- Every flag, in bit order. -/
def all : List StatusFlag := [carry, parity, adjust, zero, sign, overflow]

def position : StatusFlag → Nat
  | carry => 0
  | parity => 1
  | adjust => 2
  | zero => 3
  | sign => 4
  | overflow => 5

/-- The conventional two letter name. -/
def name : StatusFlag → String
  | carry => "CF"
  | parity => "PF"
  | adjust => "AF"
  | zero => "ZF"
  | sign => "SF"
  | overflow => "OF"

end StatusFlag

/-- A set of arithmetic flags, one bit each. -/
structure StatusFlags where
  bits : BitVec 6
deriving DecidableEq

namespace StatusFlags

def ofList (flags : List StatusFlag) : StatusFlags :=
  ⟨flags.foldl (fun bits flag => bits ||| BitVec.twoPow 6 flag.position) 0⟩

def toList (s : StatusFlags) : List StatusFlag :=
  StatusFlag.all.filter fun flag => s.bits.getLsbD flag.position

def empty : StatusFlags := ⟨0⟩

/-- Every flag that ordinary integer arithmetic writes. -/
def arithmetic : StatusFlags := .ofList StatusFlag.all

def without (s t : StatusFlags) : StatusFlags := ⟨s.bits &&& ~~~t.bits⟩

/-- Every flag of `t` is in `s`. -/
def contains (s t : StatusFlags) : Bool := s.bits &&& t.bits == t.bits

end StatusFlags

end LinearGP
