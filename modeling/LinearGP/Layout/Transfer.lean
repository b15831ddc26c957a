import LinearGP.Lane
import LinearGP.Layout.Basic
import LinearGP.Registers

/-!
# Moving values between regions and registers

How a column of inputs is placed into its register and how the output is taken from the output
register.  Scalar integers are zero extended; values in vector registers fill the lowest lanes and
leave zeros above.
-/

set_option autoImplicit false

namespace LinearGP

namespace Layout

/-- Load the values of one input column into the register of the column. -/
def loadColumn {k : ElementKind} (l : Layout) (column : Nat) (values : List k.Value)
    (s : Registers) : Registers :=
  match l.registerAt? column with
  | some (.xmm r) => s.setXmm r (ofLanes values)
  | some (.gpr r) => s.setGpr r ((values.headD 0).setWidth 64)
  | none => s

/-- The values of the output register. -/
def readOutput (k : ElementKind) (l : Layout) (s : Registers) : List k.Value :=
  match l.outputRegister with
  | .xmm r => toLanes k.bits (s.xmm r) l.lanes
  | .gpr r => [(s.gpr r).setWidth k.bits]

end Layout

end LinearGP
