import LinearGP.Samples

/-!
# Layout of the input and output regions

A layout holds the dimensions of two regions: the inputs of all rows, shared by all programs, and
the outputs of every program for every row.  Machine code addresses both with 32 bit strides and
displacements, so dimensions that need wider ones are turned down.
-/

set_option autoImplicit false

namespace LinearGP

/-- The dimensions of the input and output regions. -/
structure Layout where
  element : ElementKind
  /-- Rows, each of them a vector row when `lanes` is more than one. -/
  rows : Nat
  arity : Nat
  /-- Elements of a row and column. -/
  lanes : Nat
  programs : Nat
deriving DecidableEq

/-- A number of bytes is a 32 bit displacement. -/
def fitsDisplacement (bytes : Nat) : Bool := bytes < 0x80000000

namespace Layout

/-- Rows hold full vectors. -/
def isVectorized (l : Layout) : Bool := 1 < l.lanes

/-- Values live in vector registers. -/
def usesXmm (l : Layout) : Bool := l.element.isFloat || l.isVectorized

def columnStride (l : Layout) : Nat := l.lanes * l.element.size

def inputRowStride (l : Layout) : Nat := l.arity * l.columnStride

def outputRowStride (l : Layout) : Nat := l.lanes * l.element.size

def outputProgramStride (l : Layout) : Nat := l.rows * l.outputRowStride

def inputLength (l : Layout) : Nat := l.rows * l.arity * l.lanes

def outputsPerProgram (l : Layout) : Nat := l.rows * l.lanes

/-- Elements of the output region, a number that has to fit a machine word. -/
def outputLength (l : Layout) : Except Failure Nat := fitsWord (l.programs * l.outputsPerProgram)

/-- The layout of given dimensions.  Sizes in bytes are computed in machine words, in this order:
the inputs of a row, the outputs of a program, and all inputs. -/
def ofDimensions (element : ElementKind) (rows arity lanes programs : Nat) :
    Except Failure Layout :=
  let layout : Layout := { element, rows, arity, lanes, programs }
  if rows = 0 then refuse (.zero .sampleRows)
  else if arity = 0 then refuse (.zero .inputArity)
  else if programs = 0 then refuse (.zero .programCount)
  else if Gpr.all.length < arity then refuse (.arityTooLarge arity)
  else if lanes ≠ 1 ∧ (lanes ≠ element.lanes ∨ !element.isFloat) then
    refuse (.unsupportedVector element)
  else do
    let inputRow ← fitsWord layout.inputRowStride
    if !fitsDisplacement inputRow then refuse .regionTooLarge else
    let outputs ← fitsWord layout.outputProgramStride
    if !fitsDisplacement outputs then refuse .regionTooLarge else
    let inputs ← fitsWord (layout.rows * layout.inputRowStride)
    if !fitsDisplacement inputs then refuse .regionTooLarge else
    return layout

/-- The layout for running programs on a sample set. -/
def ofSamples {k : ElementKind} (samples : SampleSet k) (programs : Nat) : Except Failure Layout :=
  ofDimensions k samples.rows samples.arity samples.lanes programs

/-- The register that an input column is loaded into, without a check of the column. -/
def registerAt? (l : Layout) (column : Nat) : Option Register :=
  if l.usesXmm then (Xmm.ofNat? column).map .xmm else (Gpr.ofNat? column).map .gpr

/-- The register that an input column is loaded into. -/
def inputRegister (l : Layout) (column : Nat) : Except Failure Register :=
  if column < l.arity then
    match l.registerAt? column with
    | some r => .ok r
    | none => breach .indexOutOfRange
  else breach .indexOutOfRange

/-- The register that holds the output. -/
def outputRegister (l : Layout) : Register := if l.usesXmm then .xmm .xmm0 else .gpr .rax

/-- The bits of the output register that make up the output. -/
def outputRange (l : Layout) : BitRange :=
  if l.isVectorized then .low128
  else match l.element with
    | .f32 => .low32
    | .f64 => .low64
    | .i32 => .low32
    | .i64 => .low64

end Layout

end LinearGP
