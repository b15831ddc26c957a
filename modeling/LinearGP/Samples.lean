import LinearGP.Failure
import LinearGP.Register

/-!
# Sample sets

The rows that programs are scored against.  In a vectorized set each row groups as many consecutive
samples as a vector register has lanes; inputs are then kept by row, column and lane, so that a
column of a row can be loaded at once.  Outputs keep the order of the samples.
-/

set_option autoImplicit false

namespace LinearGP

/-- One sample: its inputs and the expected output. -/
structure Sample (k : ElementKind) where
  inputs : Array k.Value
  output : k.Value

/-- Samples grouped into rows of `lanes`. -/
structure SampleSet (k : ElementKind) where
  /-- Inputs by row, column and lane. -/
  inputs : Array k.Value
  /-- Expected outputs by row and lane. -/
  outputs : Array k.Value
  rows : Nat
  arity : Nat
  lanes : Nat

namespace SampleSet

variable {k : ElementKind}

/-- Add a sample to the inputs and outputs that were gathered, if it has `arity` inputs. -/
def addSample (arity : Nat) (gathered : Array k.Value × Array k.Value) (sample : Sample k)
    (row : Nat) : Except Failure (Array k.Value × Array k.Value) :=
  if sample.inputs.size ≠ arity then refuse (.arityMismatch row sample.inputs.size arity)
  else .ok (gathered.1 ++ sample.inputs, gathered.2.push sample.output)

/-- The inputs of all samples one after the other, and their outputs. -/
def gather (arity : Nat) (samples : List (Sample k)) :
    Except Failure (Array k.Value × Array k.Value) :=
  samples.zipIdx.foldlM (fun gathered (sample, row) => addSample arity gathered sample row)
    (#[], #[])

/-- Bring inputs that are given one sample after the other in row, column and lane order.  Lane `l` of
row `r` is sample `r * lanes + l`. -/
def transpose (inputs : Array k.Value) (rows arity lanes : Nat) : Except Failure (Array k.Value) :=
  (List.range rows).foldlM (fun transposed row =>
    (List.range arity).foldlM (fun transposed column => do
      let values ← (List.range lanes).mapM fun lane =>
        match inputs[(row * lanes + lane) * arity + column]? with
        | some value => .ok value
        | none => breach .indexOutOfRange
      return transposed ++ values.toArray) transposed) #[]

/-- Group samples into rows of `lanes`. -/
def ofSamples (arity lanes : Nat) (samples : List (Sample k)) : Except Failure (SampleSet k) := do
  if arity = 0 then refuse (.zero .inputArity)
  else if Gpr.all.length < arity then refuse (.arityTooLarge arity)
  else
    let (inputs, outputs) ← gather arity samples
    if outputs.size = 0 then refuse (.zero .sampleRows)
    else if outputs.size % lanes ≠ 0 then refuse (.raggedVectorRows outputs.size lanes)
    else
      let rows := outputs.size / lanes
      let inputs ← transpose inputs rows arity lanes
      return { inputs, outputs, rows, arity, lanes }

def scalar (arity : Nat) (samples : List (Sample k)) : Except Failure (SampleSet k) :=
  ofSamples arity 1 samples

/-- As many samples a row as a vector register has lanes. -/
def vectorized (arity : Nat) (samples : List (Sample k)) : Except Failure (SampleSet k) :=
  ofSamples arity k.lanes samples

def isVectorized (s : SampleSet k) : Bool := 1 < s.lanes

/-- An input, without a check of its position. -/
def inputAt (s : SampleSet k) (row column lane : Nat) : k.Value :=
  s.inputs.getD ((row * s.arity + column) * s.lanes + lane) 0

def input (s : SampleSet k) (row column lane : Nat) : Except Failure k.Value :=
  if row < s.rows ∧ column < s.arity ∧ lane < s.lanes then .ok (s.inputAt row column lane)
  else breach .indexOutOfRange

def output (s : SampleSet k) (row lane : Nat) : Except Failure k.Value :=
  if row < s.rows ∧ lane < s.lanes then .ok (s.outputs.getD (row * s.lanes + lane) 0)
  else breach .indexOutOfRange

end SampleSet

end LinearGP
