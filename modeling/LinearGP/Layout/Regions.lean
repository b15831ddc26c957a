import LinearGP.Layout.Basic

/-!
# Input and output regions

The input region holds the inputs of every row by row, column and lane; the output region the
outputs of every program by program, row and lane.
-/

set_option autoImplicit false

namespace LinearGP

/-- The inputs shared by all programs. -/
structure InputRegion (k : ElementKind) where
  /-- Inputs by row, column and lane. -/
  values : Array k.Value
  arity : Nat
  lanes : Nat

namespace InputRegion

variable {k : ElementKind}

/-- The region of a layout with every input zero. -/
def zeroed (k : ElementKind) (l : Layout) : Except Failure (InputRegion k) :=
  if l.element ≠ k then breach .foreignElement
  else .ok { values := Array.replicate l.inputLength 0, arity := l.arity, lanes := l.lanes }

/-- The place of an input in the region. -/
def index (r : InputRegion k) (row column lane : Nat) : Except Failure Nat :=
  let i := (row * r.arity + column) * r.lanes + lane
  if column < r.arity ∧ lane < r.lanes ∧ i < r.values.size then .ok i
  else breach .indexOutOfRange

def get (r : InputRegion k) (row column lane : Nat) : Except Failure k.Value :=
  (r.index row column lane).map fun i => r.values.getD i 0

def set (r : InputRegion k) (row column lane : Nat) (value : k.Value) :
    Except Failure (InputRegion k) :=
  (r.index row column lane).map fun i => { r with values := r.values.setIfInBounds i value }

/-- The region of a layout filled from samples of the same dimensions. -/
def ofSamples (l : Layout) (samples : SampleSet k) : Except Failure (InputRegion k) := do
  if l.rows ≠ samples.rows ∨ l.arity ≠ samples.arity ∨ l.lanes ≠ samples.lanes then
    breach .shapeMismatch
  else
    let region ← zeroed k l
    (List.range l.rows).foldlM (fun region row =>
      (List.range l.arity).foldlM (fun region column =>
        (List.range l.lanes).foldlM (fun region lane => do
          let value ← samples.input row column lane
          region.set row column lane value) region) region) region

end InputRegion

/-- The outputs of every program for every row. -/
structure OutputRegion (k : ElementKind) where
  /-- Outputs by program, row and lane. -/
  values : Array k.Value
  perProgram : Nat
  lanes : Nat

namespace OutputRegion

variable {k : ElementKind}

/-- The region of a layout with every output zero.  Its bytes have to be addressable. -/
def zeroed (k : ElementKind) (l : Layout) : Except Failure (OutputRegion k) := do
  if l.element ≠ k then breach .foreignElement
  else
    let length ← l.outputLength
    if 0x8000000000000000 ≤ length * k.size then breach .overflow
    else return { values := Array.replicate length 0
                  perProgram := l.outputsPerProgram
                  lanes := l.lanes }

/-- Every output of one program, by row and lane. -/
def program (r : OutputRegion k) (program : Nat) : Except Failure (Array k.Value) :=
  let start := program * r.perProgram
  if start + r.perProgram ≤ r.values.size then .ok (r.values.extract start (start + r.perProgram))
  else breach .indexOutOfRange

def get (r : OutputRegion k) (program row lane : Nat) : Except Failure k.Value := do
  if r.lanes ≤ lane then breach .indexOutOfRange
  else
    let outputs ← r.program program
    match outputs[row * r.lanes + lane]? with
    | some value => return value
    | none => breach .indexOutOfRange

def set (r : OutputRegion k) (i : Nat) (value : k.Value) : Except Failure (OutputRegion k) :=
  if i < r.values.size then .ok { r with values := r.values.set! i value }
  else breach .indexOutOfRange

/-- Cut the region into a slice for each of `threads` equal partitions.  An empty region has no
slices. -/
def slices (r : OutputRegion k) (threads : Nat) : Except Failure (List (Array k.Value)) :=
  if threads = 0 ∨ r.values.size % threads ≠ 0 ∨ r.values.size / threads = 0 then
    breach .shapeMismatch
  else
    let length := r.values.size / threads
    .ok ((List.range threads).map fun t => r.values.extract (t * length) ((t + 1) * length))

/-- Put slices back together. -/
def ofSlices (r : OutputRegion k) (slices : List (Array k.Value)) : OutputRegion k :=
  { r with values := (slices.map (·.toList)).flatten.toArray }

def zero (r : OutputRegion k) : OutputRegion k :=
  { r with values := Array.replicate r.values.size 0 }

end OutputRegion

end LinearGP
