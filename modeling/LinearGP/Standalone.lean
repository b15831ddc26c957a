import LinearGP.Evaluation
import LinearGP.ThreadedCode.Engine

/-!
# Programs compiled on their own

A single program compiled to straight-line code, for use outside of a population.  It is called with
the inputs of one row and returns the outputs of that row.
-/

set_option autoImplicit false

namespace LinearGP

/-- One program as straight-line code. -/
structure CompiledProgram (k : ElementKind) where
  layout : Layout
  body : List Instruction

namespace CompiledProgram

variable {k : ElementKind}

/-- Compile a program for inputs of `arity` columns, which are vectors when the catalog is
vectorized. -/
def compile (k : ElementKind) (catalog : Catalog) (program : Program) (arity : Nat) :
    Except Failure (CompiledProgram k) := do
  if catalog.element ≠ k then refuse .layoutMismatch
  else
    let lanes := if catalog.vectorized then k.lanes else 1
    let layout ← Layout.ofDimensions k 1 arity lanes 1
    let body ← program.instructions catalog
    return { layout, body }

def arity (c : CompiledProgram k) : Nat := c.layout.arity

def lanes (c : CompiledProgram k) : Nat := c.layout.lanes

/-- Run on one row, given by its columns in order. -/
def call (c : CompiledProgram k) (inputs : Array k.Value) : Except Failure (Array k.Value) :=
  if inputs.size ≠ c.layout.inputLength then breach .shapeMismatch
  else do
    let entry : Engine k :=
      { slot := 0, base := 0, row := 0, scratch := 0, count := 0, registers := .cleared
        outputs := Array.replicate c.lanes 0 }
    let e ← StubOp.execAll c.layout inputs c.layout.loadOps entry
    match Instruction.execAll c.body e.registers with
    | none => breach .divideError
    | some registers =>
      let e ← StubOp.execAll c.layout inputs c.layout.storeOps { e with registers }
      return e.outputs

end CompiledProgram

end LinearGP
