import LinearGP.Catalog.Basic

/-!
# Building catalogs

A catalog is built by choosing mnemonics and expanding each of them over the register file.  The
choice is a set: moves come from one list, all other mnemonics from another, an absent list stands
for everything, and the order of a catalog is that of `Mnemonic.all`.  Instructions that can stop the
machine, or that it lacks, are left out unless they are allowed.
-/

set_option autoImplicit false

namespace LinearGP

/-- What a catalog should hold. -/
structure CatalogOptions where
  element : ElementKind
  vectorized : Bool := false
  /-- Mnemonics to use apart from moves; everything when absent. -/
  instructions : Option (List Mnemonic) := none
  /-- Moves to use; every move when absent. -/
  moves : Option (List Mnemonic) := none
  /-- Keep instructions that can stop the machine. -/
  allowUnsafe : Bool := false
  /-- Keep instructions that the machine lacks. -/
  allowUnsupported : Bool := false
  /-- Use divisions that skip zero divisors. -/
  safeDivision : Bool := true
deriving DecidableEq

/-- Pairs of a destination and a source, destination first; equal pairs on request only. -/
def operandPairs {α : Type} [DecidableEq α] (registers : List α) (allowSame : Bool) :
    List (α × α) :=
  (registers.flatMap fun dst => registers.map fun src => (dst, src)).filter fun (dst, src) =>
    allowSame || dst ≠ src

/-- The instructions of a family, over the whole register file.  The registers that hold the
dividend are no divisors. -/
def Mnemonic.expand (form : FloatForm) (safeDivision : Bool) : Mnemonic → List Instruction
  | nop => [.nop]
  | mov => (operandPairs Gpr.all false).map fun (dst, src) => .int .mov dst src
  | add => int .add
  | sub => int .sub
  | imul => int .imul
  | and => int .and
  | or => int .or
  | xor => int .xor
  | neg => Gpr.all.map (.unary .neg)
  | not => Gpr.all.map (.unary .not)
  | inc => Gpr.all.map (.unary .inc)
  | dec => Gpr.all.map (.unary .dec)
  | popcnt => bitCount .popcnt
  | lzcnt => bitCount .lzcnt
  | tzcnt => bitCount .tzcnt
  | div => [Gpr.rcx, Gpr.rsi].map fun src => .div src safeDivision
  | movaps => (operandPairs Xmm.all false).map fun (dst, src) => .moveAll dst src
  | movLow =>
    if form.packed then []
    else (operandPairs Xmm.all false).map fun (dst, src) => .moveLow form dst src
  | fadd => float .add
  | fsub => float .sub
  | fmul => float .mul
  | fdiv => float .div
  | fmin => float .min
  | fmax => float .max
  | fsqrt => float .sqrt
where
  int (op : IntOp) : List Instruction :=
    (operandPairs Gpr.all true).map fun (dst, src) => .int op dst src
  bitCount (op : BitCountOp) : List Instruction :=
    (operandPairs Gpr.all true).map fun (dst, src) => .bitCount op dst src
  float (op : FloatOp) : List Instruction :=
    (operandPairs Xmm.all true).map fun (dst, src) => .float op form dst src

namespace CatalogOptions

/-- The mnemonics to expand: those of the first list that are no moves, and those of the second that
are, as far as they fit the samples. -/
def selected (o : CatalogOptions) : List Mnemonic :=
  let instructions := (o.instructions.getD Mnemonic.all).filter fun m => !m.isMove
  let moves := (o.moves.getD Mnemonic.all).filter fun m => m.isMove
  Mnemonic.ordered ((instructions ++ moves).filter fun m => m.fits o.element)

def floatForm (o : CatalogOptions) : FloatForm where
  precision := if o.element = .f32 then .single else .double
  packed := o.vectorized

/-- An instruction may be used on a machine. -/
def admits (host : Host) (o : CatalogOptions) (i : Instruction) : Bool :=
  (o.allowUnsafe || !i.isUnsafe) && (o.allowUnsupported || i.isSupported host)

/-- The instructions of the catalog, in order. -/
def instructionList (host : Host) (o : CatalogOptions) : List Instruction :=
  (o.selected.flatMap (Mnemonic.expand o.floatForm o.safeDivision)).filter (o.admits host)

end CatalogOptions

/-- The catalog for the given options on a machine.  Only floating point samples can be vectorized. -/
def Catalog.build (host : Host) (o : CatalogOptions) : Except Failure Catalog :=
  if o.vectorized && !o.element.isFloat then refuse (.unsupportedVector o.element)
  else Catalog.ofInstructions o.element o.vectorized (o.instructionList host).toArray

end LinearGP
