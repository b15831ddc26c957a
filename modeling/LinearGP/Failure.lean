import LinearGP.Element
import LinearGP.Opcode

/-!
# How an operation can fail

An operation that cannot be carried out fails in one of three ways.  An `Error` is a refusal: the
request was understood and is turned down, for a reason the caller may report.  A `Breach` means
that the caller broke a precondition, so there is no answer at all.  Finally a search that draws
random numbers may use up its budget before it ends.

`Error.message` holds the wording of every refusal.
-/

set_option autoImplicit false

namespace LinearGP

/-- The sizes that have to be positive. -/
inductive Quantity where
  | threadCount
  | programCount
  | programSize
  | sampleRows
  | inputArity
deriving DecidableEq

def Quantity.name : Quantity → String
  | threadCount => "thread count"
  | programCount => "program count"
  | programSize => "program size"
  | sampleRows => "sample rows"
  | inputArity => "input arity"

/-- What is inconsistent about a set of training options. -/
inductive OptionsFlaw where
  | emptyPopulation
  | unevenThreads
  | unevenDemes
  | emptyTournament
  | emptyPrograms
  | mutationRate
  | offspringRatio
  | majorFrequency
  | vectorization
deriving DecidableEq

def OptionsFlaw.message : OptionsFlaw → String
  | emptyPopulation => "population size must not be zero"
  | unevenThreads => "population size must be a multiple of the thread count"
  | unevenDemes => "population size must be a multiple of the deme size"
  | emptyTournament => "tournament size must not be zero"
  | emptyPrograms => "program size must not be zero"
  | mutationRate => "mutation rate must be between 0 and 1"
  | offspringRatio => "max offspring ratio must be positive"
  | majorFrequency => "major frequency must not be zero"
  | vectorization => "vectorized option does not match the samples"

/-- Reasons to refuse a request. -/
inductive Error where
  | sentinelOpcode (opcode : Opcode)
  | alreadyInitialized
  | unevenPartition (programs threads : Nat)
  | zero (what : Quantity)
  | raggedVectorRows (rows lanes : Nat)
  | arityMismatch (row found expected : Nat)
  | arityTooLarge (arity : Nat)
  | regionTooLarge
  | unsupportedVector (element : ElementKind)
  | emptyCatalog
  | catalogTooLarge (size : Nat)
  | cellOverflow (opcode : Opcode) (size : Nat)
  | memoryOperand (position : Nat)
  | unknownOpcode (opcode : Opcode)
  | layoutMismatch
  | invalidOptions (flaw : OptionsFlaw)
  | populationCollapsed (draws : Nat)
deriving DecidableEq

def Error.message : Error → String
  | sentinelOpcode opcode =>
    s!"opcode {opcode} is a sentinel and can not be used as an instruction"
  | alreadyInitialized => "program store is already initialized"
  | unevenPartition programs threads =>
    s!"{programs} programs can not be split evenly over {threads} threads"
  | zero what => what.name ++ " must not be zero"
  | raggedVectorRows rows lanes => s!"{rows} sample rows is not a multiple of {lanes} lanes"
  | arityMismatch row found expected =>
    s!"sample row {row} has {found} inputs, expected {expected}"
  | arityTooLarge arity => s!"input arity {arity} exceeds the register file"
  | regionTooLarge => "I/O region too large to address with 32 bit displacements"
  | unsupportedVector element =>
    "vectorized samples of " ++ element.name ++ " are not supported"
  | emptyCatalog => "instruction catalog is empty"
  | catalogTooLarge size =>
    s!"instruction catalog has {size} entries, which exceeds the opcode space"
  | cellOverflow opcode size => s!"cell for opcode {opcode} needs {size} bytes"
  | memoryOperand position => s!"instruction at {position} has a memory operand"
  | unknownOpcode opcode => s!"opcode {opcode} is not in the catalog"
  | layoutMismatch =>
    "catalog and I/O layout disagree on element type or vectorization"
  | invalidOptions flaw => "invalid options: " ++ flaw.message
  | populationCollapsed draws =>
    s!"population collapsed, no finite loss after {draws} tournaments"

/-- Preconditions that a caller can break. -/
inductive Breach where
  /-- The store was used before its sentinels were written. -/
  | uninitializedStore
  | programOutOfRange
  | instructionOutOfRange
  | foreignElement
  | emptyRange
  | indexOutOfRange
  /-- Two regions that have to agree in size do not. -/
  | shapeMismatch
  | overflow
  | emptyDraw
  /-- A chance outside the unit interval. -/
  | invalidChance
  /-- More entries than a fixed table holds. -/
  | tableFull
  /-- A division by zero, or one whose quotient does not fit. -/
  | divideError
  /-- Machine code left the regions it was given. -/
  | wildAccess
deriving DecidableEq

/-- The breaches that say which precondition was broken. -/
def Breach.message? : Breach → Option String
  | uninitializedStore => some "program store used before initialization"
  | programOutOfRange => some "program index out of range"
  | instructionOutOfRange => some "instruction index out of range"
  | foreignElement => some "layout is for another element type"
  | emptyRange => some "empty bit range"
  | _ => none

/-- Why an operation gave no result. -/
inductive Failure where
  | error (e : Error)
  | breach (b : Breach)
  /-- The budget of random draws was used up. -/
  | unfinished
deriving DecidableEq

/-- Refuse a request. -/
def refuse {α : Type} (e : Error) : Except Failure α := .error (.error e)

/-- Give up on a request that broke a precondition. -/
def breach {α : Type} (b : Breach) : Except Failure α := .error (.breach b)

/-- The state in which a computation ends, whether it succeeds or fails. -/
def endState {ε σ α : Type} : EStateM.Result ε σ α → σ
  | .ok _ s => s
  | .error _ s => s

/-- What a computation returns, apart from the state it ends in. -/
def outcome {ε σ α : Type} : EStateM.Result ε σ α → Except ε α
  | .ok a _ => .ok a
  | .error failure _ => .error failure

/-- A size that has to fit a machine word. -/
def fitsWord (n : Nat) : Except Failure Nat :=
  if n < 0x10000000000000000 then .ok n else breach .overflow

end LinearGP
