import LinearGP.Liveness
import LinearGP.Loss
import LinearGP.Population.Options
import LinearGP.Random.Pcg
import LinearGP.Selection.Mutation
import LinearGP.Selection.Reproduction
import LinearGP.Selection.Tournament
import LinearGP.Standalone
import LinearGP.ThreadedCode.Run

/-!
# Populations

A population of programs that evolves towards a sample set.  A generation evaluates every program,
holds tournaments over the losses, replaces losers by copies of winners and mutates the result.

Each operation is a step on the state of the population that may fail.  What was done before a
failure stays: a generation whose selection collapses has been evaluated, and has drawn, and an
evaluation that fails leaves the outputs that were written.
-/

set_option autoImplicit false

namespace LinearGP

/-- The best program so far. -/
structure Champion where
  program : Program
  loss : Binary64
deriving DecidableEq

/-- Programs that evolve towards samples, with draws from a source. -/
structure Population (k : ElementKind) (σ : Type) where
  options : Options
  samples : SampleSet k
  catalog : Catalog
  layout : Layout
  code : ThreadedCode
  input : InputRegion k
  output : OutputRegion k
  store : Store
  losses : Array Binary64
  /-- Wins of the last selection. -/
  wins : Array UInt8
  champion : Option Champion
  generation : Nat
  /-- Instructions executed in the last evaluation, if they are counted. -/
  executed : Nat
  source : σ

namespace Population

variable {k : ElementKind} {σ : Type}

/-- Turn a result into a step that replaces the state. -/
def step {τ α : Type} (f : τ → Except Failure (α × τ)) : EStateM Failure τ α := fun t =>
  match f t with
  | .ok (a, t) => .ok a t
  | .error failure => .error failure t

/-! ### Creation -/

/-- A store of random programs. -/
def seedStore [DrawSource σ] (options : Options) (catalog : Catalog) (source : σ) :
    Except Failure (Store × σ) := do
  let blank ← Store.create options.threads options.populationSize options.programSize
  let prepared ← blank.prepare
  match randomize Opcode.first catalog.endOpcode (prepared, source) with
  | .ok _ seeded => return seeded
  | .error failure _ => .error failure

/-- A population of random programs for a sample set, which runs on a machine. -/
def create [DrawSource σ] (host : Host) (options : Options) (samples : SampleSet k) (source : σ) :
    Except Failure (Population k σ) := do
  options.validate
  if options.vectorized ≠ samples.isVectorized then refuse (.invalidOptions .vectorization)
  else
    let catalog ← Catalog.build host (options.catalogOptions k)
    let (store, source) ← seedStore options catalog source
    let layout ← Layout.ofSamples samples options.populationSize
    let code ← ThreadedCode.create catalog layout options.programSize options.counting
    let input ← InputRegion.ofSamples layout samples
    let output ← OutputRegion.zeroed k layout
    return { options, samples, catalog, layout, code, input, output, store
             losses := Array.replicate options.populationSize .infinity
             wins := Array.replicate options.populationSize 0
             champion := none, generation := 0, executed := 0, source }

/-- A population that draws from the generator of its seed. -/
def seeded (host : Host) (options : Options) (samples : SampleSet k) :
    Except Failure (Population k Pcg64) :=
  create host options samples (.ofSeed options.seed)

/-! ### Evaluation -/

/-- The lowest loss so far; infinite before there is a finite one. -/
def bestLoss (p : Population k σ) : Binary64 :=
  match p.champion with
  | some champion => champion.loss
  | none => .infinity

def best (p : Population k σ) : Option Program := p.champion.map (·.program)

/-- The partition of every thread, with its part of the outputs. -/
def parts (p : Population k σ) : Except Failure (List (Partition × Array k.Value)) := do
  let partitions ← p.store.partitions
  let slices ← p.output.slices p.store.threads
  return partitions.zip slices

/-- Run the programs of every thread on its part of the outputs, and return the numbers of counted
instructions.  All threads run, whether or not some of them fail, and what they write stays; it is the
first failure that is reported. -/
def runAll : EStateM Failure (Population k σ) (List Nat) := fun p =>
  match p.parts with
  | .error failure => .error failure p
  | .ok parts =>
    let runs := parts.map fun (partition, outputs) => p.code.run partition p.input outputs
    let p := { p with output := p.output.ofSlices (runs.map endState) }
    match runs.mapM outcome with
    | .ok counts => .ok counts p
    | .error failure => .error failure p

/-- The losses for the present outputs. -/
def score (p : Population k σ) : Except Failure (Array Binary64) :=
  (Array.range p.options.populationSize).mapM fun program =>
    (p.output.program program).map p.samples.loss

/-- The champion for the present losses: the first program with the least of them, if that is lower
than before. -/
def crown (p : Population k σ) : Except Failure (Option Champion) :=
  match leastLoss? p.losses with
  | none => .ok p.champion
  | some (program, loss) =>
    if loss.less p.bestLoss then
      (p.store.program program).map fun program => some { program, loss }
    else .ok p.champion

/-- Take the losses from the outputs. -/
def updateLosses : EStateM Failure (Population k σ) Unit :=
  step fun p => p.score.map fun losses => ((), { p with losses })

/-- Take the champion from the losses. -/
def updateChampion : EStateM Failure (Population k σ) Unit :=
  step fun p => p.crown.map fun champion => ((), { p with champion })

/-- Clear the outputs if the options ask for it. -/
def cleared (p : Population k σ) : Population k σ :=
  { p with output := if p.options.zeroOutputs then p.output.zero else p.output }

/-- Run every program on every sample, and update the losses and the champion. -/
def evaluate : EStateM Failure (Population k σ) Unit := do
  modify cleared
  let counts ← runAll
  modify fun p => { p with executed := counts.foldl (· + ·) 0 }
  updateLosses
  updateChampion

/-! ### Evolution -/

def tournament (p : Population k σ) : Tournament where
  losses := p.losses
  cap := p.options.winCap
  size := p.options.tournamentSize

variable [DrawSource σ]

/-- Hold tournaments over the losses, and return the number of wins.  At most `budget` of them are
held. -/
def select (budget : Nat) : EStateM Failure (Population k σ) Nat := fun p =>
  match p.tournament.select budget (p.wins, p.source) with
  | .ok selected (wins, source) => .ok selected { p with wins, source }
  | .error failure (wins, source) => .error failure { p with wins, source }

/-- Replace instructions of all programs at random, and return their number. -/
def mutate : EStateM Failure (Population k σ) Nat := fun p =>
  match LinearGP.mutate Opcode.first p.catalog.endOpcode p.options.mutationRate
      (p.store, p.source) with
  | .ok mutations (store, source) => .ok mutations { p with store, source }
  | .error failure (store, source) => .error failure { p with store, source }

/-- Replace programs without wins by copies of winners. -/
def replace : EStateM Failure (Population k σ) Nat :=
  step fun p => (p.store.reproduce p.wins).map fun (store, copies) => (copies, { p with store })

/-- Replace programs without wins by copies of winners, then mutate; return the number of
copies. -/
def reproduce : EStateM Failure (Population k σ) Nat := do
  let copies ← replace
  let _ ← mutate
  return copies

def next (budget : Nat) : EStateM Failure (Population k σ) Unit := do
  evaluate
  let _ ← select budget
  let _ ← reproduce
  modify fun p => { p with generation := p.generation + 1 }

/-- Run generations until `stop` holds of the generation and the best loss, which is asked before
each of them.  At most `generations` of them are run. -/
def runUntil (stop : Nat → Binary64 → Bool) (budget : Nat) :
    (generations : Nat) → EStateM Failure (Population k σ) Unit
  | 0 => do
    let p ← get
    if stop p.generation p.bestLoss then return else throw .unfinished
  | generations + 1 => do
    let p ← get
    if stop p.generation p.bestLoss then return
    else
      next budget
      runUntil stop budget generations

omit [DrawSource σ]

/-! ### The best program -/

/-- The best program, without its introns if asked for. -/
def bestProgram (p : Population k σ) (eliminate : Bool) : Except Failure (Option Program) :=
  match p.best with
  | none => .ok none
  | some program =>
    if eliminate then
      (program.eliminateIntrons p.catalog.accessTable p.layout.outputRegister
        p.layout.outputRange).map some
    else .ok (some program)

/-- The best program as assembly text. -/
def bestListing (p : Population k σ) (eliminate : Bool) : Except Failure (Option String) :=
  (p.bestProgram eliminate).map fun best => best.map (Program.listing p.catalog)

/-- The best program, compiled on its own. -/
def compileBest (p : Population k σ) (eliminate : Bool) :
    Except Failure (Option (CompiledProgram k)) := do
  match ← p.bestProgram eliminate with
  | none => return none
  | some program =>
    return some (← CompiledProgram.compile k p.catalog program p.samples.arity)

end Population

end LinearGP
