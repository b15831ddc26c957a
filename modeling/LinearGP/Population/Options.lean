import LinearGP.Catalog.Build

/-!
# Training options

The settings of a training run.  `Options.validate` names the first inconsistency, in the order in
which the fields are declared here; the match of samples and vectorization is checked later, when
there are samples.
-/

set_option autoImplicit false

namespace LinearGP

/-- The settings of a training run. -/
structure Options where
  populationSize : Nat := 1024
  threads : Nat := 1
  demeSize : Nat := 1024
  tournamentSize : Nat := 4
  programSize : Nat := 32
  /-- Chance of an instruction to be replaced by mutation; one hundredth. -/
  mutationRate : Binary64 := ⟨0x3f847ae147ae147b#64⟩
  /-- The share of a generation that may come from one program; one twentieth. -/
  maxOffspringRatio : Binary64 := ⟨0x3fa999999999999a#64⟩
  /-- Generations from one major generation to the next. -/
  majorFrequency : Nat := 10
  seed : BitVec 64 := 0
  /-- Mnemonics to use apart from moves; everything when absent. -/
  instructions : Option (List Mnemonic) := none
  /-- Moves to use; every move when absent. -/
  moves : Option (List Mnemonic) := none
  allowUnsafe : Bool := false
  allowUnsupported : Bool := false
  safeDivision : Bool := true
  vectorized : Bool := false
  zeroOutputs : Bool := false
  counting : Bool := false
deriving DecidableEq

namespace Options

/-- The first inconsistency. -/
def flaw? (o : Options) : Option OptionsFlaw :=
  if o.populationSize = 0 then some .emptyPopulation
  else if o.threads = 0 ∨ o.populationSize % o.threads ≠ 0 then some .unevenThreads
  else if o.demeSize = 0 ∨ o.populationSize % o.demeSize ≠ 0 then some .unevenDemes
  else if o.tournamentSize = 0 then some .emptyTournament
  else if o.programSize = 0 then some .emptyPrograms
  else if !o.mutationRate.isChance then some .mutationRate
  else if !(Binary64.zero.less o.maxOffspringRatio && o.maxOffspringRatio.isFinite) then
    some .offspringRatio
  else if o.majorFrequency = 0 then some .majorFrequency
  else none

def validate (o : Options) : Except Failure Unit :=
  match o.flaw? with
  | some flaw => refuse (.invalidOptions flaw)
  | none => .ok ()

/-- The most wins of one program in a selection: its share of the population, rounded up, at least
one and at most what a byte holds.  A share that is no number leaves no wins at all. -/
def winCap (o : Options) : UInt8 :=
  let share := o.maxOffspringRatio.mul (.ofNat o.populationSize)
  if share.isNaN then 0
  else if share.atMost .one then 1
  else if (Binary64.ofNat 255).less share then 255
  else UInt8.ofNat share.ceil

/-- The catalog of a run on samples of an element type. -/
def catalogOptions (o : Options) (element : ElementKind) : CatalogOptions where
  element := element
  vectorized := o.vectorized
  instructions := o.instructions
  moves := o.moves
  allowUnsafe := o.allowUnsafe
  allowUnsupported := o.allowUnsupported
  safeDivision := o.safeDivision

end Options

end LinearGP
