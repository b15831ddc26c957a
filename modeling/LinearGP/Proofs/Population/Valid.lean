import Mathlib
import LinearGP.Population.Basic
import LinearGP.Proofs.Evaluation
import LinearGP.Proofs.Layout.Regions
import LinearGP.Proofs.Samples
import LinearGP.Proofs.Selection.Reproduction
import LinearGP.Proofs.ThreadedCode.Cells

/-!
# What a population keeps

The catalog, the layout, the code and the inputs of a population are made once, from its options and
its samples.  The store and the outputs change, but not their dimensions, and the store never holds
an opcode that the code has no cell for.  `Population.Valid` collects this, together with the promise
that the champion really had the loss that is reported for it; a new population is valid.
-/

set_option autoImplicit false

namespace LinearGP

variable {k : ElementKind}

namespace Population

variable {σ : Type}

/-- A program has a loss on the samples. -/
def Scores (p : Population k σ) (program : Program) (loss : Binary64) : Prop :=
  ∃ values, program.outputs p.catalog p.layout p.input.values = .ok values ∧
    totalDistance k values p.samples.outputs.toList = loss

/-- What a population keeps that is made from given options and samples. -/
structure Valid (host : Host) (options : Options) (samples : SampleSet k) (p : Population k σ) : Prop where
  options_eq : p.options = options
  samples_eq : p.samples = samples
  catalog_eq : Catalog.build host (p.options.catalogOptions k) = .ok p.catalog
  layout_eq : Layout.ofSamples p.samples p.options.populationSize = .ok p.layout
  code_eq : ThreadedCode.create p.catalog p.layout p.options.programSize p.options.counting =
    .ok p.code
  input_eq : InputRegion.ofSamples p.layout p.samples = .ok p.input
  runnable : p.store.Runnable p.catalog.opcodeCount
  programCount_eq : p.store.programCount = p.options.populationSize
  programSize_eq : p.store.programSize = p.options.programSize
  output_size : p.output.values.size = p.options.populationSize * p.layout.outputsPerProgram
  perProgram_eq : p.output.perProgram = p.layout.outputsPerProgram
  addressable : p.output.values.size * k.size < 0x8000000000000000
  champion : ∀ c, p.champion = some c → p.Scores c.program c.loss

namespace Valid

variable {host : Host} {options : Options} {samples : SampleSet k} {p : Population k σ}

/-- The layout of a valid population has accepted dimensions. -/
theorem accepted (h : p.Valid host options samples) : p.layout.Accepted :=
  ((Layout.ofDimensions_eq_ok_iff _ _ _ _ _ _).mp h.layout_eq).2

/-- The layout of a valid population has the dimensions of its samples and one output for each
program. -/
theorem layout_dimensions (h : p.Valid host options samples) :
    p.layout = { element := k, rows := p.samples.rows, arity := p.samples.arity
                 lanes := p.samples.lanes, programs := p.options.populationSize } :=
  ((Layout.ofDimensions_eq_ok_iff _ _ _ _ _ _).mp h.layout_eq).1

/-- The layout of a valid population is for the elements of its samples. -/
theorem element_eq (h : p.Valid host options samples) : p.layout.element = k := by
  rw [h.layout_dimensions]

/-- The code of a valid population is one for its catalog. -/
theorem codeFor (h : p.Valid host options samples) : p.code.CodeFor p.catalog :=
  (ThreadedCode.codeFor_of_create h.accepted h.code_eq).1

/-- The code of a valid population was made for its layout, the length of its programs and its
instrumentation. -/
theorem code_fields (h : p.Valid host options samples) : p.code.layout = p.layout ∧
    p.code.programSize = p.options.programSize ∧ p.code.counting = p.options.counting :=
  (ThreadedCode.codeFor_of_create h.accepted h.code_eq).2

/-- The inputs of a row are those of the samples. -/
theorem rowInputs_eq (h : p.Valid host options samples) {row : Nat} (hrow : row < p.samples.rows) :
    p.layout.rowInputs p.input.values row = p.samples.rowInputs row :=
  InputRegion.rowInputs_of_ofSamples h.input_eq (by rwa [h.layout_dimensions])

/-- The inputs of a valid population fill their region. -/
theorem input_size (h : p.Valid host options samples) : p.input.values.size = p.layout.inputLength :=
  InputRegion.size_of_ofSamples h.input_eq

end Valid

/-! ## New populations -/

variable [DrawSource σ]

/-- A store is seeded by creating, preparing and randomising it, when all three succeed. -/
theorem seedStore_eq_ok {options : Options} {catalog : Catalog} {source source' : σ} {store : Store}
    (h : seedStore options catalog source = .ok (store, source')) :
    ∃ blank prepared,
      Store.create options.threads options.populationSize options.programSize = .ok blank ∧
      blank.prepare = .ok prepared ∧
      randomize Opcode.first catalog.endOpcode (prepared, source) = .ok () (store, source') := by
  unfold seedStore at h
  obtain ⟨blank, hblank, h⟩ := bind_eq_ok_iff.mp h
  obtain ⟨prepared, hprepared, h⟩ := bind_eq_ok_iff.mp h
  refine ⟨blank, prepared, hblank, hprepared, ?_⟩
  cases hdraws : randomize Opcode.first catalog.endOpcode (prepared, source) with
  | ok a seeded =>
      rw [hdraws] at h
      injection h with h
      rw [h]
  | error failure seeded =>
      rw [hdraws] at h
      cases h

/-- A store of random programs is ready to run, and has the dimensions that were asked for. -/
theorem runnable_of_seedStore {options : Options} {catalog : Catalog} {source source' : σ}
    {store : Store} (h : seedStore options catalog source = .ok (store, source')) :
    store.Runnable catalog.opcodeCount ∧ store.threads = options.threads ∧
      store.programCount = options.populationSize ∧ store.programSize = options.programSize := by
  obtain ⟨blank, prepared, hcreate, hprepare, hdraws⟩ := seedStore_eq_ok h
  obtain ⟨hwell, hthreads, -, hsize⟩ := Store.wellFormed_of_prepare hcreate hprepare
  have hrunnable : prepared.Runnable catalog.opcodeCount := by
    refine ⟨hwell, ?_⟩
    intro i _
    have hle := Store.toNat_le_of_prepare hprepare i
    have hpos := catalog.size_pos
    unfold Catalog.opcodeCount Catalog.size
    omega
  have hseeded := hrunnable.randomize source
  rw [hdraws] at hseeded
  obtain ⟨hstore, hshape⟩ := hseeded
  exact ⟨hstore, hshape.threads_eq.trans hthreads,
    hshape.programCount_eq.trans (Store.programCount_of_prepare hcreate hprepare),
    hshape.programSize_eq.trans hsize⟩

/-- A population is created from its parts when all of these can be made. -/
theorem create_eq_ok {host : Host} {options : Options} {samples : SampleSet k} {source : σ}
    {p : Population k σ} (h : create host options samples source = .ok p) :
    ∃ catalog store source' layout code input output,
      Catalog.build host (options.catalogOptions k) = .ok catalog ∧
      seedStore options catalog source = .ok (store, source') ∧
      Layout.ofSamples samples options.populationSize = .ok layout ∧
      ThreadedCode.create catalog layout options.programSize options.counting = .ok code ∧
      InputRegion.ofSamples layout samples = .ok input ∧
      OutputRegion.zeroed k layout = .ok output ∧
      p = { options, samples, catalog, layout, code, input, output, store
            losses := Array.replicate options.populationSize .infinity
            wins := Array.replicate options.populationSize 0
            champion := none, generation := 0, executed := 0, source := source' } := by
  unfold create at h
  obtain ⟨-, -, h⟩ := bind_eq_ok_iff.mp h
  split at h
  · simp [refuse] at h
  · obtain ⟨catalog, hcatalog, h⟩ := bind_eq_ok_iff.mp h
    obtain ⟨⟨store, source'⟩, hseeded, h⟩ := bind_eq_ok_iff.mp h
    obtain ⟨layout, hlayout, h⟩ := bind_eq_ok_iff.mp h
    obtain ⟨code, hcode, h⟩ := bind_eq_ok_iff.mp h
    obtain ⟨input, hinput, h⟩ := bind_eq_ok_iff.mp h
    obtain ⟨output, houtput, h⟩ := bind_eq_ok_iff.mp h
    injection h with h
    exact ⟨catalog, store, source', layout, code, input, output, hcatalog, hseeded, hlayout, hcode,
      hinput, houtput, h.symm⟩

/-- A population is valid when it is created. -/
theorem valid_of_create {host : Host} {options : Options} {samples : SampleSet k} {source : σ}
    {p : Population k σ} (h : create host options samples source = .ok p) : p.Valid host options samples := by
  obtain ⟨catalog, store, source', layout, code, input, output, hcatalog, hseeded, hlayout, hcode,
    hinput, houtput, rfl⟩ := create_eq_ok h
  obtain ⟨hrunnable, -, hcount, hsize⟩ := runnable_of_seedStore hseeded
  obtain ⟨houtputSize, hperProgram, -, hword⟩ := OutputRegion.zeroed_eq_ok houtput
  have hprograms : layout.programs = options.populationSize := by
    rw [((Layout.ofDimensions_eq_ok_iff _ _ _ _ _ _).mp hlayout).1]
  exact {
    options_eq := rfl
    samples_eq := rfl
    catalog_eq := hcatalog
    layout_eq := hlayout
    code_eq := hcode
    input_eq := hinput
    runnable := hrunnable
    programCount_eq := hcount
    programSize_eq := hsize
    output_size := hprograms ▸ houtputSize
    perProgram_eq := hperProgram
    addressable := hword
    champion := by
      intro c hc
      cases hc }

end Population

end LinearGP
