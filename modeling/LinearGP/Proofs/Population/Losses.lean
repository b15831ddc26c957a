import Mathlib
import LinearGP.Proofs.Catalog.Forms
import LinearGP.Proofs.Population.Calls

/-!
# Losses are measured on the samples themselves

Between a list of samples and a loss stand rows of lanes, the input region, the partitions of the
store and the slices of the threads.  `evaluate_losses` says what is left when all of them are taken
away: the loss of a program adds up, in the order of the list, how far the program is from what each
sample expects, where it runs by itself from cleared registers, and where only the lane of the sample
matters.
-/

set_option autoImplicit false

namespace LinearGP

variable {k : ElementKind} {σ : Type}

/-- Where rows are single samples, a sample is all there is in a row. -/
theorem Layout.Carries.eq_of_lanes_eq_one {l : Layout} (hone : l.lanes = 1)
    {inputs inputs' : Array k.Value} {lane : Nat} (hlane : lane < l.lanes) {sample : Sample k}
    (h : l.Carries inputs lane sample) (h' : l.Carries inputs' lane sample) : inputs = inputs' := by
  obtain rfl : lane = 0 := by omega
  obtain ⟨hsize, hvalues⟩ := h
  obtain ⟨hsize', hvalues'⟩ := h'
  rw [hone, Nat.mul_one] at hsize hsize'
  apply Array.ext_getElem?
  intro column
  by_cases hcolumn : column < l.arity
  · have hvalue := hvalues column hcolumn
    have hvalue' := hvalues' column hcolumn
    rw [hone, Nat.mul_one, Nat.add_zero] at hvalue hvalue'
    rw [hvalue, hvalue']
  · rw [Array.getElem?_eq_none (by omega), Array.getElem?_eq_none (by omega)]

namespace Population

variable {host : Host} {options : Options} {samples : SampleSet k} {p : Population k σ}

/-- The output in a lane depends on the sample in that lane, and on no others in its row. -/
theorem Valid.evaluate_of_carries (h : p.Valid host options samples) {program : Program}
    {instructions : List Instruction}
    (hinstructions : program.instructions p.catalog = .ok instructions) {lane : Nat}
    (hlane : lane < p.layout.lanes) {inputs inputs' : Array k.Value} {sample : Sample k}
    (hcarries : p.layout.Carries inputs lane sample)
    (hcarries' : p.layout.Carries inputs' lane sample) {values : List k.Value}
    (hvalues : p.layout.evaluate instructions inputs 0 = some values) :
    ∃ values', p.layout.evaluate instructions inputs' 0 = some values' ∧
      values[lane]? = values'[lane]? := by
  cases hvector : p.layout.isVectorized with
  | false =>
      -- with a single lane, only one list of inputs carries the sample
      have hone : p.layout.lanes = 1 := by
        rw [h.accepted.lanes_eq_ite, hvector]
        rfl
      obtain rfl := hcarries.eq_of_lanes_eq_one hone hlane hcarries'
      exact ⟨values, hvalues, rfl⟩
  | true =>
      have hfloat : k.isFloat = true := by
        rcases h.accepted.lanes_eq with hone | ⟨-, hfloat⟩
        · rw [Layout.isVectorized, hone] at hvector
          cases hvector
        · rwa [h.element_eq] at hfloat
      have hbuilt : (p.options.catalogOptions k).vectorized = true := by
        rw [← (Catalog.build_eq_ok h.catalog_eq).2.2, h.codeFor.vectorized_eq, h.code_fields.1,
          hvector]
      -- vectorized catalogs work lane by lane, whatever is in the other lanes
      have hforms : ∀ i ∈ instructions, i.Lanewise k.precision ∧ i.inForm true = i := by
        intro i hi
        rw [← hbuilt]
        exact Catalog.lanewise_of_build h.catalog_eq hfloat (.inr hbuilt)
          (Program.mem_of_instructions hinstructions hi)
      have hself : instructions.map (Instruction.inForm true) = instructions :=
        (List.map_congr_left fun i hi => (hforms i hi).2).trans (List.map_id' instructions)
      obtain ⟨found, found', hfound, hfound', hsame⟩ :=
        Layout.exists_evaluate_lane h.accepted h.accepted h.element_eq h.element_eq hfloat rfl hlane
          hlane hcarries hcarries' fun i hi => (hforms i hi).1
      rw [hvector, hself] at hfound hfound'
      rw [hvalues, Option.some.injEq] at hfound
      subst hfound
      exact ⟨found', hfound', hsame⟩

/-- The outputs of a program are those that it has for each sample. -/
theorem Valid.outputs_samples (h : p.Valid host options samples) {arity lanes : Nat}
    {list : List (Sample k)} (hsamples : SampleSet.ofSamples arity lanes list = .ok samples)
    {program : Program} {values : List k.Value}
    (hvalues : program.outputs p.catalog p.layout p.input.values = .ok values) :
    ∃ instructions, program.instructions p.catalog = .ok instructions ∧
      values.length = list.length ∧
      ∀ n sample, list[n]? = some sample →
        p.layout.Carries (samples.rowInputs (n / samples.lanes)) (n % samples.lanes) sample ∧
        ∀ inputs, p.layout.Carries inputs (n % samples.lanes) sample →
          ∃ outputs, p.layout.evaluate instructions inputs 0 = some outputs ∧
            values[n]? = outputs[n % samples.lanes]? := by
  obtain ⟨instructions, hinstructions, hrows⟩ := Program.outputs_eq_ok_iff.mp hvalues
  obtain ⟨hsuits, hrowCount⟩ := Layout.suits_of_ofSamples h.layout_eq
  have hinput := h.input_eq
  rw [h.samples_eq] at hsuits hrowCount hinput
  rw [hrowCount, InputRegion.values_of_ofSamples hsamples hinput] at hrows
  obtain ⟨hlength, houtputs⟩ := Layout.evaluateRows_samples hsuits hsamples hrows
  refine ⟨instructions, hinstructions, hlength, fun n sample hn => ?_⟩
  have hcarries := Layout.carries_rowInputs hsamples hsuits hn
  refine ⟨hcarries, fun inputs hinputs => ?_⟩
  have hlane : n % samples.lanes < p.layout.lanes := by
    rw [hsuits.lanes_eq]
    exact Nat.mod_lt n (SampleSet.lanes_pos hsamples)
  obtain ⟨output, houtput, hat⟩ := houtputs n (List.getElem?_eq_some_iff.mp hn).1
  obtain ⟨outputs, hevaluate, hsame⟩ :=
    h.evaluate_of_carries hinstructions hlane hcarries hinputs houtput
  exact ⟨outputs, hevaluate, hat.trans hsame⟩

variable [DrawSource σ]

/-- After an evaluation that succeeded, whatever was called before it, the loss of every program is
the sum of the distances between its outputs and the expected ones, in the order of the samples, or
infinite when the sum is not finite.  The output for a sample is what the program leaves in the lane
of the sample when it runs by itself, on any row that carries the sample in that lane. -/
theorem evaluate_losses {arity : Nat} {list : List (Sample k)} {source : σ}
    (hsamples : SampleSet.scalar arity list = .ok samples ∨
      SampleSet.vectorized arity list = .ok samples)
    (hcreate : create host options samples source = .ok p) (calls : List Call) {q : Population k σ}
    (hevaluate : evaluate (run calls p).2 = .ok () q) :
    q.store = (run calls p).2.store ∧
    ∀ program < options.populationSize, ∃ opcodes instructions outputs,
      q.store.program program = .ok opcodes ∧
      opcodes.instructions q.catalog = .ok instructions ∧
      q.losses[program]? = some (totalDistance k outputs (list.map (·.output))).orInfinity ∧
      outputs.length = list.length ∧
      ∀ n sample, list[n]? = some sample →
        q.layout.Carries (samples.rowInputs (n / samples.lanes)) (n % samples.lanes) sample ∧
        ∀ inputs, q.layout.Carries inputs (n % samples.lanes) sample →
          ∃ values, q.layout.evaluate instructions inputs 0 = some values ∧
            outputs[n]? = values[n % samples.lanes]? := by
  obtain ⟨lanes, hgrouped⟩ : ∃ lanes, SampleSet.ofSamples arity lanes list = .ok samples := by
    rcases hsamples with hscalar | hvectorized
    · exact ⟨1, hscalar⟩
    · exact ⟨k.lanes, hvectorized⟩
  have h := (valid_of_create hcreate).run calls
  generalize (run calls p).2 = r at h hevaluate
  rw [h.evaluate_eq] at hevaluate
  cases hvalues : r.outputs with
  | error failure =>
      rw [hvalues] at hevaluate
      cases hevaluate
  | ok values =>
      rw [hvalues] at hevaluate
      injection hevaluate with _ hq
      subst hq
      refine ⟨rfl, fun program hprogram => ?_⟩
      have hcount : program < r.store.programCount := by
        rw [h.programCount_eq, h.options_eq]
        exact hprogram
      have hread : (r.lossesOf values)[program]? = some _ :=
        Array.getElem?_eq_getElem ((size_lossesOf hvalues).symm ▸ hcount)
      obtain ⟨outputs, houtputs, hloss⟩ := getElem?_lossesOf hvalues hread
      obtain ⟨instructions, hinstructions, hlength, hlanes⟩ := h.outputs_samples hgrouped houtputs
      refine ⟨_, instructions, outputs, Store.program_eq h.runnable.wellFormed hcount,
        hinstructions, ?_, hlength, hlanes⟩
      show (r.lossesOf values)[program]? = _
      rw [hread, hloss, SampleSet.loss, h.samples_eq, SampleSet.outputs_eq hgrouped]

/-- Two programs that add their input to itself, evaluated on a row of two samples after a
generation. -/
theorem evaluate_losses_double : ∃ (samples : SampleSet .f64) (p q : Population .f64 Pcg64),
    SampleSet.vectorized 1 [⟨#[0x3ff0000000000000], 0x4000000000000000⟩,
      ⟨#[0x4000000000000000], 0x4010000000000000⟩] = .ok samples ∧
    create .full { populationSize := 2, threads := 2, demeSize := 2, tournamentSize := 1
                   programSize := 1, instructions := some [.fadd], moves := some [], vectorized := true }
        samples (.ofSeed 7) = .ok p ∧
    evaluate (run [.next 20] p).2 = .ok () q ∧
    ∃ outputs, q.losses[1]? =
      some (totalDistance .f64 outputs [0x4000000000000000, 0x4010000000000000]).orInfinity := by
  have hsamples : SampleSet.vectorized 1 [⟨#[0x3ff0000000000000], 0x4000000000000000⟩,
      ⟨#[0x4000000000000000], 0x4010000000000000⟩] =
        .ok (⟨#[0x3ff0000000000000, 0x4000000000000000],
          #[0x4000000000000000, 0x4010000000000000], 1, 1, 2⟩ : SampleSet .f64) := rfl
  have hrun : (match create .full { populationSize := 2, threads := 2, demeSize := 2
                                    tournamentSize := 1, programSize := 1, instructions := some [.fadd]
                                    moves := some [], vectorized := true }
        (⟨#[0x3ff0000000000000, 0x4000000000000000], #[0x4000000000000000, 0x4010000000000000],
          1, 1, 2⟩ : SampleSet .f64) (Pcg64.ofSeed 7) with
      | .ok p => (outcome (evaluate (run [.next 20] p).2)).isOk
      | .error _ => false) = true := by decide +kernel
  split at hrun
  · next p hcreate =>
    cases hevaluate : evaluate (run [.next 20] p).2 with
    | ok _ q =>
        obtain ⟨-, hlosses⟩ := evaluate_losses (.inr hsamples) hcreate [.next 20] hevaluate
        obtain ⟨_, _, outputs, -, -, hloss, -, -⟩ := hlosses 1 (by decide)
        exact ⟨_, p, q, hsamples, hcreate, hevaluate, outputs, hloss⟩
    | error failure q =>
        rw [hevaluate] at hrun
        cases hrun
  · cases hrun

end Population

end LinearGP
