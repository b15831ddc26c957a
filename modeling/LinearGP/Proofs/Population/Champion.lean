import Mathlib
import LinearGP.Proofs.Population.Calls
import LinearGP.Proofs.Standalone

/-!
# The reported loss is the loss of the reported program

The champion was measured by threaded code, in an evaluation that may be long past, and its place in
the store may hold another program by now.  It is handed out as a program compiled on its own.
`CompiledProgram.replay` calls that program with every row of the samples and adds up the distances
from the expected outputs; after any calls, the sum is the reported loss.
-/

set_option autoImplicit false

namespace LinearGP

variable {k : ElementKind}

/-! ## Sums over the rows of a sample set -/

/-- The distances add up row by row and lane by lane. -/
theorem totalDistance_eq {rows lanes : Nat} {outputs expected : List k.Value}
    (houtputs : outputs.length = rows * lanes) (hexpected : expected.length = rows * lanes) :
    totalDistance k outputs expected =
      (List.range rows).foldl (fun sum row =>
        (List.range lanes).foldl (fun sum lane =>
          sum.add (k.distance (outputs.getD (row * lanes + lane) 0)
            (expected.getD (row * lanes + lane) 0))) sum) .zero := by
  have hzip : List.zipWith k.distance outputs expected =
      (List.range (rows * lanes)).map fun i =>
        k.distance (outputs.getD i 0) (expected.getD i 0) := by
    apply List.ext_getElem
    · simp [houtputs, hexpected]
    · intro i hi _
      rw [List.length_zipWith, houtputs, hexpected, Nat.min_self] at hi
      rw [List.getElem_zipWith, List.getElem_map, List.getElem_range,
        List.getD_eq_getElem _ _ (by omega), List.getD_eq_getElem _ _ (by omega)]
  rw [totalDistance, hzip, range_mul, List.map_flatMap, List.foldl_flatMap]
  simp only [List.foldl_map]

namespace CompiledProgram

/-- Call a program with every row of a sample set, and add up the distances of its outputs from the
expected ones in row and lane order. -/
def replay (c : CompiledProgram k) (samples : SampleSet k) : Except Failure Binary64 :=
  (List.range samples.rows).foldlM (fun sum row => do
    let outputs ← c.call (samples.rowInputs row)
    (List.range samples.lanes).foldlM (fun sum lane => do
      let expected ← samples.output row lane
      match outputs[lane]? with
      | some actual => return sum.add (k.distance actual expected)
      | none => breach .indexOutOfRange) sum) .zero

/-- Replaying a compiled program adds up the distances of the values that its calls return. -/
theorem replay_eq {c : CompiledProgram k} {samples : SampleSet k}
    (hsize : samples.outputs.size = samples.rows * samples.lanes) {values : List k.Value}
    (hlength : values.length = samples.rows * samples.lanes)
    (hcalls : ∀ row < samples.rows, ∃ outputs, c.call (samples.rowInputs row) = .ok outputs ∧
      ∀ lane < samples.lanes, outputs[lane]? = values[row * samples.lanes + lane]?) :
    c.replay samples = .ok (totalDistance k values samples.outputs.toList) := by
  rw [totalDistance_eq hlength (by simpa using hsize)]
  unfold replay
  apply foldlM_eq_ok
  intro row hrow sum
  have hin := List.mem_range.mp hrow
  obtain ⟨outputs, hcall, houtputs⟩ := hcalls row hin
  rw [hcall]
  show List.foldlM _ sum _ = _
  apply foldlM_eq_ok
  intro lane hlane sum
  have hlane := List.mem_range.mp hlane
  have hplace : row * samples.lanes + lane < values.length := by
    rw [hlength]
    exact mul_add_lt_mul hin hlane
  have hexpected : samples.output row lane =
      .ok (samples.outputs.toList.getD (row * samples.lanes + lane) 0) := by
    unfold SampleSet.output
    rw [if_pos ⟨hin, hlane⟩, Array.getD_eq_getD_getElem?, List.getD_eq_getElem?_getD,
      Array.getElem?_toList]
  rw [hexpected]
  simp only [bind, Except.bind]
  rw [houtputs lane hlane, List.getElem?_eq_getElem hplace, List.getD_eq_getElem _ _ hplace]
  rfl

/-- A call on a row of samples returns the outputs of the instructions. -/
theorem call_rowInputs {c : CompiledProgram k} {l : Layout} {samples : SampleSet k}
    (h : l.Suits samples) (hlayout : c.layout = l.single) {row : Nat} {output : List k.Value}
    (houtput : l.evaluate c.body (samples.rowInputs row) 0 = some output) :
    c.call (samples.rowInputs row) = .ok output.toArray := by
  have hinputs : (samples.rowInputs row).size = l.arity * l.lanes := by
    rw [SampleSet.size_rowInputs, h.arity_eq, h.lanes_eq]
  rw [call_eq h.accepted h.element_eq hlayout hinputs, houtput]

/-- The sum is that of the values that the instructions of the program have by themselves. -/
theorem replay_of_evaluate {c : CompiledProgram k} {l : Layout} {samples : SampleSet k}
    (h : l.Suits samples) (hlayout : c.layout = l.single)
    (hsize : samples.outputs.size = samples.rows * samples.lanes) {values : List k.Value}
    (hlength : values.length = samples.rows * samples.lanes)
    (hrows : ∀ row < samples.rows, ∃ output,
      l.evaluate c.body (samples.rowInputs row) 0 = some output ∧
        ∀ lane < samples.lanes, values[row * samples.lanes + lane]? = output[lane]?) :
    c.replay samples = .ok (totalDistance k values samples.outputs.toList) := by
  apply replay_eq hsize hlength
  intro row hrow
  obtain ⟨output, houtput, hvalue⟩ := hrows row hrow
  refine ⟨output.toArray, call_rowInputs h hlayout houtput, ?_⟩
  intro lane hlane
  rw [List.getElem?_toArray]
  exact (hvalue lane hlane).symm

end CompiledProgram

namespace Population

variable {σ : Type} {host : Host} {options : Options} {samples : SampleSet k} {p : Population k σ}

/-! ## The best program -/

/-- With its introns or without them, the champion has the same outputs. -/
theorem Valid.exists_bestProgram (h : p.Valid host options samples) {best : Program}
    (hbest : p.best = some best) {instructions : List Instruction}
    (hinstructions : best.instructions p.catalog = .ok instructions) (eliminate : Bool) :
    ∃ program compiled, p.bestProgram eliminate = .ok (some program) ∧
      program.instructions p.catalog = .ok compiled ∧
      ∀ (inputs : Array k.Value) (row : Nat) (values : List k.Value),
        p.layout.evaluate instructions inputs row = some values →
          p.layout.evaluate compiled inputs row = some values := by
  unfold bestProgram
  simp only [hbest]
  cases eliminate with
  | false => exact ⟨best, instructions, rfl, hinstructions, fun _ _ _ hvalues => hvalues⟩
  | true =>
      obtain ⟨kept, keptInstructions, helim, hkept, hvalues⟩ :=
        Layout.exists_eliminateIntrons_evaluate h.accepted h.element_eq
          (Catalog.movesScalar_of_build h.catalog_eq) hinstructions
      refine ⟨kept, keptInstructions, ?_, hkept, hvalues⟩
      rw [if_pos rfl, helim]
      rfl

/-- The best program compiles when all its opcodes are known. -/
theorem Valid.exists_compileBest (h : p.Valid host options samples) {program : Program}
    {eliminate : Bool} (hbest : p.bestProgram eliminate = .ok (some program))
    {instructions : List Instruction}
    (hinstructions : program.instructions p.catalog = .ok instructions) :
    ∃ c : CompiledProgram k, p.compileBest eliminate = .ok (some c) ∧
      c.layout = p.layout.single ∧ c.body = instructions := by
  have hcode := h.codeFor
  have hlayout := h.code_fields.1
  have harity : p.samples.arity = p.layout.arity := by rw [h.layout_dimensions]
  refine ⟨{ layout := p.layout.single, body := instructions }, ?_, rfl, rfl⟩
  unfold compileBest
  simp only [hbest, bind, Except.bind]
  rw [harity, CompiledProgram.compile_eq h.accepted h.element_eq (hlayout ▸ hcode.element_eq)
    (hlayout ▸ hcode.vectorized_eq), hinstructions]
  rfl

/-- The champion of a valid population has the loss that is reported for it. -/
theorem Valid.exists_replay (h : p.Valid host options samples)
    (hsize : samples.outputs.size = samples.rows * samples.lanes) {best : Program}
    (hbest : p.best = some best) (eliminate : Bool) :
    ∃ c : CompiledProgram k, p.compileBest eliminate = .ok (some c) ∧
      c.replay samples = .ok p.bestLoss := by
  obtain ⟨champion, hchampion, rfl⟩ := Option.map_eq_some_iff.mp hbest
  obtain ⟨values, hvalues, hloss⟩ := h.champion champion hchampion
  obtain ⟨instructions, hinstructions, hrows⟩ := Program.outputs_eq_ok_iff.mp hvalues
  obtain ⟨program, compiled, hprogram, hcompiled, hsame⟩ :=
    h.exists_bestProgram hbest hinstructions eliminate
  obtain ⟨c, hcompile, hlayout, hbody⟩ := h.exists_compileBest hprogram hcompiled
  obtain ⟨hlength, houtputs⟩ := Layout.evaluateRows_eq_some h.accepted hrows
  obtain ⟨hsuits, hrowCount⟩ := Layout.suits_of_ofSamples h.layout_eq
  have hsamples := h.samples_eq
  subst hsamples
  have hcalls : ∀ row < p.samples.rows, ∃ output,
      p.layout.evaluate c.body (p.samples.rowInputs row) 0 = some output ∧
        ∀ lane < p.samples.lanes, values[row * p.samples.lanes + lane]? = output[lane]? := by
    intro row hrow
    obtain ⟨output, houtput, hvalue⟩ := houtputs row (by omega)
    rw [Nat.zero_add] at houtput
    rw [hsuits.lanes_eq] at hvalue
    refine ⟨output, ?_, hvalue⟩
    rw [← h.rowInputs_eq hrow, Layout.evaluate_rowInputs, hbody]
    exact hsame _ _ _ houtput
  have hlength : values.length = p.samples.rows * p.samples.lanes := by
    rw [hlength, hsuits.lanes_eq, hrowCount]
  refine ⟨c, hcompile, ?_⟩
  rw [CompiledProgram.replay_of_evaluate hsuits hlayout hsize hlength hcalls, hloss, bestLoss,
    hchampion]

variable [DrawSource σ]

/-- Whatever was called since a population was created, the compiled champion has the reported loss
on the samples, with its introns or without them. -/
theorem compileBest_replay {arity : Nat} {list : List (Sample k)} {source : σ}
    (hsamples : SampleSet.scalar arity list = .ok samples ∨
      SampleSet.vectorized arity list = .ok samples)
    (hcreate : create host options samples source = .ok p) (calls : List Call) {best : Program}
    (hbest : (run calls p).2.best = some best) (eliminate : Bool) :
    ∃ c : CompiledProgram k, (run calls p).2.compileBest eliminate = .ok (some c) ∧
      c.replay samples = .ok (run calls p).2.bestLoss := by
  have hsize : samples.outputs.size = samples.rows * samples.lanes := by
    rcases hsamples with hscalar | hvectorized
    · exact SampleSet.size_outputs hscalar
    · exact SampleSet.size_outputs hvectorized
  exact ((valid_of_create hcreate).run calls).exists_replay hsize hbest eliminate

/-- A seeded population, after a generation and a second reproduction. -/
theorem compileBest_replay_inc : ∃ (samples : SampleSet .i64) (p : Population .i64 Pcg64),
    SampleSet.scalar 1 [⟨#[5], 6⟩, ⟨#[1], 2⟩] = .ok samples ∧
    create .full { populationSize := 4, threads := 2, demeSize := 4, tournamentSize := 2
                   programSize := 2, instructions := some [.inc, .neg], moves := some [] } samples
        (.ofSeed 7) = .ok p ∧
    (run [.next 20, .reproduce] p).2.best.isSome = true ∧
    ∃ c : CompiledProgram .i64, (run [.next 20, .reproduce] p).2.compileBest true = .ok (some c) ∧
      c.replay samples = .ok (run [.next 20, .reproduce] p).2.bestLoss := by
  have hsamples : SampleSet.scalar 1 [⟨#[5], 6⟩, ⟨#[1], 2⟩] =
      .ok (⟨#[5, 1], #[6, 2], 2, 1, 1⟩ : SampleSet .i64) := rfl
  have hrun : (match create .full { populationSize := 4, threads := 2, demeSize := 4
                                    tournamentSize := 2, programSize := 2
                                    instructions := some [.inc, .neg], moves := some [] }
        (⟨#[5, 1], #[6, 2], 2, 1, 1⟩ : SampleSet .i64) (Pcg64.ofSeed 7) with
      | .ok p => (run [.next 20, .reproduce] p).2.best.isSome
      | .error _ => false) = true := by decide +kernel
  split at hrun
  · next p hcreate =>
    obtain ⟨best, hbest⟩ := Option.isSome_iff_exists.mp hrun
    obtain ⟨c, hcompile, hreplay⟩ :=
      compileBest_replay (.inl hsamples) hcreate [.next 20, .reproduce] hbest true
    exact ⟨_, p, hsamples, hcreate, hrun, c, hcompile, hreplay⟩
  · cases hrun

end Population

end LinearGP
