import Mathlib
import LinearGP.Proofs.Ieee.Order
import LinearGP.Proofs.Population.Valid
import LinearGP.Proofs.ThreadedCode.Refinement

/-!
# An evaluation scores every program by itself

Threads run their programs on their own slices of the outputs, which still hold the outputs of an
earlier evaluation.  None of this shows in the result: `Valid.evaluate_eq` says that an evaluation
computes `Population.outputs`, the outputs of every program when it is run by itself, and updates
the rest of the population from them.  An evaluation that fails does so like the first program that
fails, and changes the outputs only.
-/

set_option autoImplicit false

namespace LinearGP

variable {k : ElementKind} {σ : Type}

/-! ## Losses -/

/-- A loss that is less than another one is a plain sum. -/
theorem Binary64.orInfinity_of_less {x y : Binary64} (h : x.orInfinity.less y = true) :
    x.orInfinity = x := by
  unfold Binary64.orInfinity at h ⊢
  split at h
  · next hfinite => exact if_pos hfinite
  · simp [Binary64.infinity_less] at h

/-- The least loss is the loss of the program that is reported. -/
theorem getElem?_of_leastLoss? {losses : Array Binary64} {program : Nat} {loss : Binary64}
    (h : leastLoss? losses = some (program, loss)) : losses[program]? = some loss := by
  -- Whatever the fold holds was read from the losses: a step keeps it or takes the next one.
  refine List.foldlRecOn (motive := fun best : Option (Nat × Binary64) =>
    ∀ x ∈ best, losses[x.1]? = some x.2) losses.toList.zipIdx _ (by simp) ?_ (program, loss) h
  intro best hbest next hmem
  have hnext : ∀ x ∈ some (next.2, next.1), losses[x.1]? = some x.2 := by
    rintro x ⟨⟩
    rw [← Array.getElem?_toList]
    exact List.mem_zipIdx_iff_getElem?.mp hmem
  cases best with
  | none => exact hnext
  | some least =>
      show ∀ x ∈ if next.1.totalKey < least.2.totalKey then some (next.2, next.1) else some least, _
      split
      · exact hnext
      · exact hbest

namespace Population

/-- The outputs of every program when it is run by itself. -/
def outputs (p : Population k σ) : Except Failure (List (List k.Value)) :=
  p.store.programs.mapM (Program.outputs p.catalog p.layout p.input.values)

/-- The outputs of the programs of each thread. -/
def threadOutputs (p : Population k σ) : Except Failure (List (List (List k.Value))) :=
  (List.range p.store.threads).mapM fun thread =>
    (p.store.threadPrograms thread).mapM (Program.outputs p.catalog p.layout p.input.values)

/-- The losses for the outputs of every program. -/
def lossesOf (p : Population k σ) (values : List (List k.Value)) : Array Binary64 :=
  (values.map fun outputs => p.samples.loss outputs.toArray).toArray

/-- Every program has its outputs. -/
theorem length_of_outputs {p : Population k σ} {values : List (List k.Value)}
    (hvalues : p.outputs = .ok values) : values.length = p.store.programCount :=
  (length_of_mapM_eq_ok hvalues).trans p.store.length_programs

/-- Every program has a loss. -/
theorem size_lossesOf {p : Population k σ} {values : List (List k.Value)}
    (hvalues : p.outputs = .ok values) : (p.lossesOf values).size = p.store.programCount := by
  rw [lossesOf, List.size_toArray, List.length_map, length_of_outputs hvalues]

/-- The champion after an evaluation with given losses. -/
def championOf (p : Population k σ) (losses : Array Binary64) : Option Champion :=
  match leastLoss? losses with
  | none => p.champion
  | some (program, loss) =>
    if loss.less p.bestLoss then some { program := p.store.programAt program, loss } else p.champion

/-- Instructions that one thread counts in an evaluation. -/
def countedPerThread (p : Population k σ) : Nat :=
  if p.options.counting then
    p.store.perThread * p.layout.rows * p.options.programSize % 0x10000000000000000
  else 0

/-- The population after an evaluation in which the programs had given outputs. -/
def scored (p : Population k σ) (values : List (List k.Value)) : Population k σ :=
  { p with
    output := { p.output with values := values.flatten.toArray }
    losses := p.lossesOf values
    champion := p.championOf (p.lossesOf values)
    executed := p.store.threads * p.countedPerThread }

/-- The slice of a thread. -/
def slice (p : Population k σ) (thread : Nat) : Array k.Value :=
  p.output.values.extract (thread * (p.store.perThread * p.layout.outputsPerProgram))
    ((thread + 1) * (p.store.perThread * p.layout.outputsPerProgram))

/-- What a thread leaves in its slice: the outputs of its programs, or what was there if one of them
fails. -/
def written (p : Population k σ) (thread : Nat) : Array k.Value :=
  match (p.store.threadPrograms thread).mapM
    (Program.outputs p.catalog p.layout p.input.values) with
  | .ok values => values.flatten.toArray
  | .error _ => p.slice thread

/-- The population after all threads have run. -/
def ran (p : Population k σ) : Population k σ :=
  { p with output := p.output.ofSlices ((List.range p.store.threads).map p.written) }

/-- The threads together compute the outputs of all programs. -/
theorem outputs_eq (p : Population k σ) : p.outputs = p.threadOutputs.map List.flatten := by
  unfold outputs threadOutputs
  rw [Store.programs_eq_flatMap, mapM_flatMap]

namespace Valid

variable {host : Host} {options : Options} {samples : SampleSet k} {p : Population k σ}

/-- The outputs of a population have room for every program of every thread. -/
theorem output_size_eq (h : p.Valid host options samples) : p.output.values.size =
    p.store.threads * (p.store.perThread * p.layout.outputsPerProgram) := by
  rw [h.output_size, ← h.programCount_eq, Store.programCount]
  ring

/-- Outputs are exchanged for others of the same dimensions. -/
theorem withOutput (h : p.Valid host options samples) {output : OutputRegion k}
    (hsize : output.values.size = p.output.values.size)
    (hwidth : output.perProgram = p.output.perProgram) :
    ({ p with output } : Population k σ).Valid host options samples :=
  { h with
    output_size := hsize.trans h.output_size
    perProgram_eq := hwidth.trans h.perProgram_eq
    addressable := by
      show output.values.size * k.size < _
      rw [hsize]
      exact h.addressable }

/-- A population stays valid when its outputs are cleared. -/
theorem cleared (h : p.Valid host options samples) : p.cleared.Valid host options samples := by
  refine h.withOutput ?_ ?_ <;> split <;> simp [OutputRegion.zero]

/-- The code of a valid population can run on its inputs. -/
theorem ready (h : p.Valid host options samples) :
    ThreadedCode.Ready p.catalog p.code p.input.values := by
  refine ⟨h.codeFor, ?_, ?_, ?_⟩ <;> rw [h.code_fields.1]
  · exact h.accepted
  · exact h.element_eq
  · exact h.input_size

/-- The partition of a thread holds the programs of this thread, each within the catalog. -/
theorem loaded (h : p.Valid host options samples) {thread : Nat} {partition : Partition}
    (hpartition : p.store.partition thread = .ok partition) :
    p.code.Loaded p.catalog partition (p.store.threadPrograms thread) := by
  refine ThreadedCode.loaded_of_partition h.runnable.wellFormed ?_ hpartition ?_
  · rw [h.programSize_eq, h.code_fields.2.1]
  · intro opcode hopcode
    exact h.runnable.toNat_lt_of_mem hpartition hopcode

/-- The outputs of a thread have room for every program of the thread. -/
theorem size_slice (h : p.Valid host options samples) {thread : Nat}
    (hthread : thread < p.store.threads) :
    (p.slice thread).size = p.store.perThread * p.layout.outputsPerProgram :=
  OutputRegion.size_slice h.output_size_eq hthread

/-- The outputs of a thread are what its run needs to write to. -/
theorem slice_slice (h : p.Valid host options samples) {thread : Nat}
    (hthread : thread < p.store.threads) : p.code.Slice p.store.perThread (p.slice thread) := by
  have hlength := h.size_slice hthread
  refine ⟨by rw [hlength, h.code_fields.1], lt_of_le_of_lt (Nat.mul_le_mul_right _ ?_) h.addressable⟩
  rw [hlength, h.output_size_eq]
  exact Nat.le_mul_of_pos_left _ (Nat.zero_lt_of_lt hthread)

/-- One thread computes the outputs of its programs. -/
theorem run_thread (h : p.Valid host options samples) {thread : Nat}
    (hthread : thread < p.store.threads) {partition : Partition}
    (hpartition : p.store.partition thread = .ok partition) :
    p.code.run partition p.input (p.slice thread) =
      match (p.store.threadPrograms thread).mapM
        (Program.outputs p.catalog p.layout p.input.values) with
      | .error failure => .error failure (p.slice thread)
      | .ok values => .ok p.countedPerThread values.flatten.toArray := by
  obtain ⟨hlayout, hprogramSize, hcounting⟩ := h.code_fields
  obtain ⟨-, hcount, -⟩ := Store.holds_partition h.runnable.wellFormed hpartition
  have hslice := h.slice_slice hthread
  rw [← hcount] at hslice
  rw [ThreadedCode.run_eq h.ready (h.loaded hpartition) hslice, hlayout, hcounting, hcount,
    hprogramSize]
  rfl

/-- Each thread gets its partition and its slice. -/
theorem exists_parts_eq (h : p.Valid host options samples) : ∃ partitions : Nat → Partition,
    (∀ thread < p.store.threads, p.store.partition thread = .ok (partitions thread)) ∧
      p.parts = .ok ((List.range p.store.threads).map fun thread =>
        (partitions thread, p.slice thread)) := by
  have hwell := h.runnable.wellFormed
  obtain ⟨partitions, hpartitions⟩ : ∃ partitions : Nat → Partition,
      ∀ thread < p.store.threads, p.store.partition thread = .ok (partitions thread) :=
    ⟨_, fun thread hthread => Store.partition_eq hwell hthread⟩
  have hall : p.store.partitions = .ok ((List.range p.store.threads).map partitions) :=
    mapM_eq_ok_map fun thread hthread => hpartitions thread (List.mem_range.mp hthread)
  have hslices : p.output.slices p.store.threads =
      .ok ((List.range p.store.threads).map p.slice) :=
    OutputRegion.slices_eq h.output_size_eq hwell.threads_pos (Nat.mul_pos hwell.perThread_pos
      (Nat.mul_pos h.accepted.rows_pos h.accepted.lanes_pos))
  refine ⟨partitions, hpartitions, ?_⟩
  unfold parts
  rw [hall, hslices, ← List.zip_map']
  rfl

/-- Running all threads leaves what each of them writes. -/
theorem runAll_eq (h : p.Valid host options samples) :
    p.runAll = match p.threadOutputs with
      | .error failure => .error failure p.ran
      | .ok results => .ok (results.map fun _ => p.countedPerThread) p.ran := by
  obtain ⟨partitions, hpartitions, hparts⟩ := h.exists_parts_eq
  have hruns : ∀ thread ∈ List.range p.store.threads,
      p.code.run (partitions thread) p.input (p.slice thread) = _ := fun thread hthread =>
    h.run_thread (List.mem_range.mp hthread) (hpartitions thread (List.mem_range.mp hthread))
  -- what a thread leaves and what it reports are both known from `run_thread`
  have hend : (List.range p.store.threads).map
      (fun thread => endState (p.code.run (partitions thread) p.input (p.slice thread))) =
        (List.range p.store.threads).map p.written := by
    apply List.map_congr_left
    intro thread hthread
    rw [hruns thread hthread, written]
    cases (p.store.threadPrograms thread).mapM
      (Program.outputs p.catalog p.layout p.input.values) <;> rfl
  have hcounts : ((List.range p.store.threads).mapM fun thread =>
      outcome (p.code.run (partitions thread) p.input (p.slice thread))) =
        p.threadOutputs.map (List.map fun _ => p.countedPerThread) := by
    unfold threadOutputs
    rw [← mapM_except_map]
    apply mapM_congr_left
    intro thread hthread
    rw [hruns thread hthread]
    cases (p.store.threadPrograms thread).mapM
      (Program.outputs p.catalog p.layout p.input.values) <;> rfl
  unfold runAll ran
  simp only [hparts, List.map_map, List.mapM_map, Function.comp_def, hend, hcounts]
  cases p.threadOutputs <;> rfl

/-- What threads write has the dimensions of the outputs. -/
theorem ran (h : p.Valid host options samples) : p.ran.Valid host options samples := by
  have hwidth : ∀ slice ∈ (List.range p.store.threads).map fun thread => (p.written thread).toList,
      slice.length = p.store.perThread * p.layout.outputsPerProgram := by
    intro slice hslice
    obtain ⟨thread, hthread, rfl⟩ := List.mem_map.mp hslice
    unfold written
    split
    · next values hvalues =>
      rw [length_flatten_of_width (Program.length_of_mem_outputs h.accepted hvalues),
        length_of_mapM_eq_ok hvalues, Store.threadPrograms, List.length_map, List.length_range]
    · rw [Array.length_toList, h.size_slice (List.mem_range.mp hthread)]
  refine h.withOutput ?_ rfl
  rw [h.output_size_eq, OutputRegion.ofSlices, List.size_toArray, List.map_map]
  exact (length_flatten_of_width hwidth).trans (by simp)

/-- Once all threads got through, the outputs are those of the programs. -/
theorem ran_eq {results : List (List (List k.Value))} (hresults : p.threadOutputs = .ok results) :
    p.ran = { p with
      output := { p.output with values := results.flatten.flatten.toArray } } := by
  have hwritten : (List.range p.store.threads).map p.written =
      results.map fun values => values.flatten.toArray := by
    rw [← List.forall₂_eq_eq_eq, List.forall₂_map_left_iff, List.forall₂_map_right_iff]
    refine (mapM_eq_ok_iff.mp hresults).imp fun thread values hvalues => ?_
    rw [written, hvalues]
  unfold Population.ran OutputRegion.ofSlices
  rw [hwritten, List.map_map, List.flatten_flatten]
  rfl

/-- The losses are computed from the outputs that the programs left. -/
theorem score_eq (h : p.Valid host options samples) {values : List (List k.Value)}
    (hvalues : p.outputs = .ok values) (hout : p.output.values = values.flatten.toArray) :
    p.score = .ok (p.lossesOf values) := by
  have hlength : values.length = p.options.populationSize :=
    (length_of_outputs hvalues).trans h.programCount_eq
  have hwidth : ∀ outputs ∈ values, outputs.length = p.layout.outputsPerProgram :=
    Program.length_of_mem_outputs h.accepted hvalues
  have hscores : (List.range p.options.populationSize).mapM (fun program =>
      (p.output.program program).map p.samples.loss) =
        .ok (values.map fun outputs => p.samples.loss outputs.toArray) := by
    rw [mapM_eq_ok_iff, List.forall₂_map_right_iff, List.forall₂_iff_get]
    refine ⟨by simp [hlength], ?_⟩
    intro program _ hprogram
    have hvalue : values[program]? = some (values.get ⟨program, hprogram⟩) :=
      List.getElem?_eq_getElem hprogram
    have hin : program * p.layout.outputsPerProgram + p.layout.outputsPerProgram ≤
        values.flatten.toArray.size := by
      rw [List.size_toArray, length_flatten_of_width hwidth, ← Nat.succ_mul]
      exact Nat.mul_le_mul_right _ hprogram
    unfold OutputRegion.program
    simp only [List.get_eq_getElem, List.getElem_range, h.perProgram_eq, hout]
    rw [if_pos hin, extract_flatten hwidth hvalue]
    rfl
  unfold score
  rw [Array.mapM_eq_mapM_toList, Array.toList_range, hscores]
  rfl

/-- Updating the losses takes those of the outputs, and changes nothing else. -/
theorem updateLosses_eq (h : p.Valid host options samples) {values : List (List k.Value)}
    (hvalues : p.outputs = .ok values) (hout : p.output.values = values.flatten.toArray) :
    updateLosses p = .ok () { p with losses := p.lossesOf values } := by
  unfold updateLosses step
  beta_reduce
  rw [h.score_eq hvalues hout]
  rfl

/-- The champion is chosen by the present losses. -/
theorem crown_eq (h : p.Valid host options samples)
    (hsize : p.losses.size = p.store.programCount) : p.crown = .ok (p.championOf p.losses) := by
  unfold crown championOf
  cases hleast : leastLoss? p.losses with
  | none => rfl
  | some least =>
      obtain ⟨program, loss⟩ := least
      have hprogram : program < p.store.programCount := by
        have hread := getElem?_of_leastLoss? hleast
        rw [← hsize]
        exact (Array.getElem?_eq_some_iff.mp hread).1
      simp only
      rw [Store.program_eq h.runnable.wellFormed hprogram]
      split <;> rfl

/-- Updating the champion changes nothing else. -/
theorem updateChampion_eq (h : p.Valid host options samples)
    (hsize : p.losses.size = p.store.programCount) :
    updateChampion p = .ok () { p with champion := p.championOf p.losses } := by
  unfold updateChampion step
  beta_reduce
  rw [h.crown_eq hsize]
  rfl

/-- The losses and the champion are those for the outputs. -/
theorem settle_eq (h : p.Valid host options samples) {values : List (List k.Value)}
    (hvalues : p.outputs = .ok values) (hout : p.output.values = values.flatten.toArray) :
    (updateLosses >>= fun _ => updateChampion) p =
      .ok () { p with
        losses := p.lossesOf values
        champion := p.championOf (p.lossesOf values) } := by
  have hlosses : ({ p with losses := p.lossesOf values } : Population k σ).Valid host options samples :=
    { h with }
  rw [bind_of_eq_ok (h.updateLosses_eq hvalues hout)]
  exact hlosses.updateChampion_eq (size_lossesOf hvalues)

/-- An evaluation fails like the first program that fails, after all threads have run.  Else it updates
the population from the outputs that the programs have when they are run by themselves. -/
theorem evaluate_eq (h : p.Valid host options samples) : p.evaluate = match p.outputs with
    | .error failure => .error failure p.cleared.ran
    | .ok values => .ok () (p.scored values) := by
  have hcleared := h.cleared
  have hsame : p.cleared.threadOutputs = p.threadOutputs := rfl
  have hrun := hcleared.runAll_eq
  rw [hsame] at hrun
  unfold evaluate
  rw [modify_bind, outputs_eq]
  cases hthreads : p.threadOutputs with
  | error failure =>
      rw [hthreads] at hrun
      exact bind_of_eq_error hrun _
  | ok results =>
      have hvalues : p.outputs = .ok results.flatten := by
        rw [outputs_eq, hthreads]
        rfl
      have hcount : (results.map fun _ => p.cleared.countedPerThread).foldl (· + ·) 0 =
          p.store.threads * p.countedPerThread := by
        have hlength : results.length = p.store.threads := by
          rw [length_of_mapM_eq_ok hthreads, List.length_range]
        rw [← List.sum_eq_foldl, List.map_const', List.sum_replicate, smul_eq_mul, hlength]
        rfl
      rw [hthreads] at hrun
      -- all threads have run, and it is left to score their outputs
      have hran := hcleared.ran
      rw [ran_eq (hsame.trans hthreads)] at hrun hran
      rw [bind_of_eq_ok hrun, modify_bind]
      have hexecuted : ({ p.cleared with
          output := { p.cleared.output with values := results.flatten.flatten.toArray }
          executed := (results.map fun _ => p.cleared.countedPerThread).foldl (· + ·) 0 } :
          Population k σ).Valid host options samples := { hran with }
      refine (hexecuted.settle_eq hvalues rfl).trans ?_
      rw [hcount]
      unfold Population.cleared Population.scored
      split <;> rfl

end Valid

end Population

end LinearGP
