import Mathlib
import LinearGP.Proofs.Layout.Regions
import LinearGP.Proofs.Samples
import LinearGP.Proofs.Standalone
import LinearGP.Proofs.ThreadedCode.Refinement

/-!
# Compiled programs agree with threaded code

A program is compiled in two ways: as a part of threaded code, which runs it on every row among the
other programs of its thread, and on its own, as straight-line code for one row.  Both compute what
plain evaluation computes, so a program that is copied out of the store and called with the inputs of
a row returns what threaded code leaves in the output region.
-/

set_option autoImplicit false

namespace LinearGP

variable {k : ElementKind} {catalog : Catalog} {c : ThreadedCode}

/-- A store in which every opcode belongs to a catalog can be run. -/
theorem Store.loaded {store : Store} (hwell : store.WellFormed)
    (hopcodes : ∀ opcode ∈ store.slots, opcode.toNat < catalog.opcodeCount)
    (hprogramSize : store.programSize = c.programSize) {thread : Nat} {partition : Partition}
    (hpartition : store.partition thread = .ok partition) :
    c.Loaded catalog partition (store.threadPrograms thread) := by
  refine ThreadedCode.loaded_of_partition hwell hprogramSize hpartition fun opcode hopcode => ?_
  rw [Store.partition_eq hwell (Store.thread_lt_of_partition hwell hpartition)] at hpartition
  injection hpartition with hpartition
  subst hpartition
  obtain ⟨i, hi, rfl⟩ := Array.mem_iff_getElem.mp hopcode
  rw [Array.getElem_extract]
  exact hopcodes _ (Array.getElem_mem _)

/-! ## Threads -/

/-- Unless one of its programs stops on a row, a thread leaves the outputs that its programs have when
they are run by themselves. -/
theorem ThreadedCode.exists_run_thread {input : InputRegion k} (h : Ready catalog c input.values)
    {store : Store} (hwell : store.WellFormed) {thread : Nat} (hthread : thread < store.threads)
    {partition : Partition} (hpartition : store.partition thread = .ok partition)
    (hloaded : c.Loaded catalog partition (store.threadPrograms thread)) {outputs : Array k.Value}
    (hslice : c.Slice store.perThread outputs)
    (hdivide : ∀ q < store.programCount, q / store.perThread = thread →
      ∀ program instructions, store.program q = .ok program →
        program.instructions catalog = .ok instructions → ∀ row < c.layout.rows,
          ¬ Instruction.Stops instructions (c.layout.initialRegisters input.values row)) :
    ∃ count values,
      (store.threadPrograms thread).mapM (Program.outputs catalog c.layout input.values) =
        .ok values ∧
      c.run partition input outputs = .ok count values.flatten.toArray ∧
      values.flatten.length = store.perThread * c.layout.outputsPerProgram := by
  obtain ⟨hholds, hcount, -⟩ := Store.holds_partition hwell hpartition
  have houtputs : ∀ program ∈ store.threadPrograms thread,
      ∃ values, program.outputs catalog c.layout input.values = .ok values := by
    intro program hprogram
    obtain ⟨i, hi, rfl⟩ := List.mem_map.mp hprogram
    have hi := List.mem_range.mp hi
    obtain ⟨hread, hat⟩ := Store.program_thread hwell hthread hi
    obtain ⟨instructions, hinstructions, -⟩ := hloaded.runsAt hat
    exact (Program.exists_outputs_iff hinstructions).mpr (hdivide _ (Store.member_lt hthread hi)
      (mul_add_div_width hi) _ instructions hread hinstructions)
  obtain ⟨values, hvalues⟩ := exists_mapM_eq_ok houtputs
  rw [← hcount] at hslice
  have hrun := run_eq h hloaded hslice
  rw [hvalues] at hrun
  refine ⟨_, values, hvalues, hrun, ?_⟩
  rw [length_flatten_of_width (Program.length_of_mem_outputs h.accepted hvalues),
    length_of_mapM_eq_ok hvalues, hholds.length_eq, hcount]

/-! ## Programs on their own -/

/-- A program compiles when its thread can be run, and its calls return what the thread leaves for
it. -/
theorem CompiledProgram.exists_compile {input : InputRegion k}
    (h : ThreadedCode.Ready catalog c input.values)
    (hrows : ∀ row < c.layout.rows,
      (c.layout.rowInputs input.values row).size = c.layout.arity * c.layout.lanes)
    {programs : List Program} {values : List (List k.Value)}
    (hvalues : programs.mapM (Program.outputs catalog c.layout input.values) = .ok values) {i : Nat}
    {program : Program} (hprogram : programs[i]? = some program) :
    ∃ compiled, CompiledProgram.compile k catalog program c.layout.arity = .ok compiled ∧
      ∀ row < c.layout.rows, ∃ output : List k.Value, output.length = c.layout.lanes ∧
        compiled.call (c.layout.rowInputs input.values row) = .ok output.toArray ∧
        ∀ lane < c.layout.lanes,
          values.flatten[(i * c.layout.rows + row) * c.layout.lanes + lane]? = output[lane]? := by
  obtain ⟨instructions, hinstructions⟩ : ∃ instructions,
      program.instructions catalog = .ok instructions := by
    obtain ⟨outputs, houtputs⟩ := exists_of_mapM_eq_ok hvalues (List.mem_of_getElem? hprogram)
    obtain ⟨instructions, hinstructions, -⟩ := Program.outputs_eq_ok_iff.mp houtputs
    exact ⟨instructions, hinstructions⟩
  refine ⟨{ layout := c.layout.single, body := instructions }, ?_, ?_⟩
  · rw [compile_eq h.accepted h.element_eq h.code.element_eq h.code.vectorized_eq, hinstructions]
    rfl
  · intro row hrow
    obtain ⟨found, output, hfound, houtput, hlane⟩ :=
      Program.getElem?_flatten_outputs h.accepted hvalues hprogram hrow
    rw [hinstructions, Except.ok.injEq] at hfound
    subst hfound
    refine ⟨output, Layout.length_evaluate h.accepted houtput, ?_, hlane⟩
    rw [call_eq h.accepted h.element_eq rfl (hrows row hrow), Layout.evaluate_rowInputs, houtput]

/-! ## Agreement -/

/-- Any program of the store, copied out and compiled on its own, returns for the inputs of any row
what threaded code leaves for it in the output region, whatever the region held before and whether
instructions are counted or not. -/
theorem call_eq_get {samples : SampleSet k} {layout : Layout} {store : Store} {counting : Bool}
    {input : InputRegion k} {blank : OutputRegion k} {p : Nat}
    (hlayout : Layout.ofSamples samples store.programCount = .ok layout)
    (hcode : ThreadedCode.create catalog layout store.programSize counting = .ok c)
    (hstore : store.Reachable)
    (hopcodes : ∀ opcode ∈ store.slots, opcode.toNat < catalog.opcodeCount)
    (hinput : InputRegion.ofSamples layout samples = .ok input)
    (hblank : OutputRegion.zeroed k layout = .ok blank) (old : Array k.Value)
    (hold : old.size = blank.values.size) (hp : p < store.programCount)
    (hdivide : ∀ q < store.programCount, q / store.perThread = p / store.perThread →
      ∀ program instructions, store.program q = .ok program →
        program.instructions catalog = .ok instructions → ∀ row < samples.rows,
          ¬ Instruction.Stops instructions (layout.initialRegisters input.values row)) :
    ∃ partition slices outputs count written program compiled,
      store.partition (p / store.perThread) = .ok partition ∧
      ({ blank with values := old } : OutputRegion k).slices store.threads = .ok slices ∧
      slices[p / store.perThread]? = some outputs ∧
      c.run partition input outputs = .ok count written ∧
      store.program p = .ok program ∧
      CompiledProgram.compile k catalog program samples.arity = .ok compiled ∧
      ∀ row < samples.rows, ∃ values,
        compiled.call (layout.rowInputs input.values row) = .ok values ∧
        values.size = samples.lanes ∧
        ∀ lane, ∀ hlane : lane < values.size,
          (OutputRegion.ofSlices { blank with values := old }
            (slices.set (p / store.perThread) written)).get p row lane = .ok values[lane] := by
  obtain ⟨hsuits, hrows⟩ := Layout.suits_of_ofSamples hlayout
  have hl := hsuits.accepted
  obtain ⟨hc, rfl, hprogramSize, -⟩ := ThreadedCode.codeFor_of_create hl hcode
  have hready : ThreadedCode.Ready catalog c input.values :=
    ⟨hc, hl, hsuits.element_eq, InputRegion.size_of_ofSamples hinput⟩
  have hwell := hstore.wellFormed
  have hthread := Store.thread_lt hp
  have hposition := Store.position_lt hp
  have hplace : p / store.perThread * store.perThread + p % store.perThread = p :=
    Nat.div_add_mod' _ _
  -- the slice of the thread
  obtain ⟨hblankSize, hperProgram, hlanes, haddressable⟩ := OutputRegion.zeroed_eq_ok hblank
  have hsize : old.size = store.threads * (store.perThread * blank.perProgram) := by
    rw [hold, hblankSize, hperProgram, ((Layout.ofDimensions_eq_ok_iff _ _ _ _ _ _).mp hlayout).1,
      Store.programCount]
    ring
  have hwidth : 0 < store.perThread * blank.perProgram := by
    rw [hperProgram]
    exact Nat.mul_pos hwell.perThread_pos (Nat.mul_pos hl.rows_pos hl.lanes_pos)
  have hslices := OutputRegion.slices_eq (r := { blank with values := old }) hsize hwell.threads_pos
    hwidth
  have hsliceSize := OutputRegion.size_slice (r := { blank with values := old }) hsize hthread
  have hslice : c.Slice store.perThread (OutputRegion.slice { blank with values := old }
      (store.perThread * blank.perProgram) (p / store.perThread)) := by
    refine ⟨by rw [hsliceSize, hperProgram], lt_of_le_of_lt (Nat.mul_le_mul_right _ ?_) haddressable⟩
    rw [hsliceSize, ← hold, hsize]
    exact Nat.le_mul_of_pos_left _ hwell.threads_pos
  -- what the thread leaves there
  have hpartition := Store.partition_eq hwell hthread
  have hloaded := Store.loaded (c := c) hwell hopcodes hprogramSize.symm hpartition
  obtain ⟨count, values, hvalues, hrun, hlength⟩ := ThreadedCode.exists_run_thread hready hwell
    hthread hpartition hloaded hslice (by rwa [hrows])
  -- the program by itself
  obtain ⟨hread, hat⟩ := Store.program_thread hwell hthread hposition
  rw [hplace] at hread hat
  obtain ⟨compiled, hcompile, hcalls⟩ := CompiledProgram.exists_compile hready (fun row hrow => by
    rw [InputRegion.rowInputs_of_ofSamples hinput hrow, SampleSet.size_rowInputs, hsuits.arity_eq,
      hsuits.lanes_eq]) hvalues hat
  rw [hsuits.arity_eq] at hcompile
  refine ⟨_, _, _, count, _, _, compiled, hpartition, hslices, ?_, hrun, hread, hcompile, ?_⟩
  · rw [List.getElem?_map, List.getElem?_range hthread, Option.map_some]
  intro row hrow
  rw [← hrows] at hrow
  obtain ⟨output, houtput, hcall, hvalue⟩ := hcalls row hrow
  refine ⟨output.toArray, hcall, by rw [List.size_toArray, houtput, hsuits.lanes_eq], ?_⟩
  intro lane hlane
  rw [List.size_toArray] at hlane
  have hread : values.flatten.toArray[(p % store.perThread * c.layout.rows + row) * blank.lanes +
      lane]? = some output[lane] := by
    rw [List.getElem?_toArray, hlanes, hvalue lane (houtput ▸ hlane), List.getElem?_eq_getElem]
  have hget := OutputRegion.get_ofSlices_set (r := { blank with values := old })
    (by rw [hperProgram, hlanes]; rfl) hsize hthread (by rw [List.size_toArray, hlength, hperProgram])
    hposition hrow (by rwa [hlanes, ← houtput]) hread
  rw [hplace] at hget
  exact hget

/-- The program of the second thread increments, over old outputs. -/
theorem call_eq_get_inc :
    let catalog : Catalog :=
      ⟨#[.unary .inc .rax], .i64, false, Nat.one_pos, Nat.le_of_ble_eq_true rfl⟩
    let layout : Layout := { element := .i64, rows := 2, arity := 1, lanes := 1, programs := 2 }
    let output : OutputRegion .i64 := { values := #[9, 9, 9, 9], perProgram := 2, lanes := 1 }
    ∃ code slices outputs written compiled,
      ThreadedCode.create catalog layout 1 true = .ok code ∧
      output.slices 2 = .ok slices ∧ slices[1]? = some outputs ∧
      (∃ count, code.run { slots := #[2, 0, 1], programCount := 1, programSize := 1 }
        { values := #[5, 7], arity := 1, lanes := 1 : InputRegion .i64 } outputs =
          .ok count written) ∧
      CompiledProgram.compile .i64 catalog [2] 1 = .ok compiled ∧
      compiled.call #[7] = .ok #[8] ∧
      (output.ofSlices (slices.set 1 written)).get 1 1 0 = .ok (8 : BitVec 64) := by
  intro catalog layout output
  let store : Store := { threads := 2, perThread := 1, programSize := 1
                         slots := #[2, 0, 1, 2, 0, 1], initialized := true }
  obtain ⟨code, hcode⟩ : ∃ code,
      ThreadedCode.create catalog layout store.programSize true = .ok code := ⟨_, rfl⟩
  have hcreate : Store.create 2 2 1 = .ok {
      threads := 2, perThread := 1, programSize := 1, slots := Array.replicate 6 Opcode.END
      initialized := false } := rfl
  have hopcodes : ∀ opcode ∈ store.slots, opcode.toNat < catalog.opcodeCount := by
    simp [store, catalog, Catalog.opcodeCount, Catalog.size]
  have hlayout : Layout.ofSamples (⟨#[5, 7], #[6, 8], 2, 1, 1⟩ : SampleSet .i64)
      store.programCount = .ok layout := rfl
  have hinput : InputRegion.ofSamples layout (⟨#[5, 7], #[6, 8], 2, 1, 1⟩ : SampleSet .i64) =
      .ok { values := #[5, 7], arity := 1, lanes := 1 } := rfl
  have hblank : OutputRegion.zeroed .i64 layout =
      .ok { values := #[0, 0, 0, 0], perProgram := 2, lanes := 1 } := rfl
  obtain ⟨partition, slices, outputs, count, written, program, compiled, hpartition, hslices,
      houtputs, hrun, hprogram, hcompile, hcalls⟩ :=
    call_eq_get (p := 1) hlayout hcode (.prepare hcreate rfl) hopcodes hinput hblank #[9, 9, 9, 9] rfl
      (by decide)
      (fun _ _ _ _ _ _ hinstructions _ _ => Program.not_stops (by decide) hinstructions _)
  have hthread : 1 / store.perThread = 1 := Nat.div_one 1
  rw [hthread] at hpartition houtputs hcalls
  have hslots : store.partition 1 =
      .ok { slots := #[2, 0, 1], programCount := 1, programSize := 1 } := rfl
  have hread : store.program 1 = .ok [2] := by cbv
  obtain rfl := Except.ok.inj (hpartition.symm.trans hslots)
  obtain rfl := Except.ok.inj (hprogram.symm.trans hread)
  obtain ⟨values, hcall, -, hget⟩ := hcalls 1 (by decide)
  have height : compiled.call #[7] = .ok #[8] := by
    cases hcompile
    decide
  obtain rfl : values = #[8] := by
    have hsame := hcall.symm.trans height
    injection hsame
  exact ⟨code, slices, outputs, written, compiled, hcode, hslices, houtputs, ⟨count, hrun⟩, hcompile,
    height, hget 0 Nat.one_pos⟩

end LinearGP
