import Mathlib
import LinearGP.Proofs.Catalog.Forms
import LinearGP.Proofs.Population.Champion
import LinearGP.Proofs.ThreadedCode.Refinement

/-!
# Vector rows compute what single samples compute

A packed catalog on a vectorized sample set does to lane `l` of row `r` what the scalar catalog does to
sample `r * lanes + l` on its own.  Opcodes mean the same in both catalogs, so this holds of every
program, whether it runs as threaded code or is compiled on its own, and both ways have the same loss:
`vectorized_eq_scalar`.
-/

set_option autoImplicit false

namespace LinearGP

variable {k : ElementKind}

/-- The registers that an instruction names, the destination first. -/
def Instruction.operands : Instruction → List Register
  | nop => []
  | int _ dst src => [.gpr dst, .gpr src]
  | unary _ reg => [.gpr reg]
  | bitCount _ dst src => [.gpr dst, .gpr src]
  | div src _ => [.gpr src]
  | float _ _ dst src => [.xmm dst, .xmm src]
  | moveAll dst src => [.xmm dst, .xmm src]
  | moveLow _ dst src => [.xmm dst, .xmm src]

/-- An instruction has the same mnemonic in either form. -/
theorem Instruction.mnemonic_inForm (packed : Bool) (i : Instruction) :
    (i.inForm packed).mnemonic = i.mnemonic := by
  cases i <;> rfl

/-- An instruction has the same operands in either form. -/
theorem Instruction.operands_inForm (packed : Bool) (i : Instruction) :
    (i.inForm packed).operands = i.operands := by
  cases i <;> rfl

/-! ## Rows of two layouts -/

/-- Instructions that work lane by lane never stop the machine. -/
theorem Instruction.exists_execAll {precision : Precision} {instructions : List Instruction}
    (hi : ∀ i ∈ instructions, i.Lanewise precision) {packed : Bool}
    (hlanes : 0 < FloatForm.lanes ⟨precision, packed⟩) (s : Registers) :
    ∃ t, execAll (instructions.map (inForm packed)) s = some t := by
  obtain ⟨t, -, ht, -, -⟩ := execAll_sameLane hi hlanes hlanes (fun _ => rfl : Registers.SameLane
    precision.bits 0 0 s s)
  exact ⟨t, ht⟩

namespace Layout

variable {l l' : Layout} {arity lanes lanes' : Nat} {list : List (Sample k)}
  {samples samples' : SampleSet k} {instructions : List Instruction}

/-- Instructions that work lane by lane have outputs for all rows. -/
theorem exists_evaluateRows (hl : l.Accepted) (hk : l.element = k) (hfloat : k.isFloat = true)
    (hi : ∀ i ∈ instructions, i.Lanewise k.precision) (inputs : Array k.Value) (rows : Nat) :
    ∃ values, l.evaluateRows (instructions.map (Instruction.inForm l.isVectorized)) inputs 0 rows =
      some values := by
  have hform : 0 < FloatForm.lanes ⟨k.precision, l.isVectorized⟩ := by
    rw [FloatForm.lanes_precision hfloat, ← hk, ← hl.lanes_eq_ite]
    exact hl.lanes_pos
  apply Option.isSome_iff_exists.mp
  rw [evaluateRows_isSome_iff]
  intro row _
  obtain ⟨t, ht⟩ := Instruction.exists_execAll hi hform (l.initialRegisters inputs (0 + row))
  rw [evaluate, ht]
  rfl

/-- The outputs for all rows do not depend on how samples are grouped. -/
theorem evaluateRows_inForm (h : l.Suits samples) (h' : l'.Suits samples')
    (hfloat : k.isFloat = true) (hsamples : SampleSet.ofSamples arity lanes list = .ok samples)
    (hsamples' : SampleSet.ofSamples arity lanes' list = .ok samples')
    (hi : ∀ i ∈ instructions, i.Lanewise k.precision) :
    l.evaluateRows (instructions.map (Instruction.inForm l.isVectorized)) samples.inputs 0
        samples.rows =
      l'.evaluateRows (instructions.map (Instruction.inForm l'.isVectorized)) samples'.inputs 0
        samples'.rows := by
  obtain ⟨values, hvalues⟩ :=
    exists_evaluateRows h.accepted h.element_eq hfloat hi samples.inputs samples.rows
  obtain ⟨values', hvalues'⟩ :=
    exists_evaluateRows h'.accepted h'.element_eq hfloat hi samples'.inputs samples'.rows
  obtain ⟨hlength, houtputs⟩ := evaluateRows_samples h hsamples hvalues
  obtain ⟨hlength', houtputs'⟩ := evaluateRows_samples h' hsamples' hvalues'
  have harity : l.arity = l'.arity := by
    rw [h.arity_eq, h'.arity_eq, (SampleSet.ofSamples_eq_ok_iff.mp hsamples).1,
      (SampleSet.ofSamples_eq_ok_iff.mp hsamples').1]
    rfl
  -- both sides have one value for each sample, and are compared sample by sample
  rw [hvalues, hvalues', Option.some.injEq]
  apply List.ext_getElem?
  intro n
  by_cases hn : n < list.length
  · obtain ⟨output, houtput, hat⟩ := houtputs n hn
    obtain ⟨output', houtput', hat'⟩ := houtputs' n hn
    have hsample := List.getElem?_eq_getElem hn
    have hlane : n % samples.lanes < l.lanes := by
      rw [h.lanes_eq]
      exact Nat.mod_lt n (SampleSet.lanes_pos hsamples)
    have hlane' : n % samples'.lanes < l'.lanes := by
      rw [h'.lanes_eq]
      exact Nat.mod_lt n (SampleSet.lanes_pos hsamples')
    obtain ⟨found, found', hfound, hfound', hsame⟩ :=
      exists_evaluate_lane h.accepted h'.accepted h.element_eq h'.element_eq hfloat harity hlane
        hlane' (carries_rowInputs hsamples h hsample) (carries_rowInputs hsamples' h' hsample) hi
    rw [houtput, Option.some.injEq] at hfound
    rw [houtput', Option.some.injEq] at hfound'
    rw [hat, hat', hfound, hfound', hsame]
  · rw [List.getElem?_eq_none (by omega), List.getElem?_eq_none (by omega)]

end Layout

/-! ## Compiled programs -/

/-- The layout for one row of a sample set. -/
theorem Layout.suits_row {arity lanes : Nat} {list : List (Sample k)} {samples : SampleSet k}
    (hsamples : SampleSet.ofSamples arity lanes list = .ok samples)
    (hlanes : lanes = 1 ∨ lanes = k.lanes ∧ k.isFloat = true) :
    Layout.Suits { element := k, rows := 1, arity, lanes, programs := 1 } samples := by
  obtain ⟨rfl, hgroup⟩ := SampleSet.ofSamples_eq_ok_iff.mp hsamples
  have hstride : lanes * k.size ≤ 16 := by
    rcases hlanes with rfl | ⟨rfl, -⟩ <;> cases k <;> decide
  have hrow : arity * (lanes * k.size) ≤ 4 * 16 := Nat.mul_le_mul hgroup.arity_le hstride
  refine ⟨?_, rfl, rfl, rfl⟩
  exact {
    rows_pos := Nat.one_pos
    arity_pos := hgroup.arity_pos
    programs_pos := Nat.one_pos
    arity_le := hgroup.arity_le
    lanes_eq := hlanes
    inputRow_lt := by
      show arity * (lanes * k.size) < _
      omega
    outputProgram_lt := by
      show 1 * (lanes * k.size) < _
      omega
    inputs_lt := by
      show 1 * (arity * (lanes * k.size)) < _
      omega }

/-- Calls of a packed program agree with calls of a scalar one, lane by lane, and so do their sums of
distances. -/
structure CompiledProgram.Packs (packed : CompiledProgram k) (vectors : SampleSet k)
    (scalar : CompiledProgram k) (single : SampleSet k) : Prop where
  call : ∀ row < vectors.rows, ∀ lane < vectors.lanes, ∃ outputs value,
    packed.call (vectors.rowInputs row) = .ok outputs ∧
    scalar.call (single.rowInputs (row * vectors.lanes + lane)) = .ok #[value] ∧
    outputs[lane]? = some value
  replay : ∃ loss, packed.replay vectors = .ok loss ∧ scalar.replay single = .ok loss

/-- Programs whose instructions have the same outputs for all rows agree when they are called. -/
theorem CompiledProgram.packs_of_evaluateRows {arity lanes : Nat} {list : List (Sample k)}
    {single vectors : SampleSet k} {l l' : Layout}
    (hsingle : SampleSet.ofSamples arity 1 list = .ok single)
    (hvectors : SampleSet.ofSamples arity lanes list = .ok vectors) (h : l.Suits single)
    (h' : l'.Suits vectors) {scalar packed : CompiledProgram k} (hscalar : scalar.layout = l.single)
    (hpacked : packed.layout = l'.single) {values : List k.Value}
    (hvalues : l.evaluateRows scalar.body single.inputs 0 single.rows = some values)
    (hvalues' : l'.evaluateRows packed.body vectors.inputs 0 vectors.rows = some values) :
    packed.Packs vectors scalar single := by
  obtain ⟨hlength, hrows⟩ := Layout.evaluateRows_rows h hsingle hvalues
  obtain ⟨hlength', hrows'⟩ := Layout.evaluateRows_rows h' hvectors hvalues'
  have hone : single.lanes = 1 := by
    rw [(SampleSet.ofSamples_eq_ok_iff.mp hsingle).1]
    rfl
  have houtputs : single.outputs.toList = vectors.outputs.toList := by
    rw [SampleSet.outputs_eq hsingle, SampleSet.outputs_eq hvectors]
  constructor
  · intro row hrow lane hlane
    -- this lane of the row is a sample, and each sample is a row of the single ones
    have hn : row * vectors.lanes + lane < single.rows := by
      rw [← Nat.mul_one single.rows, ← hone, ← hlength, hlength']
      exact mul_add_lt_mul hrow hlane
    obtain ⟨outputs, houtputs, hlanes⟩ := hrows' row hrow
    obtain ⟨output, houtput, hvalue⟩ := hrows _ hn
    have hsize : output.length = 1 := by
      rw [Layout.length_evaluate h.accepted houtput, h.lanes_eq, hone]
    obtain ⟨value, rfl⟩ := List.length_eq_one_iff.mp hsize
    refine ⟨outputs.toArray, value, call_rowInputs h' hpacked houtputs,
      call_rowInputs h hscalar houtput, ?_⟩
    have hat := hvalue 0 (by omega)
    rw [hone, Nat.mul_one, Nat.add_zero, hlanes lane hlane] at hat
    rw [List.getElem?_toArray, hat]
    rfl
  · refine ⟨_, replay_of_evaluate h' hpacked (SampleSet.size_outputs hvectors) hlength' hrows', ?_⟩
    rw [replay_of_evaluate h hscalar (SampleSet.size_outputs hsingle) hlength hrows, houtputs]

/-! ## Programs of two catalogs -/

/-- A vector has more than one lane. -/
theorem ElementKind.one_lt_lanes (k : ElementKind) : 1 < k.lanes := by
  cases k <;> decide

section Catalogs

variable {host : Host} {o : CatalogOptions} {scalar packed : Catalog} {arity : Nat}
  {list : List (Sample o.element)} {single vectors : SampleSet o.element} {l l' : Layout}

/-- The lanes tell the two kinds of rows apart. -/
theorem isVectorized_of_suits (hsingle : SampleSet.scalar arity list = .ok single)
    (hvectors : SampleSet.vectorized arity list = .ok vectors) (h : l.Suits single)
    (h' : l'.Suits vectors) : l.isVectorized = false ∧ l'.isVectorized = true := by
  unfold Layout.isVectorized
  rw [h.lanes_eq, h'.lanes_eq, (SampleSet.ofSamples_eq_ok_iff.mp hsingle).1,
    (SampleSet.ofSamples_eq_ok_iff.mp hvectors).1]
  exact ⟨rfl, decide_eq_true o.element.one_lt_lanes⟩

/-- A program does the same to all samples, one at a time or in vector rows. -/
theorem Program.evaluateRows_packed (hfloat : o.element.isFloat = true)
    (hlow : Mnemonic.movLow ∉ o.selected)
    (hscalar : Catalog.build host { o with vectorized := false } = .ok scalar)
    (hsingle : SampleSet.scalar arity list = .ok single)
    (hvectors : SampleSet.vectorized arity list = .ok vectors) (h : l.Suits single)
    (h' : l'.Suits vectors) {program : Program} {instructions : List Instruction}
    (hinstructions : program.instructions scalar = .ok instructions) :
    ∃ values, l.evaluateRows instructions single.inputs 0 single.rows = some values ∧
      l'.evaluateRows (instructions.map (Instruction.inForm true)) vectors.inputs 0 vectors.rows =
        some values := by
  have hforms : ∀ i ∈ instructions, i.Lanewise o.element.precision ∧ i.inForm false = i := by
    intro i hi
    exact Catalog.lanewise_of_build hscalar hfloat (.inl hlow)
      (Program.mem_of_instructions hinstructions hi)
  have hself : instructions.map (Instruction.inForm false) = instructions :=
    (List.map_congr_left fun i hi => (hforms i hi).2).trans (List.map_id' instructions)
  have hlanewise := fun i hi => (hforms i hi).1
  obtain ⟨hplain, hvector⟩ := isVectorized_of_suits hsingle hvectors h h'
  obtain ⟨values, hvalues⟩ := Layout.exists_evaluateRows h.accepted h.element_eq hfloat hlanewise
    single.inputs single.rows
  have hsame := Layout.evaluateRows_inForm h h' hfloat hsingle hvectors hlanewise
  rw [hvalues, hvector] at hsame
  rw [hplain, hself] at hvalues
  exact ⟨values, hvalues, hsame.symm⟩

/-- Compiled for single samples and for vector rows, a program does the same to all samples; a
program that one catalog turns down is turned down by the other one. -/
theorem CompiledProgram.compile_packed (hfloat : o.element.isFloat = true)
    (hlow : Mnemonic.movLow ∉ o.selected)
    (hscalar : Catalog.build host { o with vectorized := false } = .ok scalar)
    (hpacked : Catalog.build host { o with vectorized := true } = .ok packed)
    (hsingle : SampleSet.scalar arity list = .ok single)
    (hvectors : SampleSet.vectorized arity list = .ok vectors) (program : Program) :
    SameResult (fun v s => v.Packs vectors s single)
      (compile o.element packed program arity) (compile o.element scalar program arity) := by
  have h := Layout.suits_row hsingle (.inl rfl)
  have h' := Layout.suits_row hvectors (.inr ⟨rfl, hfloat⟩)
  obtain ⟨hplain, hvector⟩ := isVectorized_of_suits hsingle hvectors h h'
  obtain ⟨-, helement, hform⟩ := Catalog.build_eq_ok hscalar
  obtain ⟨-, helement', hform'⟩ := Catalog.build_eq_ok hpacked
  have hcompile := compile_eq h.accepted rfl helement (hform.trans hplain.symm) program
  have hcompile' := compile_eq h'.accepted rfl helement' (hform'.trans hvector.symm) program
  have hinform := Program.instructions_inForm (o := { o with vectorized := false }) hlow hscalar
    hpacked program
  rw [hinform] at hcompile'
  rw [hcompile, hcompile']
  cases hinstructions : program.instructions scalar with
  | error failure => exact .error failure
  | ok instructions =>
      obtain ⟨values, hvalues, hvalues'⟩ := Program.evaluateRows_packed hfloat hlow hscalar hsingle
        hvectors h h' hinstructions
      exact .ok (packs_of_evaluateRows hsingle hvectors h h' rfl rfl hvalues hvalues')

/-- Run by itself on all rows, a known program has the same outputs with both catalogs. -/
theorem Program.outputs_packed (hfloat : o.element.isFloat = true)
    (hlow : Mnemonic.movLow ∉ o.selected)
    (hscalar : Catalog.build host { o with vectorized := false } = .ok scalar)
    (hpacked : Catalog.build host { o with vectorized := true } = .ok packed)
    (hsingle : SampleSet.scalar arity list = .ok single)
    (hvectors : SampleSet.vectorized arity list = .ok vectors) (h : l.Suits single)
    (hrows : l.rows = single.rows) (h' : l'.Suits vectors) (hrows' : l'.rows = vectors.rows)
    {program : Program} {instructions : List Instruction}
    (hinstructions : program.instructions scalar = .ok instructions) :
    ∃ values, program.outputs scalar l single.inputs = .ok values ∧
      program.outputs packed l' vectors.inputs = .ok values := by
  obtain ⟨values, hvalues, hvalues'⟩ := evaluateRows_packed hfloat hlow hscalar hsingle hvectors h h'
    hinstructions
  rw [← hrows] at hvalues
  rw [← hrows'] at hvalues'
  refine ⟨values, outputs_eq_ok_iff.mpr ⟨instructions, hinstructions, hvalues⟩, ?_⟩
  refine outputs_eq_ok_iff.mpr ⟨_, ?_, hvalues'⟩
  rw [instructions_inForm (o := { o with vectorized := false }) hlow hscalar hpacked, hinstructions]
  rfl

/-- Threaded code leaves the same outputs of a partition, whose samples stand in the same places. -/
theorem ThreadedCode.run_packed (hfloat : o.element.isFloat = true)
    (hlow : Mnemonic.movLow ∉ o.selected)
    (hscalar : Catalog.build host { o with vectorized := false } = .ok scalar)
    (hpacked : Catalog.build host { o with vectorized := true } = .ok packed)
    (hsingle : SampleSet.scalar arity list = .ok single)
    (hvectors : SampleSet.vectorized arity list = .ok vectors)
    {programs programSize thread : Nat} {counting : Bool}
    (hlayout : Layout.ofSamples single programs = .ok l)
    (hlayout' : Layout.ofSamples vectors programs = .ok l') {c c' : ThreadedCode}
    (hcode : create scalar l programSize counting = .ok c)
    (hcode' : create packed l' programSize counting = .ok c')
    {input input' : InputRegion o.element} (hinput : InputRegion.ofSamples l single = .ok input)
    (hinput' : InputRegion.ofSamples l' vectors = .ok input') {store : Store}
    (hstore : store.Reachable) (hprogramSize : store.programSize = programSize)
    {partition : Partition} (hpartition : store.partition thread = .ok partition)
    (hopcodes : ∀ opcode ∈ partition.slots, opcode.toNat < scalar.opcodeCount)
    {outputs : Array o.element.Value}
    (houtputs : outputs.size = partition.programCount * l.outputsPerProgram)
    (haddressable : outputs.size * o.element.size < 0x8000000000000000) :
    ∃ n m written, c.run partition input outputs = .ok n written ∧
      c'.run partition input' outputs = .ok m written := by
  obtain ⟨h, hrows⟩ := Layout.suits_of_ofSamples hlayout
  obtain ⟨h', hrows'⟩ := Layout.suits_of_ofSamples hlayout'
  obtain ⟨hc, rfl, hsize, -⟩ := codeFor_of_create h.accepted hcode
  obtain ⟨hc', rfl, hsize', -⟩ := codeFor_of_create h'.accepted hcode'
  have hready : Ready scalar c input.values :=
    ⟨hc, h.accepted, h.element_eq, InputRegion.size_of_ofSamples hinput⟩
  have hready' : Ready packed c' input'.values :=
    ⟨hc', h'.accepted, h'.element_eq, InputRegion.size_of_ofSamples hinput'⟩
  have hcount : packed.opcodeCount = scalar.opcodeCount :=
    Catalog.opcodeCount_inForm (o := { o with vectorized := false }) hlow hscalar hpacked
  have hloaded : Loaded scalar c partition (store.threadPrograms thread) :=
    loaded_of_partition hstore.wellFormed (hprogramSize.trans hsize.symm) hpartition hopcodes
  have hloaded' : Loaded packed c' partition (store.threadPrograms thread) :=
    loaded_of_partition hstore.wellFormed (hprogramSize.trans hsize'.symm) hpartition
      (by rwa [hcount])
  have hperProgram : c'.layout.outputsPerProgram = c.layout.outputsPerProgram := by
    unfold Layout.outputsPerProgram
    rw [hrows, hrows', h.lanes_eq, h'.lanes_eq, SampleSet.rows_mul_lanes hsingle,
      SampleSet.rows_mul_lanes hvectors]
  have hrun := run_eq hready hloaded ⟨houtputs, haddressable⟩
  have hrun' := run_eq hready' hloaded' ⟨by rw [houtputs, hperProgram], haddressable⟩
  -- by the opcodes of a thread, its programs have the same outputs in both forms
  have hsame : ∀ program ∈ store.threadPrograms thread, ∃ values,
      program.outputs scalar c.layout input.values = .ok values ∧
        program.outputs packed c'.layout input'.values = .ok values := by
    intro program hprogram
    obtain ⟨p, hp⟩ := List.getElem?_of_mem hprogram
    obtain ⟨instructions, hinstructions, -⟩ := hloaded.runsAt hp
    rw [InputRegion.values_of_ofSamples hsingle hinput,
      InputRegion.values_of_ofSamples hvectors hinput']
    exact Program.outputs_packed hfloat hlow hscalar hpacked hsingle hvectors h hrows h' hrows'
      hinstructions
  obtain ⟨values, hvalues⟩ := exists_mapM_eq_ok fun program hprogram =>
    (hsame program hprogram).imp fun _ => And.left
  have hvalues' : (store.threadPrograms thread).mapM
      (Program.outputs packed c'.layout input'.values) = .ok values := by
    rw [← hvalues]
    apply mapM_congr_left
    intro program hprogram
    obtain ⟨found, hfound, hfound'⟩ := hsame program hprogram
    rw [hfound, hfound']
  rw [hvalues] at hrun
  rw [hvalues'] at hrun'
  exact ⟨_, _, _, hrun, hrun'⟩

/-- For floating point samples and without moves of the lowest number, a vectorized catalog on vector
rows does what the scalar catalog does on single samples.  Every opcode has the same mnemonic and the
same operands; a program has the same value in lane `lane` of row `row` as for sample
`row * lanes + lane`, whether it is compiled on its own or runs as threaded code; and so it has the
same loss. -/
theorem vectorized_eq_scalar {moves : List Mnemonic} (hfloat : o.element.isFloat = true)
    (hmoves : o.moves = some moves) (hlow : Mnemonic.movLow ∉ moves)
    (hscalar : Catalog.build host { o with vectorized := false } = .ok scalar)
    (hpacked : Catalog.build host { o with vectorized := true } = .ok packed) (hpos : 1 ≤ arity)
    (hfile : arity ≤ 4) (hinputs : ∀ sample ∈ list, sample.inputs.size = arity)
    (hnonempty : list ≠ []) (hlanes : o.element.lanes ∣ list.length) :
    (∀ opcode, (packed.instruction? opcode).map (fun i => (i.mnemonic, i.operands)) =
      (scalar.instruction? opcode).map fun i => (i.mnemonic, i.operands)) ∧
    ∃ single vectors : SampleSet o.element, SampleSet.scalar arity list = .ok single ∧
      SampleSet.vectorized arity list = .ok vectors ∧
      (∀ program : Program, SameResult (fun v s => v.Packs vectors s single)
        (CompiledProgram.compile o.element packed program arity)
        (CompiledProgram.compile o.element scalar program arity)) ∧
      (∀ (programs programSize thread : Nat) (counting : Bool) (l l' : Layout)
        (c c' : ThreadedCode) (input input' : InputRegion o.element) (store : Store)
        (partition : Partition) (outputs : Array o.element.Value),
        Layout.ofSamples single programs = .ok l → Layout.ofSamples vectors programs = .ok l' →
        ThreadedCode.create scalar l programSize counting = .ok c →
        ThreadedCode.create packed l' programSize counting = .ok c' →
        InputRegion.ofSamples l single = .ok input →
        InputRegion.ofSamples l' vectors = .ok input' →
        store.Reachable → store.programSize = programSize →
        store.partition thread = .ok partition →
        (∀ opcode ∈ partition.slots, opcode.toNat < scalar.opcodeCount) →
        outputs.size = partition.programCount * l.outputsPerProgram →
        outputs.size * o.element.size < 0x8000000000000000 →
        (∀ program row lane, (program * l'.rows + row) * l'.lanes + lane =
          (program * l.rows + (row * l'.lanes + lane)) * l.lanes) ∧
        ∃ n m written, c.run partition input outputs = .ok n written ∧
          c'.run partition input' outputs = .ok m written) ∧
      ∀ outputs, vectors.loss outputs = single.loss outputs := by
  have hselected := CatalogOptions.movLow_not_mem_selected hmoves hlow
  obtain ⟨single, hsingle⟩ : ∃ single : SampleSet o.element,
      SampleSet.scalar arity list = .ok single :=
    ⟨_, SampleSet.ofSamples_eq_ok_iff.mpr
      ⟨rfl, hpos, hfile, hinputs, hnonempty, Nat.one_dvd _⟩⟩
  obtain ⟨vectors, hvectors⟩ : ∃ vectors : SampleSet o.element,
      SampleSet.vectorized arity list = .ok vectors :=
    ⟨_, SampleSet.ofSamples_eq_ok_iff.mpr ⟨rfl, hpos, hfile, hinputs, hnonempty, hlanes⟩⟩
  refine ⟨?_, single, vectors, hsingle, hvectors, ?_, ?_, ?_⟩
  · intro opcode
    rw [Catalog.instruction?_inForm (o := { o with vectorized := false }) hselected hscalar hpacked,
      Option.map_map]
    congr 1
    funext i
    exact Prod.ext (i.mnemonic_inForm true) (i.operands_inForm true)
  · exact CompiledProgram.compile_packed hfloat hselected hscalar hpacked hsingle hvectors
  · intro programs programSize thread counting l l' c c' input input' store partition outputs
      hlayout hlayout' hcode hcode' hinput hinput' hstore hprogramSize hpartition hopcodes houtputs
      haddressable
    obtain ⟨h, hrows⟩ := Layout.suits_of_ofSamples hlayout
    obtain ⟨h', hrows'⟩ := Layout.suits_of_ofSamples hlayout'
    refine ⟨?_, ThreadedCode.run_packed hfloat hselected hscalar hpacked hsingle hvectors hlayout
      hlayout' hcode hcode' hinput hinput' hstore hprogramSize hpartition hopcodes houtputs
      haddressable⟩
    intro program row lane
    -- both places are those of one sample
    have hone : l.lanes = 1 := by
      rw [h.lanes_eq, (SampleSet.ofSamples_eq_ok_iff.mp hsingle).1]
      rfl
    have htotal : l'.rows * l'.lanes = l.rows := by
      rw [hrows', h'.lanes_eq, SampleSet.rows_mul_lanes hvectors, hrows, ← Nat.mul_one single.rows,
        ← SampleSet.rows_mul_lanes hsingle, ← h.lanes_eq, hone]
    rw [hone, ← htotal]
    ring
  · intro outputs
    unfold SampleSet.loss
    rw [SampleSet.outputs_eq hsingle, SampleSet.outputs_eq hvectors]

end Catalogs

/-- One and two, with twice as much expected. -/
private def doubling : List (Sample .f64) :=
  [⟨#[0x3ff0000000000000], 0x4000000000000000⟩, ⟨#[0x4000000000000000], 0x4010000000000000⟩]

/-- A program that doubles its input, on two samples and on one row of both. -/
theorem vectorized_eq_scalar_double : ∃ scalar packed single vectors s v,
    Catalog.build .full { element := .f64, instructions := some [.fadd], moves := some [] } =
      .ok scalar ∧
    Catalog.build .full { element := .f64, vectorized := true, instructions := some [.fadd]
                          moves := some [] } = .ok packed ∧
    SampleSet.scalar 1 doubling = .ok single ∧ SampleSet.vectorized 1 doubling = .ok vectors ∧
    CompiledProgram.compile .f64 scalar [2] 1 = .ok s ∧
    CompiledProgram.compile .f64 packed [2] 1 = .ok v ∧ v.Packs vectors s single := by
  have hinputs : ∀ sample ∈ doubling, sample.inputs.size = 1 := by simp [doubling]
  obtain ⟨-, single, vectors, hsingle, hvectors, hcompile, -, -⟩ := vectorized_eq_scalar
    (o := { element := .f64, instructions := some [.fadd], moves := some [] }) rfl rfl
    List.not_mem_nil (rfl : Catalog.build .full _ = .ok _) (rfl : Catalog.build .full _ = .ok _) le_rfl
    (by decide : 1 ≤ 4) hinputs (List.cons_ne_nil _ _) (by decide)
  have hrun := hcompile [2]
  refine ⟨_, _, single, vectors, _, _, rfl, rfl, hsingle, hvectors, rfl, rfl, ?_⟩
  cases hrun with
  | ok h => exact h

end LinearGP
