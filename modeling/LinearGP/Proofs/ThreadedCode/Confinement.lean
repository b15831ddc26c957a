import Mathlib
import LinearGP.Proofs.ThreadedCode.Touches

/-!
# Threaded code stays inside its regions

Machine code checks no address.  That a run fetches only slots of its partition, loads only inputs and
stores only to its own slice of the outputs rests on the checks of the layout, the sentinels of the
store and the branch at the end of a row, all together.  Runs are followed row by row: `rowTouches`
is what a program touches on a row, from the first fetch to the loads for the row after it.
-/

set_option autoImplicit false

namespace LinearGP

variable {k : ElementKind} {catalog : Catalog} {c : ThreadedCode}

/-- An access stays inside a region of so many slots or bytes, and a multiplication of signed words is
exact. -/
def Touch.Inside (l : Layout) (slots inputBytes outputBytes : Nat) : Touch → Prop
  | fetch address => ∃ i < slots, address.toNat = 2 * i
  | load row column address bytes => row.toNat < l.rows ∧ column < l.arity ∧
    address.toNat = row.toNat * l.inputRowStride + column * l.columnStride ∧
    bytes = l.columnStride ∧ address.toNat + bytes ≤ inputBytes
  | store address bytes => bytes = l.outputRowStride ∧ bytes ∣ address.toNat ∧
    address.toNat + bytes ≤ outputBytes
  | scale row stride => stride < 0x80000000 ∧ row.toNat * stride < 0x8000000000000000 ∧
    (row * immediate stride).toNat = row.toNat * stride

namespace ThreadedCode

/-! ## What a run touches -/

/-- The slots of a program, fetched in order. -/
def fetchTouches (c : ThreadedCode) (program : Nat) : List Touch :=
  (List.range (c.programSize + 1)).map fun j =>
    .fetch (BitVec.ofNat 64 (2 * (program * (c.programSize + 1) + j)))

/-- Fetching the slots of a program stores nothing. -/
theorem countP_fetchTouches (c : ThreadedCode) (program b : Nat) :
    (c.fetchTouches program).countP (·.stores b) = 0 := by
  simp [fetchTouches, List.countP_map, Function.comp_def, Touch.stores]

/-- What is touched from the first fetch of a program on a row to the next one, with rows counted over all
programs. -/
def rowTouches (c : ThreadedCode) (n : Nat) : List Touch :=
  c.fetchTouches (n / c.layout.rows) ++
    (c.layout.storeTouches (n / c.layout.rows) (n % c.layout.rows) ++
      c.layout.loadTouches (rowAfter c.layout (n % c.layout.rows)))

/-- Instructions are fetched in order, and touch nothing else.  They keep what a run is steered by. -/
theorem steps_instructions (hc : c.CodeFor catalog) {slots : Array Opcode} (inputs : Array k.Value)
    (instructions : List Instruction) (i : Nat) (e : Engine k)
    (hslot : e.slot = BitVec.ofNat 64 (2 * i))
    (hword : 2 * (i + instructions.length) < 0x10000000000000000)
    (hopcodes : ∀ j < instructions.length, ∃ opcode, slots[i + j]? = some opcode ∧
      catalog.instruction? opcode = instructions[j]?)
    (hexec : ¬ Instruction.Stops instructions e.registers) :
    ∃ last, c.Steps slots inputs instructions.length e
        ((List.range instructions.length).map fun j => .fetch (BitVec.ofNat 64 (2 * (i + j)))) last ∧
      last.slot = BitVec.ofNat 64 (2 * (i + instructions.length)) ∧ last.base = e.base ∧
      last.row = e.row ∧ last.outputs = e.outputs := by
  rw [← Instruction.execAll_eq_none_iff] at hexec
  -- as in `runFor_instructions`, with the fetches collected on the way
  induction instructions generalizing i e with
  | nil => exact ⟨e, .refl e, hslot, rfl, rfl, rfl⟩
  | cons instruction rest ih =>
      rw [List.length_cons] at hword
      obtain ⟨opcode, hopcode, hinstruction⟩ := hopcodes 0 (Nat.succ_pos _)
      rw [List.getElem?_cons_zero] at hinstruction
      rw [Instruction.execAll_cons] at hexec
      obtain ⟨registers, hfirst⟩ : ∃ registers, instruction.exec e.registers = some registers := by
        rw [← Option.ne_none_iff_exists']
        intro hnone
        rw [hnone] at hexec
        exact hexec rfl
      rw [hfirst] at hexec
      have hjump := dispatch_instruction hc inputs hslot (by omega) hopcode hinstruction
      rw [hfirst] at hjump
      have htouches := dispatchTouches_instruction hc inputs hslot (by omega) hopcode hinstruction
      have hopcodesRest : ∀ j < rest.length, ∃ opcode, slots[i + 1 + j]? = some opcode ∧
          catalog.instruction? opcode = rest[j]? := by
        intro j hj
        obtain ⟨opcode, hopcode, hinstruction⟩ :=
          hopcodes (j + 1) (by rw [List.length_cons]; omega)
        rw [List.getElem?_cons_succ] at hinstruction
        refine ⟨opcode, ?_, hinstruction⟩
        rw [← hopcode]
        congr 1
        omega
      obtain ⟨last, hrest, hlast, hkept⟩ := ih (i + 1) { e with
          slot := BitVec.ofNat 64 (2 * (i + 1))
          registers
          count := c.counted e.count 1 } rfl (by omega) hopcodesRest hexec
      have hshift : ∀ j, i + 1 + j = i + (j + 1) := fun j => by omega
      have hall := Steps.step hjump hrest
      rw [htouches] at hall
      simp only [hshift] at hall hlast
      refine ⟨last, ?_, hlast, hkept⟩
      rw [List.length_cons, List.range_succ_eq_map, List.map_cons, List.map_map]
      exact hall

section Runs

variable {slots : Array Opcode} {inputs : Array k.Value} {programs program : Nat}
  {instructions : List Instruction}

/-- A program runs on a row. -/
theorem steps_row (h : Ready catalog c inputs) (hprogram : program < programs)
    (hruns : RunsAt catalog c slots program instructions) {row : Nat} (hrow : row < c.layout.rows)
    (hstops : ¬ Instruction.Stops instructions (c.layout.initialRegisters inputs row))
    (count : BitVec 64) {outputs : Array k.Value} (hslice : c.Slice programs outputs) :
    ∃ count' outputs', c.Slice programs outputs' ∧
      c.Steps slots inputs (c.programSize + 1) (c.engineAt inputs program row count outputs)
        (c.fetchTouches program ++ (c.layout.storeTouches program row ++
          c.layout.loadTouches (rowAfter c.layout row)))
        (c.engineAfter inputs program row count' outputs') := by
  obtain ⟨e, hinstructions, hslot, hbase, he, houtputs⟩ := steps_instructions h.code inputs
    instructions (program * (c.programSize + 1)) (c.engineAt inputs program row count outputs) rfl
    (by rw [hruns.length_eq]; exact hruns.addressable) hruns.instruction hstops
  rw [hruns.length_eq] at hinstructions hslot
  replace hslice : c.Slice programs e.outputs := by
    rw [houtputs]
    exact hslice
  -- the jump to `END`
  have hjump := (dispatch_sentinel h.code inputs hslot hruns.addressable).1 hruns.programEnd
  rw [finishRow_eq h hprogram hrow hslot hbase he hslice] at hjump
  have htouches := dispatchTouches_end h hprogram hrow hslot hruns.addressable hruns.programEnd hbase
    he hslice
  have hend := Steps.step hjump (.refl _)
  rw [htouches, List.append_nil] at hend
  refine ⟨e.count, _, hslice.writeAll ((program * c.layout.rows + row) * c.layout.lanes)
    (c.layout.readOutput k e.registers), ?_⟩
  rw [fetchTouches, List.range_succ, List.map_append, List.append_assoc]
  exact hinstructions.trans hend

/-- Rows that follow each other, over all programs. -/
theorem engineAfter_eq (h : c.layout.Accepted) (n : Nat) (count : BitVec 64)
    (outputs : Array k.Value) :
    c.engineAfter inputs (n / c.layout.rows) (n % c.layout.rows) count outputs =
      c.engineAt inputs ((n + 1) / c.layout.rows) ((n + 1) % c.layout.rows) count outputs := by
  have hrow := Nat.mod_lt n h.rows_pos
  have hn : n + 1 = n / c.layout.rows * c.layout.rows + (n % c.layout.rows + 1) := by
    have hdiv := Nat.div_add_mod' n c.layout.rows
    omega
  unfold engineAfter
  split
  · next hleft => rw [hn, mul_add_div_width hleft, mul_add_mod_width hleft]
  · next hlast =>
    have hrows : n % c.layout.rows + 1 = c.layout.rows := by omega
    rw [hn, hrows, ← Nat.succ_mul, Nat.mul_div_cancel _ h.rows_pos, Nat.mul_mod_left]

/-- Every program runs on every row. -/
theorem steps_rows (h : Ready catalog c inputs)
    (hruns : ∀ program < programs, ∃ instructions, RunsAt catalog c slots program instructions ∧
      ∀ row < c.layout.rows,
        ¬ Instruction.Stops instructions (c.layout.initialRegisters inputs row))
    {outputs : Array k.Value} (hslice : c.Slice programs outputs) (n : Nat)
    (hn : n ≤ programs * c.layout.rows) :
    ∃ count' outputs', c.Slice programs outputs' ∧
      c.Steps slots inputs (n * (c.programSize + 1)) (c.engineAt inputs 0 0 0 outputs)
        ((List.range n).flatMap c.rowTouches)
        (c.engineAt inputs (n / c.layout.rows) (n % c.layout.rows) count' outputs') := by
  induction n with
  | zero =>
      refine ⟨0, outputs, hslice, ?_⟩
      rw [Nat.zero_mul, Nat.zero_div, Nat.zero_mod]
      exact .refl _
  | succ n ih =>
      obtain ⟨count, written, hwritten, hsteps⟩ := ih (Nat.le_of_succ_le hn)
      have hrow := Nat.mod_lt n h.accepted.rows_pos
      have hprogram : n / c.layout.rows < programs := by
        rw [Nat.div_lt_iff_lt_mul h.accepted.rows_pos]
        exact hn
      obtain ⟨instructions, hat, hstops⟩ := hruns _ hprogram
      obtain ⟨count', outputs', hslice', hnext⟩ :=
        steps_row h hprogram hat hrow (hstops _ hrow) count hwritten
      rw [engineAfter_eq h.accepted] at hnext
      refine ⟨count', outputs', hslice', ?_⟩
      have hall := hsteps.trans hnext
      rw [Nat.succ_mul, List.range_succ, List.flatMap_append, List.flatMap_singleton]
      exact hall

end Runs

end ThreadedCode

/-! ## Where the touches are -/

namespace Layout

/-- The bytes of a row of outputs are counted over all programs. -/
theorem output_address (l : Layout) (program row : Nat) :
    program * l.outputProgramStride + row * l.outputRowStride =
      (program * l.rows + row) * l.outputRowStride := by
  unfold outputProgramStride
  ring

end Layout

/-- A number that fits a word is not changed by it. -/
theorem toNat_ofNat_word {n : Nat} (h : n < 0x8000000000000000) : (BitVec.ofNat 64 n).toNat = n := by
  rw [BitVec.toNat_ofNat]
  exact Nat.mod_eq_of_lt (by omega)

section Inside

variable {l : Layout} {slots inputBytes outputBytes : Nat}

/-- A fetch from a slot is inside the slots. -/
theorem Touch.inside_fetch {i : Nat} (hi : i < slots) (hword : 2 * i < 0x8000000000000000) :
    (fetch (BitVec.ofNat 64 (2 * i))).Inside l slots inputBytes outputBytes :=
  ⟨i, hi, toNat_ofNat_word hword⟩

/-- A product that stays below the word is exact. -/
theorem Touch.inside_scale {row stride : Nat} (hrow : row < 0x80000000)
    (hstride : stride < 0x80000000) (hproduct : row * stride < 0x80000000) :
    (scale (BitVec.ofNat 64 row) stride).Inside l slots inputBytes outputBytes := by
  have hrowWord : (BitVec.ofNat 64 row).toNat = row := toNat_ofNat_word (by omega)
  refine ⟨hstride, by rw [hrowWord]; omega, ?_⟩
  rw [immediate_eq hstride, ← BitVec.ofNat_mul, toNat_ofNat_word (by omega), hrowWord]

/-- The loads of a row are inside the inputs. -/
theorem Layout.inside_loadTouches (h : l.Accepted) {row : Nat} (hrow : row < l.rows) :
    ∀ t ∈ l.loadTouches row, t.Inside l slots (l.inputLength * l.element.size) outputBytes := by
  have hbefore := h.row_mul_inputRowStride_lt hrow
  have hrows := h.rows_lt
  have hrowWord : (BitVec.ofNat 64 row).toNat = row := toNat_ofNat_word (by omega)
  intro t ht
  rcases List.mem_cons.mp ht with rfl | ht
  · exact Touch.inside_scale (by omega) h.inputRow_lt hbefore
  · obtain ⟨column, hcolumn, rfl⟩ := List.mem_map.mp ht
    have hcolumn := List.mem_range.mp hcolumn
    have hdisplacement := h.displacement_lt hcolumn
    have haddress : (BitVec.ofNat 64 (row * l.inputRowStride + column * l.columnStride)).toNat =
        row * l.inputRowStride + column * l.columnStride := toNat_ofNat_word (by omega)
    refine ⟨by rwa [hrowWord], hcolumn, by rw [haddress, hrowWord], rfl, ?_⟩
    -- the columns before this one, and this one, fit into the rows
    have hcell := Nat.mul_le_mul_right l.columnStride (Nat.succ_le_of_lt (mul_add_lt_mul hrow hcolumn))
    calc (BitVec.ofNat 64 (row * l.inputRowStride + column * l.columnStride)).toNat + l.columnStride
        = (row * l.arity + column + 1) * l.columnStride := by
          rw [haddress, inputRowStride]
          ring
      _ ≤ l.rows * l.arity * l.columnStride := hcell
      _ = l.inputLength * l.element.size := by
          rw [inputLength, columnStride]
          ring

variable {programs program row : Nat}

/-- The outputs of a program for a row are among those of all programs. -/
theorem Layout.output_end_le (hprogram : program < programs) (hrow : row < l.rows) :
    (program * l.rows + row) * l.outputRowStride + l.outputRowStride ≤
      programs * l.outputsPerProgram * l.element.size := by
  have hcell := Nat.mul_le_mul_right l.outputRowStride
    (Nat.succ_le_of_lt (mul_add_lt_mul hprogram hrow))
  calc (program * l.rows + row) * l.outputRowStride + l.outputRowStride
      = (program * l.rows + row + 1) * l.outputRowStride := by ring
    _ ≤ programs * l.rows * l.outputRowStride := hcell
    _ = programs * l.outputsPerProgram * l.element.size := by
        rw [outputRowStride, outputsPerProgram]
        ring

/-- The stores of a program and a row are inside the outputs. -/
theorem Layout.inside_storeTouches (h : l.Accepted) (hprogram : program < programs)
    (hrow : row < l.rows)
    (hword : programs * l.outputsPerProgram * l.element.size < 0x8000000000000000) :
    ∀ t ∈ l.storeTouches program row,
      t.Inside l slots inputBytes (programs * l.outputsPerProgram * l.element.size) := by
  have hend := output_end_le hprogram hrow
  have hrows := h.rows_lt
  have hproduct : row * l.outputRowStride < 0x80000000 :=
    lt_of_le_of_lt (Nat.mul_le_mul_right _ hrow.le) h.outputProgram_lt
  intro t ht
  rcases List.mem_cons.mp ht with rfl | ht
  · exact Touch.inside_scale (by omega) h.outputRow_lt hproduct
  · rw [List.mem_singleton.mp ht, output_address]
    have haddress := toNat_ofNat_word (n := (program * l.rows + row) * l.outputRowStride) (by omega)
    exact ⟨rfl, by rw [haddress]; exact Nat.dvd_mul_left _ _, by rw [haddress]; exact hend⟩

/-- Loads store nothing. -/
theorem Layout.countP_loadTouches (l : Layout) (row b : Nat) :
    (l.loadTouches row).countP (·.stores b) = 0 := by
  simp [loadTouches, List.countP_map, Function.comp_def, Touch.stores]

/-- A byte is stored with its row. -/
theorem Layout.countP_storeTouches (h : l.Accepted) (hprogram : program < programs)
    (hrow : row < l.rows)
    (hword : programs * l.outputsPerProgram * l.element.size < 0x8000000000000000) (b : Nat) :
    (l.storeTouches program row).countP (·.stores b) =
      if program * l.rows + row = b / l.outputRowStride then 1 else 0 := by
  have hend := output_end_le hprogram hrow
  have haddress := toNat_ofNat_word (n := (program * l.rows + row) * l.outputRowStride) (by omega)
  have hbyte : (Touch.store (BitVec.ofNat 64
      (program * l.outputProgramStride + row * l.outputRowStride)) l.outputRowStride).stores b =
      decide (program * l.rows + row = b / l.outputRowStride) := by
    have hpos := outputRowStride_pos h
    rw [output_address, Touch.stores, haddress, ← Bool.decide_and, decide_eq_decide,
      eq_comm (a := program * l.rows + row), Nat.div_eq_iff hpos]
    omega
  rw [storeTouches, List.countP_cons, List.countP_singleton, hbyte]
  simp [Touch.stores]

end Inside

namespace ThreadedCode

/-! ## Whole runs -/

section Whole

variable {programs : Nat}

/-- The row of a program is one of its rows. -/
theorem row_of_lt (h : c.layout.Accepted) {n : Nat} (hn : n < programs * c.layout.rows) :
    n / c.layout.rows < programs ∧ n % c.layout.rows < c.layout.rows := by
  refine ⟨?_, Nat.mod_lt n h.rows_pos⟩
  rwa [Nat.div_lt_iff_lt_mul h.rows_pos]

/-- All that is touched in running a program on a row is inside the three regions. -/
theorem inside_rowTouches (h : c.layout.Accepted)
    (hslots : 2 * (programs * (c.programSize + 1) + 1) < 0x8000000000000000)
    (hword : programs * c.layout.outputsPerProgram * c.layout.element.size < 0x8000000000000000)
    {n : Nat} (hn : n < programs * c.layout.rows) :
    ∀ t ∈ c.rowTouches n, t.Inside c.layout (programs * (c.programSize + 1) + 1)
      (c.layout.inputLength * c.layout.element.size)
      (programs * c.layout.outputsPerProgram * c.layout.element.size) := by
  obtain ⟨hprogram, hrow⟩ := row_of_lt h hn
  intro t ht
  rcases List.mem_append.mp ht with hfetch | ht
  · obtain ⟨j, hj, rfl⟩ := List.mem_map.mp hfetch
    have hslot := mul_add_lt_mul hprogram (List.mem_range.mp hj)
    exact Touch.inside_fetch (by omega) (by omega)
  rcases List.mem_append.mp ht with hstore | hload
  · exact Layout.inside_storeTouches h hprogram hrow hword t hstore
  · refine Layout.inside_loadTouches h ?_ t hload
    unfold rowAfter
    split
    · next hleft => exact hleft
    · exact h.rows_pos

/-- Every byte is stored with one row of one program. -/
theorem countP_rowTouches (h : c.layout.Accepted)
    (hword : programs * c.layout.outputsPerProgram * c.layout.element.size < 0x8000000000000000)
    {b : Nat} (hb : b < programs * c.layout.outputsPerProgram * c.layout.element.size) :
    ((List.range (programs * c.layout.rows)).flatMap c.rowTouches).countP (·.stores b) = 1 := by
  have hrow : ∀ n ∈ List.range (programs * c.layout.rows),
      (List.countP (·.stores b) ∘ c.rowTouches) n =
        if n = b / c.layout.outputRowStride then 1 else 0 := by
    intro n hn
    obtain ⟨hprogram, hrow⟩ := row_of_lt h (List.mem_range.mp hn)
    rw [Function.comp_apply, rowTouches, List.countP_append, List.countP_append,
      countP_fetchTouches, Layout.countP_loadTouches, Layout.countP_storeTouches h hprogram hrow hword,
      Nat.div_add_mod', Nat.zero_add, Nat.add_zero]
  have hin : b / c.layout.outputRowStride < programs * c.layout.rows := by
    rw [Nat.div_lt_iff_lt_mul (Layout.outputRowStride_pos h)]
    have hbytes : programs * c.layout.rows * c.layout.outputRowStride =
        programs * c.layout.outputsPerProgram * c.layout.element.size := by
      rw [Layout.outputRowStride, Layout.outputsPerProgram]
      ring
    rwa [hbytes]
  rw [List.countP_flatMap, List.map_congr_left hrow, ← List.sum_toFinset _ List.nodup_range,
    List.toFinset_range, Finset.sum_ite_eq', if_pos (Finset.mem_range.mpr hin)]

/-- What a run of so many programs touches, from entry to `HALT`. -/
def runTouches (c : ThreadedCode) (programs : Nat) : List Touch :=
  c.layout.loadTouches 0 ++ (List.range (programs * c.layout.rows)).flatMap c.rowTouches ++
    [.fetch (BitVec.ofNat 64 (2 * (programs * (c.programSize + 1))))]

/-- All that is touched in a run is inside the three regions. -/
theorem inside_runTouches (h : c.layout.Accepted)
    (hslots : 2 * (programs * (c.programSize + 1) + 1) < 0x8000000000000000)
    (hword : programs * c.layout.outputsPerProgram * c.layout.element.size < 0x8000000000000000) :
    ∀ t ∈ c.runTouches programs, t.Inside c.layout (programs * (c.programSize + 1) + 1)
      (c.layout.inputLength * c.layout.element.size)
      (programs * c.layout.outputsPerProgram * c.layout.element.size) := by
  intro t ht
  rcases List.mem_append.mp ht with ht | hfetch
  · rcases List.mem_append.mp ht with hload | hrow
    · exact Layout.inside_loadTouches h h.rows_pos t hload
    · obtain ⟨n, hn, ht⟩ := List.mem_flatMap.mp hrow
      exact inside_rowTouches h hslots hword (List.mem_range.mp hn) t ht
  · rw [List.mem_singleton.mp hfetch]
    exact Touch.inside_fetch (Nat.lt_succ_self _) (by omega)

/-- A run stores every byte of the outputs exactly once. -/
theorem countP_runTouches (h : c.layout.Accepted)
    (hword : programs * c.layout.outputsPerProgram * c.layout.element.size < 0x8000000000000000)
    {b : Nat} (hb : b < programs * c.layout.outputsPerProgram * c.layout.element.size) :
    (c.runTouches programs).countP (·.stores b) = 1 := by
  rw [runTouches, List.countP_append, List.countP_append, Layout.countP_loadTouches,
    countP_rowTouches h hword hb]
  rfl

end Whole

section Partitions

variable {partition : Partition} {programs : List Program} {outputs : Array k.Value}

/-- A partition runs to its `HALT` when no division stops one of its programs. -/
theorem steps_partition {inputs : Array k.Value} (h : Ready catalog c inputs)
    (hloaded : Loaded catalog c partition programs)
    (hslice : c.Slice partition.programCount outputs)
    (hdivide : ∀ p < partition.programCount, ∀ program instructions, programs[p]? = some program →
      program.instructions catalog = .ok instructions → ∀ row < c.layout.rows,
        ¬ Instruction.Stops instructions (c.layout.initialRegisters inputs row)) :
    ∃ log halted,
      c.Steps partition.slots inputs
        (partition.programCount * c.layout.rows * (c.programSize + 1))
        (c.engineAt inputs 0 0 0 outputs) log halted ∧
      c.dispatch partition.slots inputs halted = .ok (.halted halted) ∧
      c.entryTouches inputs outputs ++ log ++ c.dispatchTouches partition.slots inputs halted =
        c.runTouches partition.programCount := by
  have hlast := hloaded.holds.partitionEnd
  have hsize := hloaded.holds.size_eq
  have hslots := hloaded.addressable
  rw [hloaded.programSize_eq] at hlast hsize
  have hruns : ∀ p < partition.programCount, ∃ instructions,
      RunsAt catalog c partition.slots p instructions ∧ ∀ row < c.layout.rows,
        ¬ Instruction.Stops instructions (c.layout.initialRegisters inputs row) := by
    intro p hp
    obtain ⟨program, hprogram⟩ : ∃ program, programs[p]? = some program :=
      ⟨_, List.getElem?_eq_getElem (hloaded.holds.length_eq.symm ▸ hp)⟩
    obtain ⟨instructions, hinstructions, hat⟩ := hloaded.runsAt hprogram
    exact ⟨instructions, hat, hdivide p hp program instructions hprogram hinstructions⟩
  -- all rows of all programs, and then the fetch of the last sentinel
  obtain ⟨count, written, -, hsteps⟩ := steps_rows h hruns hslice _ le_rfl
  rw [Nat.mul_div_cancel _ h.accepted.rows_pos, Nat.mul_mod_left] at hsteps
  have hslot : (c.engineAt inputs partition.programCount 0 count written).slot =
      BitVec.ofNat 64 (2 * (partition.programCount * (c.programSize + 1))) := rfl
  refine ⟨_, _, hsteps, (dispatch_sentinel h.code inputs hslot (by omega)).2 hlast, ?_⟩
  rw [entryTouches_eq h, dispatchTouches_halt h.code inputs hslot (by omega) hlast, runTouches]

/-- A run of a partition looks for opcodes without cells and then enters the code. -/
theorem run_eq_match {input : InputRegion k} (hk : c.layout.element = k)
    (hholds : partition.Holds programs) (hprogramSize : partition.programSize = c.programSize)
    (hinput : input.values.size = c.layout.inputLength)
    (houtputs : outputs.size = partition.programCount * c.layout.outputsPerProgram) :
    c.run partition input outputs =
      match c.firstUnknown partition.slots with
      | some opcode => .error (.error (.unknownOpcode opcode)) outputs
      | none =>
        match c.enter input.values outputs with
        | .error failure => .error failure outputs
        | .ok e =>
          match c.runFor partition.slots input.values (c.jumps partition.programCount) e with
          | .error failure => .error failure outputs
          | .ok e => .ok e.count.toNat e.outputs := by
  have hlast : partition.slots.back? = some Opcode.HALT := by
    rw [Array.back?_eq_getElem?, hholds.size_eq, Nat.add_sub_cancel]
    exact hholds.partitionEnd
  unfold run
  exact if_neg (by simp [hk, hprogramSize, hinput, houtputs, hlast])

/-- No opcode is reported when all are known. -/
theorem firstUnknown_eq_none {slots : Array Opcode}
    (hknown : ∀ opcode ∈ slots, opcode.toNat < c.opcodeCount) : c.firstUnknown slots = none := by
  unfold firstUnknown
  rw [Array.find?_eq_none]
  intro opcode hopcode
  simpa using hknown opcode hopcode

/-- An opcode is the first one without a cell. -/
def IsFirstUnknown (c : ThreadedCode) (slots : Array Opcode) (i : Nat) (opcode : Opcode) : Prop :=
  slots[i]? = some opcode ∧ c.opcodeCount ≤ opcode.toNat ∧
    ∀ j < i, ∀ earlier : Opcode, slots[j]? = some earlier → earlier.toNat < c.opcodeCount

/-- The first unknown opcode is reported when there is one. -/
theorem exists_firstUnknown {slots : Array Opcode}
    (h : ∃ opcode ∈ slots, c.opcodeCount ≤ opcode.toNat) :
    ∃ i opcode, c.IsFirstUnknown slots i opcode ∧ c.firstUnknown slots = some opcode := by
  have hsome : (c.firstUnknown slots).isSome = true := by
    unfold firstUnknown
    rw [Array.find?_isSome]
    simpa using h
  obtain ⟨opcode, hfirst⟩ := Option.isSome_iff_exists.mp hsome
  obtain ⟨hunknown, i, hi, hslot, hbefore⟩ := Array.find?_eq_some_iff_getElem.mp hfirst
  refine ⟨i, opcode, ⟨?_, by simpa using hunknown, ?_⟩, hfirst⟩
  · rw [Array.getElem?_eq_getElem hi, hslot]
  · intro j hj earlier hearlier
    have hknown := hbefore j hj
    rw [Array.getElem?_eq_getElem (hj.trans hi), Option.some.injEq] at hearlier
    rw [hearlier] at hknown
    simpa using hknown

end Partitions

/-- Threaded code that could be emitted for a layout stays inside its regions, whatever partition of a
reachable store it runs, on any slice of outputs that memory can hold.  An opcode without a cell is
turned down before anything is touched.  Without one, and unless a division stops a program on a row,
the engine halts after a jump for each instruction and each `END` on every row and one for the `HALT`;
whatever it touches on the way is inside its region, and it stores every byte of the outputs exactly
once. -/
theorem run_confined {rows arity lanes layoutPrograms programSize thread : Nat} {counting : Bool}
    {layout : Layout} {store : Store} {partition : Partition}
    (hlayout : Layout.ofDimensions k rows arity lanes layoutPrograms = .ok layout)
    (hcode : create catalog layout programSize counting = .ok c)
    (hstore : store.Reachable) (hprogramSize : store.programSize = programSize)
    (hpartition : store.partition thread = .ok partition)
    (input : InputRegion k) (hinput : input.values.size = layout.inputLength)
    (outputs : Array k.Value)
    (houtputs : outputs.size = partition.programCount * layout.outputsPerProgram)
    (haddressable : outputs.size * k.size < 0x8000000000000000) :
    ((∃ opcode ∈ partition.slots, c.opcodeCount ≤ opcode.toNat) →
      ∃ i opcode, c.IsFirstUnknown partition.slots i opcode ∧
        c.run partition input outputs = .error (.error (.unknownOpcode opcode)) outputs) ∧
    ((∀ opcode ∈ partition.slots, opcode.toNat < c.opcodeCount) →
      (∀ p < partition.programCount, ∀ program instructions,
        store.program (thread * store.perThread + p) = .ok program →
        program.instructions catalog = .ok instructions → ∀ row < layout.rows,
          ¬ Instruction.Stops instructions (layout.initialRegisters input.values row)) →
      ∃ entered log halted, c.enter input.values outputs = .ok entered ∧
        c.Steps partition.slots input.values
          (partition.programCount * layout.rows * (programSize + 1)) entered log halted ∧
        c.dispatch partition.slots input.values halted = .ok (.halted halted) ∧
        c.run partition input outputs = .ok halted.count.toNat halted.outputs ∧
        let touched := c.entryTouches input.values outputs ++ log ++
          c.dispatchTouches partition.slots input.values halted
        (∀ t ∈ touched, t.Inside layout partition.slots.size (input.values.size * k.size)
          (outputs.size * k.size)) ∧
        ∀ b < outputs.size * k.size, touched.countP (·.stores b) = 1) := by
  obtain ⟨hdimensions, hl⟩ :=
    (Layout.ofDimensions_eq_ok_iff k rows arity lanes layoutPrograms layout).mp hlayout
  have hk : layout.element = k := by rw [hdimensions]
  obtain ⟨hc, rfl, rfl, -⟩ := codeFor_of_create hl hcode
  have hwell := hstore.wellFormed
  have hthread := Store.thread_lt_of_partition hwell hpartition
  obtain ⟨hholds, hcount, hsize⟩ := Store.holds_partition hwell hpartition
  rw [hprogramSize] at hsize
  have hrun : c.run partition input outputs = _ := run_eq_match hk hholds hsize hinput houtputs
  constructor
  · intro hunknown
    obtain ⟨i, opcode, hfirst, hfound⟩ := exists_firstUnknown hunknown
    exact ⟨i, opcode, hfirst, by rw [hrun, hfound]⟩
  · intro hopcodes hdivide
    have hready : Ready catalog c input.values := ⟨hc, hl, hk, hinput⟩
    have hloaded : Loaded catalog c partition (store.threadPrograms thread) :=
      loaded_of_partition hwell hprogramSize hpartition (by rwa [← hc.opcodeCount_eq])
    have hstops : ∀ p < partition.programCount, ∀ program instructions,
        (store.threadPrograms thread)[p]? = some program →
        program.instructions catalog = .ok instructions → ∀ row < c.layout.rows,
          ¬ Instruction.Stops instructions (c.layout.initialRegisters input.values row) := by
      intro p hp program instructions hprogram
      obtain ⟨hread, hat⟩ := Store.program_thread hwell hthread (hcount ▸ hp)
      rw [hat, Option.some.injEq] at hprogram
      exact hdivide p hp program instructions (hprogram ▸ hread)
    obtain ⟨log, halted, hsteps, hhalt, htouched⟩ :=
      steps_partition hready hloaded ⟨houtputs, haddressable⟩ hstops
    refine ⟨_, log, halted, enter_eq hready outputs, hsteps, hhalt, ?_, ?_⟩
    · rw [hrun, firstUnknown_eq_none hopcodes]
      simp only [enter_eq hready, jumps, hsteps.runFor 1]
      rw [runFor, hhalt]
    · -- what is touched is known in closed form, so only its bounds are left to check
      have hslots := hloaded.addressable
      rw [hholds.size_eq, hsize] at hslots
      have hsame : c.layout.element.size = k.size := by rw [hk]
      rw [houtputs, ← hsame] at haddressable ⊢
      rw [htouched, hholds.size_eq, hsize, hinput]
      exact ⟨inside_runTouches hl hslots haddressable,
        fun b hb => countP_runTouches hl haddressable hb⟩

/-- Two programs that increment on two rows, and the same store with an opcode that has no cell. -/
theorem run_confined_inc :
    let catalog : Catalog :=
      ⟨#[.unary .inc .rax], .i64, false, Nat.one_pos, Nat.le_of_ble_eq_true rfl⟩
    let layout : Layout := { element := .i64, rows := 2, arity := 1, lanes := 1, programs := 2 }
    let input : InputRegion .i64 := { values := #[5, 7], arity := 1, lanes := 1 }
    ∃ code, create catalog layout 1 true = .ok code ∧
      (∃ i opcode, code.IsFirstUnknown #[2, 0, 9, 0, 1] i opcode ∧
        code.run { slots := #[2, 0, 9, 0, 1], programCount := 2, programSize := 1 } input
          #[3, 3, 3, 3] = .error (.error (.unknownOpcode opcode)) #[3, 3, 3, 3]) ∧
      ∃ entered log halted, code.enter input.values #[3, 3, 3, 3] = .ok entered ∧
        code.Steps #[2, 0, 2, 0, 1] input.values 8 entered log halted ∧
        code.dispatch #[2, 0, 2, 0, 1] input.values halted = .ok (.halted halted) ∧
        ∀ b < 32, (code.entryTouches input.values #[3, 3, 3, 3] ++ log ++
          code.dispatchTouches #[2, 0, 2, 0, 1] input.values halted).countP (·.stores b) = 1 := by
  intro catalog layout input
  obtain ⟨code, hcode, hcount⟩ : ∃ code, create catalog layout 1 true = .ok code ∧
      code.opcodeCount = 3 := ⟨_, rfl, rfl⟩
  have hlayout : Layout.ofDimensions .i64 2 1 1 2 = .ok layout := rfl
  have hcreate : Store.create 1 2 1 = .ok {
      threads := 1, perThread := 2, programSize := 1, slots := Array.replicate 5 Opcode.END
      initialized := false } := rfl
  have hprepared : Store.Reachable { threads := 1, perThread := 2, programSize := 1
                                     slots := #[2, 0, 2, 0, 1], initialized := true } :=
    .prepare hcreate rfl
  have hset : Store.set { threads := 1, perThread := 2, programSize := 1, slots := #[2, 0, 2, 0, 1]
                          initialized := true } 1 0 9 =
      .ok { threads := 1, perThread := 2, programSize := 1, slots := #[2, 0, 9, 0, 1]
            initialized := true } := rfl
  have hpartition : ∀ opcode, Store.partition { threads := 1, perThread := 2, programSize := 1
                                                slots := #[2, 0, opcode, 0, 1]
                                                initialized := true } 0 =
      .ok { slots := #[2, 0, opcode, 0, 1], programCount := 2, programSize := 1 } := fun _ => rfl
  have hunknown := (run_confined hlayout hcode (.set hprepared hset) rfl (hpartition 9) input rfl
    #[3, 3, 3, 3] rfl (by decide)).1 ⟨9, by simp, by rw [hcount]; decide⟩
  obtain ⟨entered, log, halted, hentered, hsteps, hhalt, -, -, honce⟩ :=
    (run_confined hlayout hcode hprepared rfl (hpartition 2) input rfl #[3, 3, 3, 3] rfl
      (by decide)).2 (by simp [hcount])
      (fun _ _ _ _ _ hinstructions _ _ => Program.not_stops (by decide) hinstructions _)
  exact ⟨code, hcode, hunknown, entered, log, halted, hentered, hsteps, hhalt, honce⟩

end ThreadedCode

end LinearGP
