import Mathlib
import LinearGP.Proofs.Evaluation
import LinearGP.Proofs.Store.Programs
import LinearGP.Proofs.Store.Reachable
import LinearGP.Proofs.ThreadedCode.Cells
import LinearGP.ThreadedCode.Run

/-!
# Threaded code computes what plain evaluation computes

The engine has no loop of its own: the cells of `END` and `HALT` rewind the slot, step the output
address and reload the inputs.  `engineAt` is the engine before the first instruction of a program on
a row.  The run from there is followed in three nested inductions, over the instructions of the
program, over the rows that are left and over the programs that are left, and each ends in an
`engineAt` again.  `run_eq` is the result for a whole partition, division faults included.
-/

set_option autoImplicit false

namespace LinearGP

namespace ThreadedCode

variable {k : ElementKind} {catalog : Catalog} {c : ThreadedCode}

/-! ## One jump -/

/-- The count after `n` more instructions. -/
def counted (c : ThreadedCode) (count : BitVec 64) (n : Nat) : BitVec 64 :=
  if c.counting then count + BitVec.ofNat 64 n else count

/-- Counting nothing leaves the count as it is. -/
@[simp] theorem counted_zero (c : ThreadedCode) (count : BitVec 64) : c.counted count 0 = count := by
  unfold counted
  split <;> simp

/-- Counting twice is counting the sum. -/
theorem counted_counted (c : ThreadedCode) (count : BitVec 64) (m n : Nat) :
    c.counted (c.counted count m) n = c.counted count (m + n) := by
  unfold counted
  split
  · rw [BitVec.add_assoc, ← BitVec.ofNat_add]
  · rfl

/-- A count that started at zero, as a number. -/
theorem toNat_counted_zero (c : ThreadedCode) (n : Nat) :
    (c.counted 0 n).toNat = if c.counting then n % 0x10000000000000000 else 0 := by
  unfold counted
  split
  · rw [BitVec.toNat_add, BitVec.toNat_ofNat]
    simp
  · rfl

/-- The address of a slot finds its opcode. -/
theorem fetch_ofNat {slots : Array Opcode} {i : Nat} {opcode : Opcode}
    (hword : 2 * i < 0x10000000000000000) (hopcode : slots[i]? = some opcode) :
    fetch slots (BitVec.ofNat 64 (2 * i)) = .ok opcode := by
  have haddress : (BitVec.ofNat 64 (2 * i)).toNat = 2 * i := by
    rw [BitVec.toNat_ofNat]
    exact Nat.mod_eq_of_lt hword
  unfold fetch
  simp only [haddress, Nat.mul_mod_right, if_true, Nat.mul_div_cancel_left i (show 0 < 2 by omega),
    hopcode]

/-- A jump to an instruction runs it and steps to the next slot. -/
theorem dispatch_instruction (hc : c.CodeFor catalog) {slots : Array Opcode}
    (inputs : Array k.Value) {e : Engine k} {i : Nat} {opcode : Opcode} {instruction : Instruction}
    (hslot : e.slot = BitVec.ofNat 64 (2 * i)) (hword : 2 * i < 0x10000000000000000)
    (hopcode : slots[i]? = some opcode)
    (hinstruction : catalog.instruction? opcode = some instruction) :
    c.dispatch slots inputs e =
      match instruction.exec e.registers with
      | none => breach .divideError
      | some registers => .ok (.running { e with
          slot := BitVec.ofNat 64 (2 * (i + 1))
          registers
          count := c.counted e.count 1 }) := by
  obtain ⟨cell, hcell, hbody⟩ := hc.exists_cell (body_of_instruction hinstruction)
  have hnext : BitVec.ofNat 64 (2 * i) + 2 = BitVec.ofNat 64 (2 * (i + 1)) := by
    rw [Nat.mul_add, BitVec.ofNat_add]
    rfl
  unfold dispatch
  simp only [hslot, fetch_ofNat hword hopcode, bind, Except.bind, hcell, hbody, runInstruction]
  cases instruction.exec e.registers with
  | none => rfl
  | some registers =>
      simp only [StubOp.execAll_cons, StubOp.execAll_nil, StubOp.exec, bind, Except.bind, pure,
        Except.pure, hnext, counted]
      rfl

/-- A jump to a sentinel finishes a row or halts. -/
theorem dispatch_sentinel (hc : c.CodeFor catalog) {slots : Array Opcode} (inputs : Array k.Value)
    {e : Engine k} {i : Nat} (hslot : e.slot = BitVec.ofNat 64 (2 * i))
    (hword : 2 * i < 0x10000000000000000) :
    (slots[i]? = some Opcode.END →
      c.dispatch slots inputs e = (c.finishRow inputs e).map Status.running) ∧
    (slots[i]? = some Opcode.HALT → c.dispatch slots inputs e = .ok (.halted e)) := by
  constructor
  · intro hopcode
    obtain ⟨cell, hcell, hbody⟩ := hc.exists_cell (show (bodies catalog)[Opcode.END.toNat]? =
      some .finishRow from rfl)
    unfold dispatch
    simp only [hslot, fetch_ofNat hword hopcode, bind, Except.bind, hcell, hbody]
    cases c.finishRow inputs e <;> rfl
  · intro hopcode
    obtain ⟨cell, hcell, hbody⟩ := hc.exists_cell (show (bodies catalog)[Opcode.HALT.toNat]? =
      some .halt from rfl)
    unfold dispatch
    simp only [hslot, fetch_ofNat hword hopcode, bind, Except.bind, hcell, hbody]
    rfl

/-- After a jump that goes on, the rest of the run follows. -/
theorem runFor_succ_of_running {slots : Array Opcode} {inputs : Array k.Value} {e next : Engine k}
    (h : c.dispatch slots inputs e = .ok (.running next)) (jumps : Nat) :
    c.runFor slots inputs (jumps + 1) e = c.runFor slots inputs jumps next := by
  rw [runFor, h]

/-! ## The instructions of a program -/

/-- Running up to the end of a program executes its instructions in order. -/
theorem runFor_instructions (hc : c.CodeFor catalog) {slots : Array Opcode} (inputs : Array k.Value)
    (instructions : List Instruction) (i : Nat) (e : Engine k)
    (hslot : e.slot = BitVec.ofNat 64 (2 * i))
    (hword : 2 * (i + instructions.length) < 0x10000000000000000)
    (hopcodes : ∀ j < instructions.length, ∃ opcode, slots[i + j]? = some opcode ∧
      catalog.instruction? opcode = instructions[j]?) (jumps : Nat) :
    c.runFor slots inputs (instructions.length + jumps) e =
      match Instruction.execAll instructions e.registers with
      | none => breach .divideError
      | some registers => c.runFor slots inputs jumps { e with
          slot := BitVec.ofNat 64 (2 * (i + instructions.length))
          registers
          count := c.counted e.count instructions.length } := by
  -- a jump runs one instruction and leaves the engine at the slot of the next one
  induction instructions generalizing i e with
  | nil =>
      have hsame : ({ e with slot := BitVec.ofNat 64 (2 * i) } : Engine k) = e := by rw [← hslot]
      simp only [List.length_nil, Nat.zero_add, Nat.add_zero, Instruction.execAll_nil, counted_zero,
        hsame]
  | cons instruction rest ih =>
      rw [List.length_cons] at hword
      obtain ⟨opcode, hopcode, hinstruction⟩ := hopcodes 0 (Nat.succ_pos _)
      rw [List.getElem?_cons_zero] at hinstruction
      have hjump := dispatch_instruction hc inputs hslot (by omega) hopcode hinstruction
      have hsucc : (instruction :: rest).length + jumps = rest.length + jumps + 1 := by
        rw [List.length_cons]
        omega
      rw [hsucc, runFor, hjump, Instruction.execAll_cons]
      cases hexec : instruction.exec e.registers with
      | none => rfl
      | some registers =>
          have hrest := ih (i + 1) { e with
              slot := BitVec.ofNat 64 (2 * (i + 1))
              registers
              count := c.counted e.count 1 } rfl (by omega) (by
            intro j hj
            obtain ⟨opcode, hopcode, hinstruction⟩ :=
              hopcodes (j + 1) (by rw [List.length_cons]; omega)
            rw [List.getElem?_cons_succ] at hinstruction
            refine ⟨opcode, ?_, hinstruction⟩
            rw [← hopcode]
            congr 1
            omega)
          have hplace : i + 1 + rest.length = i + (rest.length + 1) := by omega
          simp only [counted_counted, hplace, Nat.add_comm 1] at hrest
          exact hrest

/-! ## Rows -/

/-- Emitted code with inputs for its layout. -/
structure Ready (catalog : Catalog) (c : ThreadedCode) (inputs : Array k.Value) : Prop where
  code : c.CodeFor catalog
  accepted : c.layout.Accepted
  element_eq : c.layout.element = k
  input_size : inputs.size = c.layout.inputLength

/-- The outputs of a number of programs, in so many bytes as can be addressed. -/
structure Slice (c : ThreadedCode) (programs : Nat) (outputs : Array k.Value) : Prop where
  size_eq : outputs.size = programs * c.layout.outputsPerProgram
  addressable : outputs.size * k.size < 0x8000000000000000

/-- Writing into the outputs of a thread keeps their size. -/
theorem Slice.writeAll {programs : Nat} {outputs : Array k.Value} (h : c.Slice programs outputs)
    (start : Nat) (values : List k.Value) :
    c.Slice programs (LinearGP.writeAll outputs start values) := by
  refine ⟨?_, ?_⟩
  · rw [size_writeAll]
    exact h.size_eq
  · rw [size_writeAll]
    exact h.addressable

/-- The engine before the first instruction of a program on a row. -/
def engineAt (c : ThreadedCode) (inputs : Array k.Value) (program row : Nat) (count : BitVec 64)
    (outputs : Array k.Value) : Engine k where
  slot := BitVec.ofNat 64 (2 * (program * (c.programSize + 1)))
  base := BitVec.ofNat 64 (program * c.layout.outputProgramStride)
  row := BitVec.ofNat 64 row
  scratch := BitVec.ofNat 64 (row * c.layout.inputRowStride)
  count := count
  registers := c.layout.initialRegisters inputs row
  outputs := outputs

/-- Where the engine goes on once a program has run on a row. -/
def engineAfter (c : ThreadedCode) (inputs : Array k.Value) (program row : Nat) (count : BitVec 64)
    (outputs : Array k.Value) : Engine k :=
  if row + 1 < c.layout.rows then c.engineAt inputs program (row + 1) count outputs
  else c.engineAt inputs (program + 1) 0 count outputs

/-- Rewinding the slot and loading the next row starts the same program again. -/
theorem execAll_againOps {inputs : Array k.Value} (h : Ready catalog c inputs)
    {program row : Nat} (hrow : row < c.layout.rows) {e : Engine k}
    (hslot : e.slot = BitVec.ofNat 64 (2 * (program * (c.programSize + 1) + c.programSize)))
    (hbase : e.base = BitVec.ofNat 64 (program * c.layout.outputProgramStride))
    (he : e.row = BitVec.ofNat 64 row) :
    StubOp.execAll c.layout inputs (againOps c.layout c.programSize) e =
      .ok (c.engineAt inputs program row e.count e.outputs) := by
  have hback : e.slot - immediate (c.programSize * 2) =
      BitVec.ofNat 64 (2 * (program * (c.programSize + 1))) := by
    rw [hslot, immediate_eq h.code.rewind_lt, Nat.mul_add, BitVec.ofNat_add,
      Nat.mul_comm 2 c.programSize]
    exact BitVec.add_sub_cancel _ _
  rw [againOps, List.append_assoc, StubOp.execAll_append]
  simp only [StubOp.execAll_cons, StubOp.execAll_nil, StubOp.exec, bind, Except.bind,
    StubOp.execAll_append, hback]
  rw [Layout.execAll_loadOps h.accepted h.element_eq inputs h.input_size hrow
    { e with slot := BitVec.ofNat 64 (2 * (program * (c.programSize + 1))) } he]
  simp only [hbase, he, engineAt]

/-- Stepping over `END` and loading the first row starts the next program. -/
theorem execAll_nextOps {inputs : Array k.Value} (h : Ready catalog c inputs) {program : Nat}
    {e : Engine k}
    (hslot : e.slot = BitVec.ofNat 64 (2 * (program * (c.programSize + 1) + c.programSize)))
    (hbase : e.base = BitVec.ofNat 64 (program * c.layout.outputProgramStride)) :
    StubOp.execAll c.layout inputs (nextOps c.layout) e =
      .ok (c.engineAt inputs (program + 1) 0 e.count e.outputs) := by
  have hslotNext : e.slot + 2 = BitVec.ofNat 64 (2 * ((program + 1) * (c.programSize + 1))) := by
    have hplace : 2 * ((program + 1) * (c.programSize + 1)) =
        2 * (program * (c.programSize + 1) + c.programSize) + 2 := by ring
    rw [hslot, hplace, BitVec.ofNat_add]
    rfl
  have hbaseNext : e.base + immediate c.layout.outputProgramStride =
      BitVec.ofNat 64 ((program + 1) * c.layout.outputProgramStride) := by
    rw [hbase, immediate_eq h.accepted.outputProgram_lt, Nat.succ_mul, BitVec.ofNat_add]
  rw [nextOps, List.append_assoc, StubOp.execAll_append]
  simp only [StubOp.execAll_cons, StubOp.execAll_nil, StubOp.exec, bind, Except.bind,
    StubOp.execAll_append, hslotNext, hbaseNext]
  rw [Layout.execAll_loadOps h.accepted h.element_eq inputs h.input_size h.accepted.rows_pos _ rfl]
  simp only [engineAt]
  rfl

/-- The output of the row is stored, and the row is counted. -/
theorem execAll_endOps {inputs : Array k.Value} (h : Ready catalog c inputs)
    {programs program row : Nat} (hprogram : program < programs) (hrow : row < c.layout.rows)
    {e : Engine k} (hbase : e.base = BitVec.ofNat 64 (program * c.layout.outputProgramStride))
    (he : e.row = BitVec.ofNat 64 row) (hslice : c.Slice programs e.outputs) :
    StubOp.execAll c.layout inputs (endOps c.layout) e = .ok { e with
      row := BitVec.ofNat 64 (row + 1)
      scratch := BitVec.ofNat 64 (row * c.layout.outputRowStride)
      outputs := LinearGP.writeAll e.outputs ((program * c.layout.rows + row) * c.layout.lanes)
        (c.layout.readOutput k e.registers) } := by
  have hstore := Layout.execAll_storeOps h.accepted h.element_eq inputs hprogram hrow e he hbase
    hslice.size_eq hslice.addressable
  rw [endOps, StubOp.execAll_append, hstore]
  show StubOp.execAll c.layout inputs [.nextRow, .branchOnRow] _ = _
  simp only [StubOp.execAll_cons, StubOp.execAll_nil, StubOp.exec, bind, Except.bind, he,
    BitVec.ofNat_add]
  rfl

/-- The branch at the end of a row tells whether rows are left. -/
theorem ult_rows (hc : c.CodeFor catalog) {row : Nat} (hrow : row < c.layout.rows) :
    (BitVec.ofNat 64 (row + 1)).ult (immediate c.layout.rows) =
      decide (row + 1 < c.layout.rows) := by
  have hrows := hc.rows_lt
  rw [immediate_eq hrows, BitVec.ult, BitVec.toNat_ofNat, BitVec.toNat_ofNat]
  congr 1
  rw [Nat.mod_eq_of_lt (by omega), Nat.mod_eq_of_lt (by omega)]

/-- The cell of `END` stores the output of the row and moves on. -/
theorem finishRow_eq {inputs : Array k.Value} (h : Ready catalog c inputs)
    {programs program row : Nat} (hprogram : program < programs) (hrow : row < c.layout.rows)
    {e : Engine k}
    (hslot : e.slot = BitVec.ofNat 64 (2 * (program * (c.programSize + 1) + c.programSize)))
    (hbase : e.base = BitVec.ofNat 64 (program * c.layout.outputProgramStride))
    (he : e.row = BitVec.ofNat 64 row) (hslice : c.Slice programs e.outputs) :
    c.finishRow inputs e = .ok (c.engineAfter inputs program row e.count
      (writeAll e.outputs ((program * c.layout.rows + row) * c.layout.lanes)
        (c.layout.readOutput k e.registers))) := by
  unfold finishRow engineAfter
  simp only [execAll_endOps h hprogram hrow hbase he hslice, bind, Except.bind, ult_rows h.code hrow]
  by_cases hagain : row + 1 < c.layout.rows
  · rw [if_pos (by simpa using hagain), if_pos hagain]
    exact execAll_againOps h hagain hslot hbase rfl
  · rw [if_neg (by simpa using hagain), if_neg hagain]
    exact execAll_nextOps h hslot hbase

/-- A program and where it stands in a partition: its instructions, then `END`. -/
structure RunsAt (catalog : Catalog) (c : ThreadedCode) (slots : Array Opcode) (program : Nat)
    (instructions : List Instruction) : Prop where
  length_eq : instructions.length = c.programSize
  instruction : ∀ j < instructions.length, ∃ opcode,
    slots[program * (c.programSize + 1) + j]? = some opcode ∧
      catalog.instruction? opcode = instructions[j]?
  programEnd : slots[program * (c.programSize + 1) + c.programSize]? = some Opcode.END
  addressable : 2 * (program * (c.programSize + 1) + c.programSize) < 0x10000000000000000

section Runs

variable {slots : Array Opcode} {inputs : Array k.Value} {programs program : Nat}
  {instructions : List Instruction}

/-- A program runs on a row: its output is stored and the engine moves on. -/
theorem runFor_row (h : Ready catalog c inputs) (hprogram : program < programs)
    (hruns : RunsAt catalog c slots program instructions) {row : Nat} (hrow : row < c.layout.rows)
    (count : BitVec 64) {outputs : Array k.Value} (hslice : c.Slice programs outputs)
    (jumps : Nat) :
    c.runFor slots inputs (c.programSize + 1 + jumps)
        (c.engineAt inputs program row count outputs) =
      match c.layout.evaluate instructions inputs row with
      | none => breach .divideError
      | some values => c.runFor slots inputs jumps
          (c.engineAfter inputs program row (c.counted count c.programSize)
            (writeAll outputs ((program * c.layout.rows + row) * c.layout.lanes) values)) := by
  have hinstructions := runFor_instructions h.code inputs instructions
    (program * (c.programSize + 1)) (c.engineAt inputs program row count outputs) rfl
    (by rw [hruns.length_eq]; exact hruns.addressable) hruns.instruction (1 + jumps)
  have hjumps : c.programSize + 1 + jumps = instructions.length + (1 + jumps) := by
    rw [hruns.length_eq, Nat.add_assoc]
  have hstart : (c.engineAt inputs program row count outputs).registers =
      c.layout.initialRegisters inputs row := rfl
  rw [hjumps, hinstructions, hstart]
  unfold Layout.evaluate
  cases hexec : Instruction.execAll instructions (c.layout.initialRegisters inputs row) with
  | none => rfl
  | some registers =>
      rw [hruns.length_eq, Nat.add_comm 1 jumps]
      apply runFor_succ_of_running
      rw [(dispatch_sentinel h.code inputs rfl hruns.addressable).1 hruns.programEnd]
      rw [finishRow_eq h hprogram hrow rfl rfl rfl hslice]
      rfl

/-- A program runs on the rows that are left, and the next program comes up. -/
theorem runFor_rows (h : Ready catalog c inputs) (hprogram : program < programs)
    (hruns : RunsAt catalog c slots program instructions) (left row : Nat)
    (hleft : row + (left + 1) = c.layout.rows) (count : BitVec 64) {outputs : Array k.Value}
    (hslice : c.Slice programs outputs) (jumps : Nat) :
    c.runFor slots inputs ((left + 1) * (c.programSize + 1) + jumps)
        (c.engineAt inputs program row count outputs) =
      match c.layout.evaluateRows instructions inputs row (left + 1) with
      | none => breach .divideError
      | some values => c.runFor slots inputs jumps
          (c.engineAt inputs (program + 1) 0 (c.counted count ((left + 1) * c.programSize))
            (writeAll outputs ((program * c.layout.rows + row) * c.layout.lanes) values)) := by
  -- every row but the last one turns back to the first slot of the program
  induction left generalizing row count outputs with
  | zero =>
      have hin : row < c.layout.rows := by omega
      have hlast := runFor_row h hprogram hruns hin count hslice jumps
      have hlastRow : ¬ row + 1 < c.layout.rows := by omega
      rw [Nat.zero_add, Nat.one_mul, Nat.one_mul, hlast]
      simp only [Layout.evaluateRows, engineAfter]
      cases c.layout.evaluate instructions inputs row with
      | none => rfl
      | some values =>
          simp only [if_neg hlastRow, bind, Option.bind, pure, List.append_nil]
  | succ left ih =>
      have hin : row < c.layout.rows := by omega
      have hrow := runFor_row h hprogram hruns hin count hslice
        ((left + 1) * (c.programSize + 1) + jumps)
      have hjumps : (left + 1 + 1) * (c.programSize + 1) + jumps =
          c.programSize + 1 + ((left + 1) * (c.programSize + 1) + jumps) := by ring
      rw [hjumps, hrow, Layout.evaluateRows]
      cases hvalues : c.layout.evaluate instructions inputs row with
      | none => rfl
      | some values =>
          have hwritten : (program * c.layout.rows + row) * c.layout.lanes + values.length =
              (program * c.layout.rows + (row + 1)) * c.layout.lanes := by
            rw [Layout.length_evaluate h.accepted hvalues]
            ring
          have hcount : c.programSize + (left + 1) * c.programSize =
              (left + 1 + 1) * c.programSize := by ring
          have hrest := ih (row + 1) (by omega) (c.counted count c.programSize)
            (hslice.writeAll ((program * c.layout.rows + row) * c.layout.lanes) values)
          simp only [engineAfter]
          rw [if_pos (by omega), hrest, counted_counted, hcount, ← hwritten]
          cases c.layout.evaluateRows instructions inputs (row + 1) (left + 1) with
          | none => rfl
          | some rest => simp only [bind, Option.bind, pure, writeAll_append]

/-- A program runs on all rows. -/
theorem runFor_program (h : Ready catalog c inputs) (hprogram : program < programs)
    (hruns : RunsAt catalog c slots program instructions) (count : BitVec 64)
    {outputs : Array k.Value} (hslice : c.Slice programs outputs) (jumps : Nat) :
    c.runFor slots inputs (c.layout.rows * (c.programSize + 1) + jumps)
        (c.engineAt inputs program 0 count outputs) =
      match c.layout.evaluateRows instructions inputs 0 c.layout.rows with
      | none => breach .divideError
      | some values => c.runFor slots inputs jumps
          (c.engineAt inputs (program + 1) 0 (c.counted count (c.layout.rows * c.programSize))
            (writeAll outputs (program * c.layout.rows * c.layout.lanes) values)) := by
  have hrows := h.accepted.rows_pos
  have hall : c.layout.rows - 1 + 1 = c.layout.rows := by omega
  have hrun := runFor_rows h hprogram hruns (c.layout.rows - 1) 0 (by omega) count hslice jumps
  simpa only [hall, Nat.add_zero] using hrun

end Runs

/-! ## Programs -/

/-- The programs of a partition, all of them over the opcodes of the catalog. -/
structure Loaded (catalog : Catalog) (c : ThreadedCode) (partition : Partition)
    (programs : List Program) : Prop where
  holds : partition.Holds programs
  programSize_eq : partition.programSize = c.programSize
  known : ∀ opcode ∈ partition.slots, opcode.toNat < catalog.opcodeCount
  addressable : 2 * partition.slots.size < 0x8000000000000000

section Partitions

variable {partition : Partition} {programs : List Program}

/-- The programs of a partition are where the engine looks for them. -/
theorem Loaded.runsAt (h : Loaded catalog c partition programs) {p : Nat} {program : Program}
    (hprogram : programs[p]? = some program) :
    ∃ instructions, program.instructions catalog = .ok instructions ∧
      RunsAt catalog c partition.slots p instructions := by
  have hmem : program ∈ programs := List.mem_of_getElem? hprogram
  have hlength := h.holds.length_program program hmem
  have hslot : ∀ j < c.programSize,
      partition.slots[p * (c.programSize + 1) + j]? = program[j]? := by
    rw [← h.programSize_eq]
    intro j hj
    exact h.holds.instruction p j program hprogram hj
  -- the slots of a program hold its opcodes, and all opcodes in slots are known
  have hknown : program.Known catalog := by
    intro opcode hopcode
    obtain ⟨j, hj⟩ := List.getElem?_of_mem hopcode
    have hin : j < c.programSize := by
      rw [← h.programSize_eq, ← hlength]
      exact (List.getElem?_eq_some_iff.mp hj).1
    have hread := (hslot j hin).trans hj
    exact Catalog.exists_instruction (h.holds.regular program hmem opcode hopcode)
      (h.known opcode (Array.mem_of_getElem? hread))
  obtain ⟨instructions, hinstructions⟩ := hknown.instructions
  have hfound := Program.length_instructions hinstructions
  have hp : p < partition.programCount := by
    rw [← h.holds.length_eq]
    exact (List.getElem?_eq_some_iff.mp hprogram).1
  refine ⟨instructions, hinstructions, ?_⟩
  exact {
    length_eq := by rw [hfound, hlength, h.programSize_eq]
    instruction := by
      intro j hj
      have hjs : j < program.length := by rwa [← hfound]
      refine ⟨program[j], ?_, ?_⟩
      · rw [hslot j (by rwa [← h.programSize_eq, ← hlength]), List.getElem?_eq_getElem hjs]
      · rw [List.getElem?_eq_getElem hj]
        exact ((Program.instructions_eq_ok_iff catalog program instructions).mp hinstructions).get
          hjs hj
    programEnd := by
      rw [← h.programSize_eq]
      exact h.holds.programEnd p hp
    addressable := by
      have hin := mul_add_lt_mul hp (Nat.lt_add_one partition.programSize)
      have hsize := h.holds.size_eq
      have hbytes := h.addressable
      rw [← h.programSize_eq]
      omega }

/-- At the sentinel of a partition the run ends. -/
theorem runFor_halt {inputs : Array k.Value} (h : Ready catalog c inputs)
    (hloaded : Loaded catalog c partition programs) (count : BitVec 64) (outputs : Array k.Value) :
    c.runFor partition.slots inputs 1 (c.engineAt inputs partition.programCount 0 count outputs) =
      .ok (c.engineAt inputs partition.programCount 0 count outputs) := by
  have hend := hloaded.holds.partitionEnd
  have hsize := hloaded.holds.size_eq
  have hbytes := hloaded.addressable
  rw [hloaded.programSize_eq] at hend hsize
  have hhalt := (dispatch_sentinel h.code inputs
    (e := c.engineAt inputs partition.programCount 0 count outputs) rfl (by omega)).2 hend
  rw [runFor, hhalt]

/-- The programs that are left run on every row, and the engine halts. -/
theorem runFor_programs {inputs : Array k.Value} (h : Ready catalog c inputs)
    (hloaded : Loaded catalog c partition programs) (rest : List Program) (p : Nat)
    (hrest : programs.drop p = rest) (hp : p + rest.length = partition.programCount)
    (count : BitVec 64) {outputs : Array k.Value} (hslice : c.Slice partition.programCount outputs) :
    c.runFor partition.slots inputs (rest.length * c.layout.rows * (c.programSize + 1) + 1)
        (c.engineAt inputs p 0 count outputs) =
      (rest.mapM (Program.outputs catalog c.layout inputs)).map fun values =>
        c.engineAt inputs partition.programCount 0
          (c.counted count (rest.length * c.layout.rows * c.programSize))
          (writeAll outputs (p * c.layout.rows * c.layout.lanes) values.flatten) := by
  -- the first `p` programs have been run, and their outputs are written
  induction rest generalizing p count outputs with
  | nil =>
      obtain rfl : p = partition.programCount := hp
      simp only [List.length_nil, Nat.zero_mul, Nat.zero_add, counted_zero]
      exact runFor_halt h hloaded count outputs
  | cons program rest ih =>
      rw [List.length_cons] at hp
      have hprogram : programs[p]? = some program := by
        rw [← List.head?_drop, hrest, List.head?_cons]
      have htail : programs.drop (p + 1) = rest := by
        rw [← List.tail_drop, hrest, List.tail_cons]
      obtain ⟨instructions, hinstructions, hruns⟩ := hloaded.runsAt hprogram
      have hin : p < partition.programCount := by omega
      have hrun := runFor_program h hin hruns count hslice
        (rest.length * c.layout.rows * (c.programSize + 1) + 1)
      have hjumps : (program :: rest).length * c.layout.rows * (c.programSize + 1) + 1 =
          c.layout.rows * (c.programSize + 1) +
            (rest.length * c.layout.rows * (c.programSize + 1) + 1) := by
        rw [List.length_cons]
        ring
      rw [hjumps, hrun, List.mapM_cons, Program.outputs]
      simp only [hinstructions]
      cases hvalues : c.layout.evaluateRows instructions inputs 0 c.layout.rows with
      | none => rfl
      | some values =>
          have hwritten : p * c.layout.rows * c.layout.lanes + values.length =
              (p + 1) * c.layout.rows * c.layout.lanes := by
            rw [(Layout.evaluateRows_eq_some h.accepted hvalues).1]
            ring
          have hcount : c.layout.rows * c.programSize +
              rest.length * c.layout.rows * c.programSize =
              (program :: rest).length * c.layout.rows * c.programSize := by
            rw [List.length_cons]
            ring
          have hnext := ih (p + 1) htail (by omega) (c.counted count (c.layout.rows * c.programSize))
            (hslice.writeAll (p * c.layout.rows * c.layout.lanes) values)
          simp only
          rw [hnext, counted_counted, hcount, ← hwritten]
          cases rest.mapM (Program.outputs catalog c.layout inputs) with
          | error failure => rfl
          | ok others =>
              simp only [bind, Except.bind, pure, Except.pure, Except.map, List.flatten_cons,
                writeAll_append]

/-! ## Partitions -/

/-- On entry the engine is before the first program and row. -/
theorem enter_eq {inputs : Array k.Value} (h : Ready catalog c inputs) (outputs : Array k.Value) :
    c.enter inputs outputs = .ok (c.engineAt inputs 0 0 0 outputs) := by
  unfold enter entryOps
  rw [List.append_assoc, StubOp.execAll_append]
  simp only [StubOp.execAll_cons, StubOp.execAll_nil, StubOp.exec, bind, Except.bind,
    StubOp.execAll_append]
  rw [Layout.execAll_loadOps h.accepted h.element_eq inputs h.input_size h.accepted.rows_pos _ rfl]
  simp only [engineAt, Nat.zero_mul, Nat.mul_zero]
  rfl

/-- Running a partition gives the outputs of its programs, each run by itself on every row.  The
first division fault ends the run. -/
theorem run_eq {input : InputRegion k} (h : Ready catalog c input.values)
    (hloaded : Loaded catalog c partition programs) {outputs : Array k.Value}
    (hslice : c.Slice partition.programCount outputs) :
    c.run partition input outputs =
      match programs.mapM (Program.outputs catalog c.layout input.values) with
      | .error failure => .error failure outputs
      | .ok values => .ok
          (if c.counting then partition.programCount * c.layout.rows * c.programSize %
            0x10000000000000000 else 0)
          values.flatten.toArray := by
  have hlength := hloaded.holds.length_eq
  -- none of the checks in front of a run turns the partition down
  have hlast : partition.slots.back? = some Opcode.HALT := by
    rw [Array.back?_eq_getElem?, hloaded.holds.size_eq, Nat.add_sub_cancel]
    exact hloaded.holds.partitionEnd
  have hknown : c.firstUnknown partition.slots = none := by
    unfold firstUnknown
    rw [Array.find?_eq_none]
    intro opcode hopcode
    have hlt := hloaded.known opcode hopcode
    rw [← h.code.opcodeCount_eq] at hlt
    simpa using hlt
  have hrun := runFor_programs h hloaded programs 0 rfl (by rw [Nat.zero_add, hlength]) 0 hslice
  rw [hlength] at hrun
  unfold run
  rw [if_neg (by simp [h.element_eq, hloaded.programSize_eq, h.input_size, hslice.size_eq, hlast]),
    hknown]
  simp only [enter_eq h, jumps, hrun]
  cases hvalues : programs.mapM (Program.outputs catalog c.layout input.values) with
  | error failure => rfl
  | ok values =>
      have hfull : values.flatten.length = outputs.size := by
        rw [length_flatten_of_width (Program.length_of_mem_outputs h.accepted hvalues),
          hslice.size_eq, ← hlength, (mapM_eq_ok_iff.mp hvalues).length_eq]
      simp only [Except.map, engineAt, Nat.zero_mul]
      rw [writeAll_full _ _ hfull, toNat_counted_zero]

/-- A partition of a well formed store can be run once all of its opcodes have cells. -/
theorem loaded_of_partition {store : Store} (hwell : store.WellFormed)
    (hprogramSize : store.programSize = c.programSize) {thread : Nat}
    (hpartition : store.partition thread = .ok partition)
    (hknown : ∀ opcode ∈ partition.slots, opcode.toNat < catalog.opcodeCount) :
    Loaded catalog c partition (store.threadPrograms thread) := by
  obtain ⟨hholds, -, hsize⟩ := Store.holds_partition hwell hpartition
  exact {
    holds := hholds
    programSize_eq := hsize.trans hprogramSize
    known := hknown
    addressable := lt_of_le_of_lt
      (Nat.mul_le_mul_left 2 (Store.size_partition_le hwell hpartition)) hwell.addressable }

end Partitions

/-- Running a partition of a reachable store refines plain evaluation.  When no division stops a
program on a row, the engine halts, and each output is what the output register of its program holds
after the registers were cleared, its row was loaded and its instructions were executed.  Slices of
more bytes than a machine word can address do not exist. -/
theorem run_refines_evaluate {rows arity lanes layoutPrograms programSize thread : Nat}
    {counting : Bool} {layout : Layout} {store : Store} {partition : Partition}
    (hlayout : Layout.ofDimensions k rows arity lanes layoutPrograms = .ok layout)
    (hcode : create catalog layout programSize counting = .ok c)
    (hstore : store.Reachable) (hprogramSize : store.programSize = programSize)
    (hpartition : store.partition thread = .ok partition)
    (hopcodes : ∀ opcode ∈ partition.slots, opcode.toNat < c.opcodeCount)
    (input : InputRegion k) (hinput : input.values.size = layout.inputLength)
    (outputs : Array k.Value)
    (houtputs : outputs.size = partition.programCount * layout.outputsPerProgram)
    (haddressable : outputs.size * k.size < 0x8000000000000000)
    (hdivide : ∀ p < partition.programCount, ∀ row < layout.rows, ∀ program instructions,
      store.program (thread * store.perThread + p) = .ok program →
      program.instructions catalog = .ok instructions →
      ¬ Instruction.Stops instructions
        (layout.initialRegisters (layout.rowInputs input.values row) 0)) :
    ∃ written, c.run partition input outputs =
        .ok (if counting then partition.programCount * layout.rows * programSize %
          0x10000000000000000 else 0) written ∧
      written.size = outputs.size ∧
      ∀ p < partition.programCount, ∀ row < layout.rows, ∃ program instructions values,
        store.program (thread * store.perThread + p) = .ok program ∧
        program.instructions catalog = .ok instructions ∧
        layout.evaluate instructions (layout.rowInputs input.values row) 0 = some values ∧
        values.length = layout.lanes ∧
        ∀ lane < layout.lanes,
          written[(p * layout.rows + row) * layout.lanes + lane]? = values[lane]? := by
  obtain ⟨hdimensions, hl⟩ :=
    (Layout.ofDimensions_eq_ok_iff k rows arity lanes layoutPrograms layout).mp hlayout
  have hk : layout.element = k := by rw [hdimensions]
  obtain ⟨hc, rfl, rfl, rfl⟩ := codeFor_of_create hl hcode
  have hwell := hstore.wellFormed
  have hthread := Store.thread_lt_of_partition hwell hpartition
  obtain ⟨hholds, hcount, -⟩ := Store.holds_partition hwell hpartition
  have hready : Ready catalog c input.values := ⟨hc, hl, hk, hinput⟩
  have hloaded : Loaded catalog c partition (store.threadPrograms thread) :=
    loaded_of_partition hwell hprogramSize hpartition (by rwa [← hc.opcodeCount_eq])
  -- no program stops on any row, so all of them have outputs
  have hstops : ∀ program ∈ store.threadPrograms thread,
      ∃ values, program.outputs catalog c.layout input.values = .ok values := by
    intro program hmem
    obtain ⟨p, hp⟩ := List.getElem?_of_mem hmem
    have hin : p < partition.programCount := by
      rw [← hholds.length_eq]
      exact (List.getElem?_eq_some_iff.mp hp).1
    obtain ⟨hread, hat⟩ := Store.program_thread hwell hthread (hcount ▸ hin)
    rw [hat, Option.some.injEq] at hp
    subst hp
    obtain ⟨instructions, hinstructions, -⟩ := hloaded.runsAt hat
    refine (Program.exists_outputs_iff hinstructions).mpr ?_
    intro row hrow
    rw [← Layout.initialRegisters_rowInputs]
    exact hdivide p hin row hrow _ instructions hread hinstructions
  obtain ⟨values, hvalues⟩ := exists_mapM_eq_ok hstops
  have hrun := run_eq hready hloaded ⟨houtputs, haddressable⟩
  rw [hvalues] at hrun
  refine ⟨values.flatten.toArray, hrun, ?_, ?_⟩
  · rw [houtputs, List.size_toArray,
      length_flatten_of_width (Program.length_of_mem_outputs hl hvalues),
      ← (mapM_eq_ok_iff.mp hvalues).length_eq, hholds.length_eq]
  · intro p hp row hrow
    obtain ⟨hread, hat⟩ := Store.program_thread hwell hthread (hcount ▸ hp)
    obtain ⟨instructions, output, hinstructions, houtput, hlanes⟩ :=
      Program.getElem?_flatten_outputs hl hvalues hat hrow
    refine ⟨_, instructions, output, hread, hinstructions, ?_,
      Layout.length_evaluate hl houtput, ?_⟩
    · rw [Layout.evaluate_rowInputs]
      exact houtput
    · intro lane hlane
      rw [List.getElem?_toArray]
      exact hlanes lane hlane

/-- Two programs that increment run on two rows, over old outputs. -/
theorem run_refines_evaluate_inc : ∃ code written,
    create ⟨#[.unary .inc .rax], .i64, false, Nat.one_pos, Nat.le_of_ble_eq_true rfl⟩
      { element := .i64, rows := 2, arity := 1, lanes := 1, programs := 2 } 1 true = .ok code ∧
    code.run { slots := #[2, 0, 2, 0, 1], programCount := 2, programSize := 1 }
      { values := #[5, 7], arity := 1, lanes := 1 : InputRegion .i64 } #[9, 9, 9, 9] =
        .ok 4 written ∧
    written.size = 4 := by
  obtain ⟨code, hcode, hcount⟩ : ∃ code,
      create ⟨#[.unary .inc .rax], .i64, false, Nat.one_pos, Nat.le_of_ble_eq_true rfl⟩
        { element := .i64, rows := 2, arity := 1, lanes := 1, programs := 2 } 1 true = .ok code ∧
      code.opcodeCount = 3 := ⟨_, rfl, rfl⟩
  have hlayout : Layout.ofDimensions .i64 2 1 1 2 =
      .ok { element := .i64, rows := 2, arity := 1, lanes := 1, programs := 2 } := rfl
  have hcreate : Store.create 1 2 1 = .ok {
      threads := 1, perThread := 2, programSize := 1, slots := Array.replicate 5 Opcode.END
      initialized := false } := rfl
  have hpartition : Store.partition { threads := 1, perThread := 2, programSize := 1
                                      slots := #[2, 0, 2, 0, 1], initialized := true } 0 =
      .ok { slots := #[2, 0, 2, 0, 1], programCount := 2, programSize := 1 } := rfl
  obtain ⟨written, hrun, hsize, -⟩ := run_refines_evaluate hlayout hcode (.prepare hcreate rfl) rfl
    hpartition (by simp [hcount]) { values := #[5, 7], arity := 1, lanes := 1 } rfl
    #[9, 9, 9, 9] rfl (by decide)
    (fun _ _ _ _ _ _ _ hinstructions => Program.not_stops (by decide) hinstructions _)
  exact ⟨code, written, hcode, hrun, hsize⟩

end ThreadedCode

end LinearGP
