import Mathlib
import LinearGP.Evaluation
import LinearGP.ThreadedCode.Engine
import LinearGP.Proofs.Layout.Dimensions

/-!
# Loading rows and storing outputs

The operations that surround programs compute addresses in 64 bit words from 32 bit immediates.
Within an accepted layout no such computation wraps: `execAll_loadOps` says that loading leaves
exactly the registers that plain evaluation starts from, and `execAll_storeOps` that storing writes
the outputs of a row to their place and nowhere else.
-/

set_option autoImplicit false

namespace LinearGP

variable {k : ElementKind}

/-! ## Addresses -/

/-- An immediate below the sign bit stands for itself. -/
theorem immediate_eq {n : Nat} (h : n < 0x80000000) : immediate n = BitVec.ofNat 64 n := by
  have hsign : (BitVec.ofNat 32 n).msb = false :=
    BitVec.msb_eq_false_iff_two_mul_lt.mpr (by rw [BitVec.toNat_ofNat]; omega)
  rw [immediate, BitVec.signExtend_eq_setWidth_of_msb_false hsign, BitVec.setWidth_ofNat_of_le_of_lt]
  · omega
  · omega

/-- Reading at the address of an element gives the elements from there on. -/
theorem readRegion_ofNat (values : Array k.Value) (start count : Nat)
    (hword : start * k.size < 0x10000000000000000) (hsize : start + count ≤ values.size) :
    readRegion values (BitVec.ofNat 64 (start * k.size)) count =
      .ok ((List.range count).map fun i => values.getD (start + i) 0) := by
  have haddress : (BitVec.ofNat 64 (start * k.size)).toNat = start * k.size := by
    rw [BitVec.toNat_ofNat]
    exact Nat.mod_eq_of_lt hword
  unfold readRegion
  simp only [haddress, Nat.mul_mod_left, Nat.mul_div_cancel _ k.size_pos]
  rw [if_pos ⟨trivial, hsize⟩]

/-- A write through an address, at a place within the region, is a write at that place. -/
theorem writeRegion_ofNat (values : Array k.Value) (start : Nat) (written : List k.Value)
    (hword : start * k.size < 0x10000000000000000)
    (hsize : start + written.length ≤ values.size) :
    writeRegion values (BitVec.ofNat 64 (start * k.size)) written =
      .ok (writeAll values start written) := by
  have haddress : (BitVec.ofNat 64 (start * k.size)).toNat = start * k.size := by
    rw [BitVec.toNat_ofNat]
    exact Nat.mod_eq_of_lt hword
  unfold writeRegion
  simp only [haddress, Nat.mul_mod_left, Nat.mul_div_cancel _ k.size_pos]
  rw [if_pos ⟨trivial, hsize⟩]

/-! ## Writing values one after the other -/

/-- Writing does not change the size of a region. -/
@[simp] theorem size_writeAll (values : Array k.Value) (start : Nat) (written : List k.Value) :
    (writeAll values start written).size = values.size := by
  induction written generalizing values start with
  | nil => rfl
  | cons v rest ih =>
      rw [writeAll, ih]
      exact Array.size_setIfInBounds

/-- Two lists written one behind the other are one list written. -/
theorem writeAll_append (values : Array k.Value) (start : Nat) (first second : List k.Value) :
    writeAll values start (first ++ second) =
      writeAll (writeAll values start first) (start + first.length) second := by
  induction first generalizing values start with
  | nil => rfl
  | cons v rest ih =>
      rw [List.cons_append, writeAll, ih, writeAll, List.length_cons]
      congr 1
      omega

/-- A write is seen where it was made, and nowhere else. -/
theorem getElem?_writeAll (values : Array k.Value) (start : Nat) (written : List k.Value) (i : Nat)
    (hsize : start + written.length ≤ values.size) :
    (writeAll values start written)[i]? =
      if start ≤ i ∧ i < start + written.length then written[i - start]? else values[i]? := by
  induction written generalizing values start with
  | nil =>
      rw [writeAll, if_neg]
      simp only [List.length_nil]
      omega
  | cons v rest ih =>
      simp only [List.length_cons] at hsize ⊢
      rw [writeAll, ih _ _ (by rw [Array.size_setIfInBounds]; omega),
        Array.getElem?_setIfInBounds]
      by_cases hat : start = i
      · subst hat
        rw [if_neg (by omega), if_pos rfl, if_pos (by omega), if_pos (by omega)]
        simp
      · by_cases hin : start + 1 ≤ i ∧ i < start + 1 + rest.length
        · rw [if_pos hin, if_pos (by omega)]
          have hsucc : i - start = (i - (start + 1)) + 1 := by omega
          rw [hsucc, List.getElem?_cons_succ]
        · rw [if_neg hin, if_neg hat, if_neg (by omega)]

/-- A write over the whole region leaves nothing of what was there. -/
theorem writeAll_full (values : Array k.Value) (written : List k.Value)
    (hsize : written.length = values.size) : writeAll values 0 written = written.toArray := by
  apply Array.ext_getElem?
  intro i
  have hlist : written.toArray[i]? = written[i]? := by simp
  rw [getElem?_writeAll values 0 written i (by omega), hlist]
  by_cases hi : i < written.length
  · rw [if_pos (by omega), Nat.sub_zero]
  · rw [if_neg (by omega), Array.getElem?_eq_none (by omega), List.getElem?_eq_none (by omega)]

/-! ## Operations in sequence -/

namespace StubOp

variable (l : Layout) (inputs : Array k.Value)

/-- Running no operation changes nothing. -/
theorem execAll_nil (e : Engine k) : execAll l inputs [] e = .ok e := rfl

/-- A run is its first operation and then the rest. -/
theorem execAll_cons (op : StubOp) (ops : List StubOp) (e : Engine k) :
    execAll l inputs (op :: ops) e = op.exec l inputs e >>= execAll l inputs ops := by
  simp only [execAll, List.foldlM_cons]
  rfl

/-- A run of two lists of operations runs one after the other. -/
theorem execAll_append (first second : List StubOp) (e : Engine k) :
    execAll l inputs (first ++ second) e =
      execAll l inputs first e >>= execAll l inputs second := by
  simp only [execAll, List.foldlM_append]
  rfl

end StubOp

namespace Layout

/-! ## Loading a row -/

/-- The inputs of one row, by column and lane. -/
def rowInputs (l : Layout) (inputs : Array k.Value) (row : Nat) : Array k.Value :=
  inputs.extract (row * (l.arity * l.lanes)) ((row + 1) * (l.arity * l.lanes))

/-- Loading a column reads its values in the current row. -/
theorem readRegion_column {l : Layout} (h : l.Accepted) (hk : l.element = k)
    (inputs : Array k.Value) (hsize : inputs.size = l.inputLength) {row column : Nat}
    (hrow : row < l.rows) (hcolumn : column < l.arity) :
    readRegion inputs (BitVec.ofNat 64 (row * l.inputRowStride) + immediate (column * l.columnStride))
      l.lanes = .ok (l.columnValues inputs row column) := by
  subst hk
  have hbefore := h.row_mul_inputRowStride_lt hrow
  have hcolumn_lt : column * l.columnStride < 0x80000000 := by
    have hle : column * l.columnStride ≤ l.inputRowStride := Nat.mul_le_mul_right _ hcolumn.le
    have := h.inputRow_lt
    omega
  have haddress : row * l.inputRowStride + column * l.columnStride =
      (row * l.arity + column) * l.lanes * l.element.size := by
    unfold inputRowStride columnStride
    ring
  have hlast := Accepted.index_lt (l := l) row column (l.lanes - 1) hrow hcolumn
    (Nat.sub_lt h.lanes_pos Nat.one_pos)
  have hlanes := h.lanes_pos
  rw [immediate_eq hcolumn_lt, ← BitVec.ofNat_add, haddress]
  rw [readRegion_ofNat _ _ _ (by rw [← haddress]; omega) (by rw [hsize]; omega)]
  rfl

/-- Loads of columns bring the inputs of the current row into the registers of the columns, and
change nothing else. -/
theorem execAll_loadColumns {l : Layout} (h : l.Accepted) (hk : l.element = k)
    (inputs : Array k.Value) (hsize : inputs.size = l.inputLength) {row : Nat} (hrow : row < l.rows)
    (columns : List Nat) (hcolumns : ∀ column ∈ columns, column < l.arity) (e : Engine k)
    (hscratch : e.scratch = BitVec.ofNat 64 (row * l.inputRowStride)) :
    StubOp.execAll l inputs
        (columns.map fun column => .loadColumn column (column * l.columnStride)) e =
      .ok { e with
        registers := columns.foldl
          (fun s column => l.loadColumn column (l.columnValues inputs row column) s)
          e.registers } := by
  induction columns generalizing e with
  | nil => rfl
  | cons column rest ih =>
      have hread := readRegion_column h hk inputs hsize hrow (hcolumns column (by simp))
      rw [List.map_cons, StubOp.execAll_cons, StubOp.exec, hscratch, hread]
      have hrest := ih (fun c hc => hcolumns c (List.mem_cons_of_mem _ hc))
        { e with registers := l.loadColumn column (l.columnValues inputs row column) e.registers }
        hscratch
      simpa [bind, Except.bind, pure, Except.pure, hscratch] using hrest

/-- Loading leaves the registers that plain evaluation of the row starts from. -/
theorem execAll_loadOps {l : Layout} (h : l.Accepted) (hk : l.element = k)
    (inputs : Array k.Value) (hsize : inputs.size = l.inputLength) {row : Nat} (hrow : row < l.rows)
    (e : Engine k) (he : e.row = BitVec.ofNat 64 row) :
    StubOp.execAll l inputs l.loadOps e =
      .ok { e with
        scratch := BitVec.ofNat 64 (row * l.inputRowStride)
        registers := l.initialRegisters inputs row } := by
  have hscale : e.row * immediate l.inputRowStride = BitVec.ofNat 64 (row * l.inputRowStride) := by
    rw [he, immediate_eq h.inputRow_lt, ← BitVec.ofNat_mul]
  have hclear : StubOp.execAll l inputs [.clearRegisters, .scaleRow l.inputRowStride] e =
      .ok { e with scratch := e.row * immediate l.inputRowStride, registers := .cleared } := rfl
  have hcolumns := execAll_loadColumns h hk inputs hsize hrow (List.range l.arity)
    (fun column hc => List.mem_range.mp hc)
    { e with scratch := BitVec.ofNat 64 (row * l.inputRowStride), registers := .cleared } rfl
  rw [loadOps, StubOp.execAll_append, hclear, hscale]
  exact hcolumns

/-! ## Storing an output -/

/-- The output of a row has one value for every lane. -/
theorem length_readOutput {l : Layout} (h : l.Accepted) (s : Registers) :
    (l.readOutput k s).length = l.lanes := by
  unfold readOutput outputRegister
  cases hx : l.usesXmm
  · simp [h.lanes_eq_one hx]
  · simp [toLanes]

/-- Storing writes the outputs of a row of a program to their place. -/
theorem execAll_storeOps {l : Layout} (h : l.Accepted) (hk : l.element = k)
    (inputs : Array k.Value) {programs program row : Nat} (hprogram : program < programs)
    (hrow : row < l.rows) (e : Engine k) (he : e.row = BitVec.ofNat 64 row)
    (hbase : e.base = BitVec.ofNat 64 (program * l.outputProgramStride))
    (hsize : e.outputs.size = programs * l.outputsPerProgram)
    (hword : e.outputs.size * k.size < 0x8000000000000000) :
    StubOp.execAll l inputs l.storeOps e =
      .ok { e with
        scratch := BitVec.ofNat 64 (row * l.outputRowStride)
        outputs := writeAll e.outputs ((program * l.rows + row) * l.lanes)
          (l.readOutput k e.registers) } := by
  subst hk
  have hstride : l.outputRowStride < 0x80000000 := by
    have hle : 1 * l.outputRowStride ≤ l.rows * l.outputRowStride :=
      Nat.mul_le_mul_right _ h.rows_pos
    have := h.outputProgram_lt
    unfold outputProgramStride at this
    omega
  have hscale : e.row * immediate l.outputRowStride = BitVec.ofNat 64 (row * l.outputRowStride) := by
    rw [he, immediate_eq hstride, ← BitVec.ofNat_mul]
  have haddress : program * l.outputProgramStride + row * l.outputRowStride =
      (program * l.rows + row) * l.lanes * l.element.size := by
    unfold outputProgramStride outputRowStride
    ring
  have hend : (program * l.rows + row) * l.lanes + l.lanes ≤ e.outputs.size := by
    rw [hsize]
    unfold outputsPerProgram
    have hcell := mul_add_lt_mul hprogram hrow
    have hlast := mul_add_lt_mul hcell (Nat.sub_lt h.lanes_pos Nat.one_pos)
    rw [← Nat.mul_assoc]
    omega
  have hbytes : (program * l.rows + row) * l.lanes * l.element.size ≤
      e.outputs.size * l.element.size := Nat.mul_le_mul_right _ (by omega)
  have hwrite := writeRegion_ofNat e.outputs ((program * l.rows + row) * l.lanes)
    (l.readOutput l.element e.registers) (by omega) (by rw [length_readOutput h]; exact hend)
  rw [← haddress, BitVec.ofNat_add] at hwrite
  simp [storeOps, StubOp.execAll, StubOp.exec, bind, Except.bind, pure, Except.pure, hscale, hbase,
    hwrite]

end Layout

end LinearGP
