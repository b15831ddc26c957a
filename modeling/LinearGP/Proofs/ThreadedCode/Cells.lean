import Mathlib
import LinearGP.Proofs.Catalog.Opcodes
import LinearGP.Proofs.Layout.Dimensions
import LinearGP.ThreadedCode.Basic

/-!
# Cells and dispatch

Cells are laid out one after the other, each padded to 32 bytes.  No cell outgrows its padding, so
the cell of opcode `o` starts `32 * o` bytes into the table, which is where dispatch jumps:
`ThreadedCode.CodeFor` collects what emitted code promises, and `codeFor_of_create` says that code
keeps it whenever it could be emitted.
-/

set_option autoImplicit false

namespace LinearGP

/-- No cell is empty. -/
theorem Cell.Body.length_pos (layout : Layout) (counting : Bool) (body : Cell.Body) :
    0 < body.length layout counting := by
  cases body with
  | finishRow => exact Nat.succ_pos 4
  | halt => exact Nat.succ_pos 4
  | run instruction =>
      simp only [Cell.Body.length, StubOp.length]
      omega

/-- No cell outgrows its padding. -/
theorem Cell.Body.length_le_capacity (layout : Layout) (counting : Bool) (body : Cell.Body) :
    body.length layout counting ≤ Cell.capacity := by
  cases body with
  | finishRow => exact Nat.le_of_ble_eq_true rfl
  | halt => exact Nat.le_of_ble_eq_true rfl
  | run instruction =>
      have hencode := instruction.length_encode_le
      have hcount : (if counting then 3 else 0) ≤ 3 := by cases counting <;> simp
      simp only [Cell.Body.length, StubOp.length, Cell.capacity]
      omega

/-- Alignment rounds up to a multiple of thirty-two bytes. -/
theorem alignToCell_eq (n : Nat) : alignToCell n = 32 * ((n + 31) / 32) := Nat.mul_comm _ _

/-- After a cell that starts on a multiple of 32 bytes, the next one starts 32 bytes further on. -/
theorem alignToCell_add {m size : Nat} (hpos : 0 < size) (hle : size ≤ 32) :
    alignToCell (32 * m + size) = 32 * (m + 1) := by
  unfold alignToCell
  omega

namespace ThreadedCode

/-- The cell of a body in a table that starts at an offset. -/
def cellOf (layout : Layout) (counting : Bool) (table position : Nat) (body : Cell.Body) : Cell where
  start := table + 32 * position
  size := body.length layout counting
  body := body

/-- Laying out cells one after the other gives each its multiple of 32 bytes. -/
theorem foldlM_placeCell (layout : Layout) (counting : Bool) (m : Nat) (bodies : List Cell.Body)
    (cells : Array Cell) :
    bodies.foldlM (placeCell layout counting) (cells, 32 * m + 32 * cells.size) =
      .ok (cells ++ (bodies.mapIdx fun i body =>
          cellOf layout counting (32 * m) (cells.size + i) body).toArray,
        32 * m + 32 * (cells.size + bodies.length)) := by
  induction bodies generalizing cells with
  | nil => simp [pure, Except.pure]
  | cons body rest ih =>
      have hpos := body.length_pos layout counting
      have hle := body.length_le_capacity layout counting
      have hnext : alignToCell (32 * m + 32 * cells.size + body.length layout counting) =
          32 * m + 32 * (cells.size + 1) := by
        rw [← Nat.mul_add, alignToCell_add hpos hle, Nat.add_assoc, Nat.mul_add]
      have hplace : placeCell layout counting (cells, 32 * m + 32 * cells.size) body =
          .ok (cells.push (cellOf layout counting (32 * m) cells.size body),
            32 * m + 32 * (cells.size + 1)) := by
        unfold placeCell
        simp only [hnext]
        rw [if_neg (Nat.not_lt.mpr hle)]
        rfl
      have hrest := ih (cells.push (cellOf layout counting (32 * m) cells.size body))
      rw [Array.size_push] at hrest
      rw [List.foldlM_cons, hplace]
      show List.foldlM _ _ rest = _
      rw [hrest]
      congr 2
      · rw [List.mapIdx_cons]
        simp [Nat.add_assoc, Nat.add_comm 1]
      · rw [List.length_cons]
        omega

/-- No operation of a stub takes more than twenty-eight bytes. -/
theorem length_stubOp_le (l : Layout) (op : StubOp) : op.length l ≤ 28 := by
  cases op with
  | loadColumn =>
      simp only [StubOp.length]
      split
      · omega
      · split <;> omega
  | storeOutput =>
      simp only [StubOp.length]
      split
      · omega
      · split <;> omega
  | _ => simp [StubOp.length]

/-- The code around the cells takes at most a thousand bytes. -/
theorem stubSize_le {l : Layout} (h : l.Accepted) (programSize : Nat) :
    stubSize l programSize ≤ 1000 := by
  have hsum : ∀ (ops : List StubOp) (n : Nat),
      ops.foldl (fun n op => n + op.length l) n ≤ n + 28 * ops.length := by
    intro ops
    induction ops with
    | nil => simp
    | cons op rest ih =>
        intro n
        have hop := length_stubOp_le l op
        have hrest := ih (n + op.length l)
        rw [List.foldl_cons, List.length_cons]
        omega
  have harity := h.arity_le
  unfold stubSize
  refine (hsum _ 0).trans ?_
  simp only [entryOps, endOps, againOps, nextOps, Layout.loadOps, Layout.storeOps,
    List.length_append, List.length_cons, List.length_nil, List.length_map, List.length_range]
  omega

/-- What code emitted for a catalog promises. -/
structure CodeFor (catalog : Catalog) (c : ThreadedCode) : Prop where
  element_eq : catalog.element = c.layout.element
  vectorized_eq : catalog.vectorized = c.layout.isVectorized
  programSize_pos : 0 < c.programSize
  rows_lt : c.layout.rows < 0x80000000
  rewind_lt : c.programSize * 2 < 0x80000000
  opcodeCount_eq : c.opcodeCount = catalog.opcodeCount
  cellAt_target : ∀ opcode : Opcode, opcode.toNat < catalog.opcodeCount →
    ∃ cell, c.cellAt? (c.target opcode) = some cell ∧
      (bodies catalog)[opcode.toNat]? = some cell.body

/-- There is one cell for every opcode. -/
theorem length_bodies (catalog : Catalog) : (bodies catalog).length = catalog.opcodeCount := by
  simp [bodies, Catalog.opcodeCount, Catalog.size]

/-- The cell of an opcode has the body that the catalog gives it. -/
theorem CodeFor.exists_cell {catalog : Catalog} {c : ThreadedCode} (h : c.CodeFor catalog)
    {opcode : Opcode} {body : Cell.Body} (hbody : (bodies catalog)[opcode.toNat]? = some body) :
    ∃ cell, c.cellAt? (c.target opcode) = some cell ∧ cell.body = body := by
  have hknown : opcode.toNat < catalog.opcodeCount := by
    rw [← length_bodies]
    exact (List.getElem?_eq_some_iff.mp hbody).1
  obtain ⟨cell, hcell, hat⟩ := h.cellAt_target opcode hknown
  rw [hbody] at hat
  exact ⟨cell, hcell, (Option.some.inj hat).symm⟩

/-- The address that dispatch computes for an opcode. -/
theorem toNat_target (c : ThreadedCode) (opcode : Opcode) (htable : c.table < 0x80000000) :
    (c.target opcode).toNat = c.table + 32 * opcode.toNat := by
  have hopcode : opcode.toNat < 2 ^ 16 := opcode.toNat_lt
  have hshift : ((opcode.toBitVec.setWidth 32) <<< 5).toNat = 32 * opcode.toNat := by
    rw [BitVec.toNat_shiftLeft, BitVec.toNat_setWidth, Nat.shiftLeft_eq]
    show opcode.toNat % 2 ^ 32 * 2 ^ 5 % 2 ^ 32 = _
    omega
  unfold target
  rw [BitVec.toNat_add, BitVec.toNat_setWidth, hshift, BitVec.toNat_ofNat]
  omega

/-- What is emitted when nothing is turned down: all cells in their places. -/
def emitted (catalog : Catalog) (layout : Layout) (programSize : Nat) (counting : Bool) :
    ThreadedCode :=
  let table := alignToCell (stubSize layout programSize)
  { layout, programSize, counting, table
    cells := ((bodies catalog).mapIdx (cellOf layout counting table)).toArray
    codeSize := table + 32 * catalog.opcodeCount }

/-- Emission is turned down for what is asked for, and never for the size of a cell. -/
theorem create_eq (catalog : Catalog) (layout : Layout) (programSize : Nat) (counting : Bool) :
    create catalog layout programSize counting =
      if catalog.element ≠ layout.element ∨ catalog.vectorized ≠ layout.isVectorized then
        refuse .layoutMismatch
      else if programSize = 0 then refuse (.zero .programSize)
      else if !fitsDisplacement layout.rows ∨ !fitsDisplacement layout.outputProgramStride then
        refuse .regionTooLarge
      else Layout.checkSize (programSize * 2)
        (.ok (emitted catalog layout programSize counting)) := by
  have hcells : (bodies catalog).foldlM (placeCell layout counting)
      (#[], alignToCell (stubSize layout programSize)) =
      .ok ((emitted catalog layout programSize counting).cells,
        (emitted catalog layout programSize counting).codeSize) := by
    have hplaced := foldlM_placeCell layout counting ((stubSize layout programSize + 31) / 32)
      (bodies catalog) #[]
    simp only [List.size_toArray, List.length_nil, Nat.mul_zero, Nat.add_zero, Nat.zero_add,
      length_bodies] at hplaced
    unfold emitted
    rw [alignToCell_eq, hplaced]
    simp
  unfold create
  simp only [hcells, ← Layout.checkSize_eq]
  rfl

/-- Code is created when catalog and layout go together and all displacements are in range, and it
is then the code that was emitted. -/
theorem create_eq_ok_iff {catalog : Catalog} {layout : Layout} {programSize : Nat} {counting : Bool}
    {c : ThreadedCode} : create catalog layout programSize counting = .ok c ↔
      ((catalog.element = layout.element ∧ catalog.vectorized = layout.isVectorized) ∧
        0 < programSize ∧
        (layout.rows < 0x80000000 ∧ layout.outputProgramStride < 0x80000000) ∧
        programSize * 2 < 0x80000000) ∧ c = emitted catalog layout programSize counting := by
  rw [create_eq]
  by_cases hmatch : catalog.element = layout.element ∧ catalog.vectorized = layout.isVectorized
  · rw [if_neg (by rw [hmatch.1, hmatch.2]; simp)]
    by_cases hsize : programSize = 0
    · simp [hsize, refuse]
    · rw [if_neg hsize]
      by_cases hfits : layout.rows < 0x80000000 ∧ layout.outputProgramStride < 0x80000000
      · rw [if_neg (by simp [fitsDisplacement, hfits.1, hfits.2]), Layout.checkSize_eq_ok_iff]
        simp [hmatch.1, hmatch.2, hfits.1, hfits.2, Nat.pos_of_ne_zero hsize, eq_comm]
      · rw [if_pos (by simpa [fitsDisplacement, or_iff_not_imp_left] using hfits)]
        simp [refuse, hfits]
  · rw [if_pos (by rwa [ne_eq, ne_eq, ← not_and_or])]
    simp [refuse, hmatch]

/-- The table starts soon after the code around programs. -/
theorem table_emitted_le {layout : Layout} (h : layout.Accepted) (catalog : Catalog)
    (programSize : Nat) (counting : Bool) :
    (emitted catalog layout programSize counting).table ≤ 1024 := by
  have hstub := stubSize_le h programSize
  show alignToCell (stubSize layout programSize) ≤ 1024
  unfold alignToCell
  omega

/-- Each cell of the code is made from its body, at its place in the table. -/
theorem getElem?_emitted (catalog : Catalog) (layout : Layout) (programSize : Nat) (counting : Bool)
    (n : Nat) : (emitted catalog layout programSize counting).cells[n]? =
      ((bodies catalog)[n]?).map
        (cellOf layout counting (emitted catalog layout programSize counting).table n) := by
  simp [emitted]

/-- Dispatch finds the cell that stands at the place of an opcode. -/
theorem cellAt?_target {c : ThreadedCode} {opcode : Opcode} {cell : Cell}
    (htable : c.table < 0x80000000) (hcell : c.cells[opcode.toNat]? = some cell)
    (hstart : cell.start = c.table + 32 * opcode.toNat) :
    c.cellAt? (c.target opcode) = some cell := by
  have hplace : (c.table + 32 * opcode.toNat - c.table) / Cell.capacity = opcode.toNat := by
    rw [Nat.add_sub_cancel_left]
    exact Nat.mul_div_cancel_left _ (Nat.succ_pos 31)
  unfold cellAt?
  simp only [toNat_target c opcode htable, hplace, hcell, hstart, if_true]

/-- Dispatch finds the cell of the body that stands at the place of an opcode. -/
theorem cellAt?_emitted {catalog : Catalog} {layout : Layout} (hlayout : layout.Accepted)
    {opcode : Opcode} {body : Cell.Body} (hbody : (bodies catalog)[opcode.toNat]? = some body)
    (programSize : Nat) (counting : Bool) :
    let c := emitted catalog layout programSize counting
    c.cellAt? (c.target opcode) = some (cellOf layout counting c.table opcode.toNat body) := by
  have htable := table_emitted_le hlayout catalog programSize counting
  refine cellAt?_target (by omega) ?_ rfl
  rw [getElem?_emitted, hbody, Option.map_some]

/-- The code has as many opcodes as its catalog. -/
theorem opcodeCount_emitted (catalog : Catalog) (layout : Layout) (programSize : Nat)
    (counting : Bool) :
    (emitted catalog layout programSize counting).opcodeCount = catalog.opcodeCount := by
  simp [opcodeCount, emitted, length_bodies]

/-- Code that could be emitted is code for its catalog. -/
theorem codeFor_of_create {catalog : Catalog} {layout : Layout} {programSize : Nat}
    {counting : Bool} {c : ThreadedCode} (hlayout : layout.Accepted)
    (h : create catalog layout programSize counting = .ok c) :
    c.CodeFor catalog ∧ c.layout = layout ∧ c.programSize = programSize ∧
      c.counting = counting := by
  obtain ⟨⟨⟨helement, hvectorized⟩, hsize, ⟨hrows, -⟩, hrewind⟩, rfl⟩ := create_eq_ok_iff.mp h
  refine ⟨?_, rfl, rfl, rfl⟩
  exact {
    element_eq := helement
    vectorized_eq := hvectorized
    programSize_pos := hsize
    rows_lt := hrows
    rewind_lt := hrewind
    opcodeCount_eq := opcodeCount_emitted catalog layout programSize counting
    cellAt_target := by
      intro opcode hopcode
      rw [← length_bodies] at hopcode
      have hbody := List.getElem?_eq_getElem hopcode
      exact ⟨_, cellAt?_emitted hlayout hbody programSize counting, hbody⟩ }

/-- What the cell of an opcode does. -/
def bodyAt? (catalog : Catalog) (opcode : Opcode) : Option Cell.Body :=
  if opcode = Opcode.END then some .finishRow
  else if opcode = Opcode.HALT then some .halt
  else (catalog.instruction? opcode).map .run

/-- The cell of an opcode has the body that belongs to the opcode. -/
theorem getElem?_bodies (catalog : Catalog) (opcode : Opcode) :
    (bodies catalog)[opcode.toNat]? = bodyAt? catalog opcode := by
  unfold bodyAt?
  by_cases hend : opcode = Opcode.END
  · rw [if_pos hend, hend]
    rfl
  · by_cases hhalt : opcode = Opcode.HALT
    · rw [if_neg hend, if_pos hhalt, hhalt]
      rfl
    · have hzero : opcode.toNat ≠ 0 := fun h => hend (UInt16.toNat_inj.mp h)
      have hone : opcode.toNat ≠ 1 := fun h => hhalt (UInt16.toNat_inj.mp h)
      have hregular : opcode.isSentinel = false := Opcode.isSentinel_eq_false_iff.mpr (by omega)
      have hplace : opcode.toNat = (opcode.toNat - 2) + 2 := by omega
      rw [if_neg hend, if_neg hhalt, Catalog.instruction?, hregular, if_neg Bool.false_ne_true]
      unfold bodies
      rw [hplace]
      simp

/-- The cell of an instruction runs it. -/
theorem body_of_instruction {catalog : Catalog} {opcode : Opcode} {instruction : Instruction}
    (h : catalog.instruction? opcode = some instruction) :
    (bodies catalog)[opcode.toNat]? = some (.run instruction) := by
  obtain ⟨n, hn, -⟩ := Catalog.instruction?_eq_some_iff.mp h
  have hend : opcode ≠ Opcode.END := by
    rintro rfl
    cases hn
  have hhalt : opcode ≠ Opcode.HALT := by
    rintro rfl
    cases hn
  rw [getElem?_bodies, bodyAt?, if_neg hend, if_neg hhalt, h, Option.map_some]

end ThreadedCode

end LinearGP
