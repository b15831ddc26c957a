import LinearGP.Proofs.ThreadedCode.Cells

/-!
# Where dispatch jumps

Dispatch shifts an opcode in a 32 bit register and adds the address of the table.  `Placed` says that
this is the start of the cell of the opcode, for all opcodes of a catalog and wherever the code was
loaded, and `create_places_cells` that emitted code is placed so.

Counting instructions makes the cell of every instruction three bytes longer, which its padding has
room for: the largest cell grows by three bytes, and the code does not grow.
-/

set_option autoImplicit false

namespace LinearGP

namespace ThreadedCode

/-- The address that dispatch jumps to for an opcode, when the code was loaded at `base`. -/
def targetFrom (c : ThreadedCode) (base : BitVec 64) (opcode : Opcode) : BitVec 64 :=
  ((opcode.toBitVec.setWidth 32) <<< 5).setWidth 64 + (base + BitVec.ofNat 64 c.table)

/-- Every opcode of a catalog has its cell where dispatch jumps. -/
structure Placed (catalog : Catalog) (layout : Layout) (counting : Bool) (c : ThreadedCode) :
    Prop where
  table_mod : c.table % 32 = 0
  opcodeCount_eq : c.opcodeCount = catalog.opcodeCount
  codeSize_eq : c.codeSize = c.table + 32 * catalog.opcodeCount
  size_le : ∀ cell ∈ c.cells, cell.size ≤ 32
  cell : ∀ opcode : Opcode, opcode.toNat < catalog.opcodeCount → ∃ cell,
    c.cells[opcode.toNat]? = some cell ∧ bodyAt? catalog opcode = some cell.body ∧
    cell.size = cell.body.length layout counting ∧ cell.start = c.table + 32 * opcode.toNat ∧
    c.cellAt? (c.target opcode) = some cell ∧
    ∀ base, c.targetFrom base opcode = base + BitVec.ofNat 64 cell.start

variable {catalog : Catalog} {layout : Layout} {programSize : Nat}

/-! ## Addresses -/

/-- Loading the code at an address moves all targets by it. -/
theorem targetFrom_eq (c : ThreadedCode) (base : BitVec 64) (opcode : Opcode) :
    c.targetFrom base opcode = base + c.target opcode := by
  unfold targetFrom target
  ac_rfl

/-- The cells that are emitted are where jumps find them. -/
theorem placed_emitted (hlayout : layout.Accepted) (catalog : Catalog) (programSize : Nat)
    (counting : Bool) :
    (emitted catalog layout programSize counting).Placed catalog layout counting where
  table_mod := Nat.mul_mod_left _ 32
  opcodeCount_eq := opcodeCount_emitted catalog layout programSize counting
  codeSize_eq := rfl
  size_le cell hmem := by
    obtain ⟨n, hcell⟩ := Array.mem_iff_getElem?.mp hmem
    rw [getElem?_emitted] at hcell
    obtain ⟨body, -, rfl⟩ := Option.map_eq_some_iff.mp hcell
    exact body.length_le_capacity layout counting
  cell opcode hopcode := by
    rw [← length_bodies] at hopcode
    have hbody := List.getElem?_eq_getElem hopcode
    have htable := table_emitted_le hlayout catalog programSize counting
    refine ⟨_, ?_, ?_, rfl, rfl, cellAt?_emitted hlayout hbody programSize counting, fun base => ?_⟩
    · rw [getElem?_emitted, hbody, Option.map_some]
    · rw [← getElem?_bodies]
      exact hbody
    · have htarget := toNat_target (emitted catalog layout programSize counting) opcode (by omega)
      show _ = base + BitVec.ofNat 64
        ((emitted catalog layout programSize counting).table + 32 * opcode.toNat)
      rw [targetFrom_eq, ← htarget, BitVec.ofNat_toNat, BitVec.setWidth_eq]

/-! ## Sizes -/

/-- The cell of an instruction counts, runs it, steps to the next slot and dispatches. -/
theorem length_run (layout : Layout) (counting : Bool) (i : Instruction) :
    (Cell.Body.run i).length layout counting = i.encode.length + if counting then 21 else 18 := by
  simp only [Cell.Body.length, StubOp.length]
  split <;> omega

/-- The greatest of numbers that all grow by the same amount grows by it. -/
private theorem foldl_max_add (k : Nat) (l : List Nat) (n : Nat) :
    (l.map (· + k)).foldl max (n + k) = l.foldl max n + k := by
  induction l generalizing n with
  | nil => rfl
  | cons m rest ih => rw [List.map_cons, List.foldl_cons, Nat.add_max_add_right, ih, List.foldl_cons]

/-- The cells have the sizes of their bodies. -/
theorem sizes_emitted (catalog : Catalog) (layout : Layout) (programSize : Nat) (counting : Bool) :
    (emitted catalog layout programSize counting).cells.toList.map (·.size) =
      (bodies catalog).map (·.length layout counting) := by
  refine List.ext_getElem? fun n => ?_
  rw [List.getElem?_map, Array.getElem?_toList, getElem?_emitted, Option.map_map,
    List.getElem?_map]
  rfl

/-- The largest cell is that of the longest instruction. -/
theorem largestCell_emitted (catalog : Catalog) (layout : Layout) (programSize : Nat)
    (counting : Bool) : (emitted catalog layout programSize counting).largestCell =
      (catalog.instructions.toList.map (·.encode.length)).foldl max 0 +
        if counting then 21 else 18 := by
  have hnonempty : catalog.instructions.toList ≠ [] :=
    List.ne_nil_of_length_pos catalog.size_pos
  obtain ⟨first, rest, hcons⟩ := List.exists_cons_of_ne_nil hnonempty
  -- the two sentinels are smaller than what any instruction adds
  have hseed : max 5 (first.encode.length + if counting then 21 else 18) =
      first.encode.length + if counting then 21 else 18 := by
    split <;> omega
  calc (emitted catalog layout programSize counting).largestCell
      = ((bodies catalog).map (·.length layout counting)).foldl max 0 := by
        rw [← sizes_emitted, List.foldl_map, Array.foldl_toList]
        rfl
    _ = ((rest.map (·.encode.length)).map (· + if counting then 21 else 18)).foldl max
          (max 5 (first.encode.length + if counting then 21 else 18)) := by
        simp only [bodies, hcons, List.cons_append, List.nil_append, List.map_cons, List.map_map,
          Function.comp_def, length_run, List.foldl_cons]
        rfl
    _ = _ := by rw [hseed, foldl_max_add, hcons, List.map_cons, List.foldl_cons, Nat.zero_max]

/-! ## Emission -/

/-- No instruction is too long for its cell. -/
theorem create_ne_cellOverflow (catalog : Catalog) (layout : Layout) (programSize : Nat)
    (counting : Bool) (opcode : Opcode) (size : Nat) :
    create catalog layout programSize counting ≠ refuse (.cellOverflow opcode size) := by
  rw [create_eq]
  unfold Layout.checkSize refuse breach
  split_ifs <;> simp

/-- A layout passes the checks of emission already, so that only the number of instructions in a
program is left to turn down. -/
theorem exists_create_iff (hlayout : layout.Accepted) (helement : catalog.element = layout.element)
    (hvectorized : catalog.vectorized = layout.isVectorized) (counting : Bool) :
    (∃ c, create catalog layout programSize counting = .ok c) ↔
      0 < programSize ∧ programSize * 2 < 0x80000000 := by
  constructor
  · rintro ⟨c, hc⟩
    obtain ⟨⟨-, hsize, -, hrewind⟩, -⟩ := create_eq_ok_iff.mp hc
    exact ⟨hsize, hrewind⟩
  · rintro ⟨hsize, hrewind⟩
    exact ⟨_, create_eq_ok_iff.mpr ⟨⟨⟨helement, hvectorized⟩, hsize,
      ⟨hlayout.rows_lt, hlayout.outputProgram_lt⟩, hrewind⟩, rfl⟩⟩

/-- No cell outgrows its padding, so emission is only turned down for the number of instructions in a
program.  Emitted code has the cell of every opcode where dispatch jumps.  Counting makes the largest
cell exactly three bytes longer, and the code no larger. -/
theorem create_places_cells {k : ElementKind} {rows arity lanes programs : Nat}
    (hlayout : Layout.ofDimensions k rows arity lanes programs = .ok layout) (catalog : Catalog)
    (helement : catalog.element = layout.element)
    (hvectorized : catalog.vectorized = layout.isVectorized) (programSize : Nat) :
    (∀ counting, (∀ opcode size,
        create catalog layout programSize counting ≠ refuse (.cellOverflow opcode size)) ∧
      ((∃ c, create catalog layout programSize counting = .ok c) ↔
        0 < programSize ∧ programSize * 2 < 0x80000000) ∧
      ∀ c, create catalog layout programSize counting = .ok c → c.Placed catalog layout counting) ∧
    ∀ plain counted, create catalog layout programSize false = .ok plain →
      create catalog layout programSize true = .ok counted →
      counted.largestCell = plain.largestCell + 3 ∧ counted.codeSize = plain.codeSize := by
  obtain ⟨-, haccepted⟩ := (Layout.ofDimensions_eq_ok_iff ..).mp hlayout
  refine ⟨fun counting => ⟨create_ne_cellOverflow catalog layout programSize counting,
    exists_create_iff haccepted helement hvectorized counting, fun c hc => ?_⟩,
    fun plain counted hplain hcounted => ?_⟩
  · obtain ⟨-, rfl⟩ := create_eq_ok_iff.mp hc
    exact placed_emitted haccepted catalog programSize counting
  · obtain ⟨-, rfl⟩ := create_eq_ok_iff.mp hplain
    obtain ⟨-, rfl⟩ := create_eq_ok_iff.mp hcounted
    exact ⟨by simp [largestCell_emitted], rfl⟩

/-- A guarded division leaves one byte of its cell when instructions are counted. -/
theorem create_places_cells_division :
    let catalog : Catalog :=
      ⟨#[.div .rsi true, .nop], .i64, false, Nat.two_pos, Nat.le_of_ble_eq_true rfl⟩
    let layout : Layout := { element := .i64, rows := 1, arity := 1, lanes := 1, programs := 1 }
    ∃ plain counted, create catalog layout 1 false = .ok plain ∧
      create catalog layout 1 true = .ok counted ∧ counted.Placed catalog layout true ∧
      plain.largestCell = 28 ∧ counted.largestCell = 31 ∧ counted.codeSize = plain.codeSize := by
  intro catalog layout
  have hlayout : Layout.ofDimensions .i64 1 1 1 1 = .ok layout := rfl
  obtain ⟨hcode, hcounting⟩ := create_places_cells hlayout catalog rfl rfl 1
  obtain ⟨-, ⟨-, hcreated⟩, hplaced⟩ := hcode true
  obtain ⟨counted, hcounted⟩ := hcreated ⟨Nat.one_pos, by decide⟩
  obtain ⟨plain, hplain, hlargest⟩ :
      ∃ plain, create catalog layout 1 false = .ok plain ∧ plain.largestCell = 28 := ⟨_, rfl, rfl⟩
  obtain ⟨hgrown, hsize⟩ := hcounting plain counted hplain hcounted
  exact ⟨plain, counted, hplain, hcounted, hplaced counted hcounted, hlargest,
    by rw [hgrown, hlargest], hsize⟩

end ThreadedCode

end LinearGP
