import Mathlib
import LinearGP.Proofs.ThreadedCode.Refinement

/-!
# What threaded code touches

The engine fetches opcodes, loads inputs and stores outputs, each at an address that it has computed
from immediates.  A `Touch` is one such access, or a multiplication that leads to one, and `touches`
tells those of an operation from the state it is executed in.

`Steps` follows a run jump by jump and collects what is touched on the way.  Nothing else is touched:
a run makes the same jumps on slots and inputs that only differ elsewhere (`Steps.of_alike`), and it
keeps the outputs elsewhere (`Steps.outputs_eq`).
-/

set_option autoImplicit false

namespace LinearGP

variable {k : ElementKind}

/-- An access of the engine to one of its regions, or a multiplication for the address of one. -/
inductive Touch where
  /-- The opcode at an address of the partition. -/
  | fetch (address : BitVec 64)
  /-- Bytes of the inputs, for a column of a row. -/
  | load (row : BitVec 64) (column : Nat) (address : BitVec 64) (bytes : Nat)
  /-- Bytes of the outputs. -/
  | store (address : BitVec 64) (bytes : Nat)
  /-- A row times a stride. -/
  | scale (row : BitVec 64) (stride : Nat)
deriving DecidableEq

namespace Touch

/-- A slot of the partition is fetched. -/
def fetches : Touch → Nat → Bool
  | fetch address, i => address.toNat = 2 * i
  | _, _ => false

/-- A byte of the inputs is loaded. -/
def loads : Touch → Nat → Bool
  | load _ _ address bytes, b => address.toNat ≤ b && b < address.toNat + bytes
  | _, _ => false

/-- A byte of the outputs is stored. -/
def stores : Touch → Nat → Bool
  | store address bytes, b => address.toNat ≤ b && b < address.toNat + bytes
  | _, _ => false

/-- Two regions of inputs hold the same elements where bytes are loaded. -/
def LoadsAlike (t : Touch) (inputs inputs' : Array k.Value) : Prop :=
  ∀ i, t.loads (i * k.size) = true → inputs[i]? = inputs'[i]?

/-- Two partitions hold the same opcodes where they are fetched. -/
def FetchesAlike (t : Touch) (slots slots' : Array Opcode) : Prop :=
  ∀ i, t.fetches i = true → slots[i]? = slots'[i]?

end Touch

/-! ## Single operations -/

/-- The elements from an aligned address on are those whose first byte is in the range. -/
theorem byte_mem_range_iff {size address count i : Nat} (hsize : 0 < size)
    (haligned : address % size = 0) :
    (address ≤ i * size ∧ i * size < address + count * size) ↔
      (address / size ≤ i ∧ i < address / size + count) := by
  obtain ⟨start, rfl⟩ := Nat.dvd_of_mod_eq_zero haligned
  rw [Nat.mul_div_cancel_left _ hsize, Nat.mul_comm size, ← Nat.add_mul]
  exact and_congr (Nat.mul_le_mul_right_iff hsize) (Nat.mul_lt_mul_right hsize)

namespace StubOp

/-- What an operation touches.  Operations on the state of the engine alone touch nothing. -/
def touches (l : Layout) : StubOp → Engine k → List Touch
  | scaleRow stride, e => [.scale e.row stride]
  | loadColumn column displacement, e =>
    [.load e.row column (e.scratch + immediate displacement) (l.lanes * k.size)]
  | storeOutput, e =>
    [.store (e.base + e.scratch) ((l.readOutput k e.registers).length * k.size)]
  | _, _ => []

/-- Only the inputs that an operation loads matter to it. -/
theorem exec_eq_of_loads (l : Layout) {inputs inputs' : Array k.Value}
    (hsize : inputs.size = inputs'.size) (op : StubOp) (e : Engine k)
    (hsame : ∀ t ∈ op.touches l e, t.LoadsAlike inputs inputs') :
    op.exec l inputs e = op.exec l inputs' e := by
  cases op with
  | loadColumn column displacement =>
      have hread : readRegion inputs (e.scratch + immediate displacement) l.lanes =
          readRegion inputs' (e.scratch + immediate displacement) l.lanes := by
        unfold readRegion
        simp only [hsize]
        split
        · next hin =>
          congr 1
          apply List.map_congr_left
          intro i hi
          have hi := List.mem_range.mp hi
          have hloaded := hsame _ (List.mem_singleton_self _)
            ((e.scratch + immediate displacement).toNat / k.size + i) (by
              simp only [Touch.loads, Bool.and_eq_true, decide_eq_true_eq]
              exact (byte_mem_range_iff k.size_pos hin.1).mpr ⟨Nat.le_add_right _ _, by omega⟩)
          rw [Array.getD_eq_getD_getElem?, Array.getD_eq_getD_getElem?, hloaded]
        · rfl
      simp only [exec, hread]
  | _ => rfl

/-- An operation keeps the outputs that it does not store. -/
theorem outputs_eq_of_exec {l : Layout} {inputs : Array k.Value} {op : StubOp} {e e' : Engine k}
    (hexec : op.exec l inputs e = .ok e') {i : Nat}
    (hkept : ∀ t ∈ op.touches l e, t.stores (i * k.size) = false) : e'.outputs[i]? = e.outputs[i]? := by
  cases op with
  | storeOutput =>
      obtain ⟨outputs, hwrite, hnext⟩ := bind_eq_ok_iff.mp hexec
      cases hnext
      unfold writeRegion at hwrite
      simp only at hwrite
      split at hwrite
      · next hin =>
        injection hwrite with hwrite
        have hout := hkept _ (List.mem_singleton_self _)
        simp only [Touch.stores, Bool.and_eq_false_iff, decide_eq_false_iff_not] at hout
        rw [← hwrite, getElem?_writeAll _ _ _ _ hin.2, if_neg]
        intro hstored
        obtain ⟨hle, hlt⟩ := (byte_mem_range_iff k.size_pos hin.1).mpr hstored
        rcases hout with hout | hout
        · exact hout hle
        · exact hout hlt
      · simp [breach] at hwrite
  | loadColumn column displacement =>
      obtain ⟨values, -, hnext⟩ := bind_eq_ok_iff.mp hexec
      cases hnext
      rfl
  | _ =>
      cases hexec
      rfl

end StubOp

/-! ## Operations in sequence -/

namespace StubOp

/-- What operations touch one after the other, as far as they succeed. -/
def touchesAll (l : Layout) (inputs : Array k.Value) : List StubOp → Engine k → List Touch
  | [], _ => []
  | op :: ops, e => op.touches l e ++
    match op.exec l inputs e with
    | .ok next => touchesAll l inputs ops next
    | .error _ => []

variable {l : Layout} {inputs : Array k.Value}

/-- An operation that succeeds adds its touches in front of those of the rest. -/
theorem touchesAll_cons_of_ok {op : StubOp} {e next : Engine k}
    (hexec : op.exec l inputs e = .ok next) (ops : List StubOp) :
    touchesAll l inputs (op :: ops) e = op.touches l e ++ touchesAll l inputs ops next := by
  rw [touchesAll, hexec]

/-- Operations that touch nothing themselves add nothing at the end. -/
theorem touchesAll_append_of_nil {ops last : List StubOp}
    (hlast : ∀ e : Engine k, touchesAll l inputs last e = []) (e : Engine k) :
    touchesAll l inputs (ops ++ last) e = touchesAll l inputs ops e := by
  induction ops generalizing e with
  | nil => exact hlast e
  | cons op ops ih =>
      rw [List.cons_append, touchesAll, touchesAll]
      cases op.exec l inputs e with
      | ok next => simp only [ih]
      | error failure => rfl

/-- Only the inputs that operations load matter to them. -/
theorem execAll_eq_of_loads {inputs' : Array k.Value} (hsize : inputs.size = inputs'.size)
    (ops : List StubOp) (e : Engine k)
    (hsame : ∀ t ∈ touchesAll l inputs ops e, t.LoadsAlike inputs inputs') :
    execAll l inputs ops e = execAll l inputs' ops e ∧
      touchesAll l inputs ops e = touchesAll l inputs' ops e := by
  induction ops generalizing e with
  | nil => exact ⟨rfl, rfl⟩
  | cons op ops ih =>
      have hfirst : op.exec l inputs e = op.exec l inputs' e :=
        exec_eq_of_loads l hsize op e fun t ht => hsame t (List.mem_append_left _ ht)
      rw [execAll_cons, execAll_cons, touchesAll, touchesAll, ← hfirst]
      cases hexec : op.exec l inputs e with
      | error failure => exact ⟨rfl, rfl⟩
      | ok next =>
          obtain ⟨hends, htouches⟩ := ih next fun t ht => hsame t (by
            rw [touchesAll_cons_of_ok hexec]
            exact List.mem_append_right _ ht)
          exact ⟨hends, by simp only [htouches]⟩

/-- Operations keep the outputs that they do not store. -/
theorem outputs_eq_of_execAll {ops : List StubOp} {e e' : Engine k}
    (hexec : execAll l inputs ops e = .ok e') {i : Nat}
    (hkept : ∀ t ∈ touchesAll l inputs ops e, t.stores (i * k.size) = false) :
    e'.outputs[i]? = e.outputs[i]? := by
  induction ops generalizing e with
  | nil =>
      cases hexec
      rfl
  | cons op ops ih =>
      rw [execAll_cons] at hexec
      obtain ⟨next, hfirst, hrest⟩ := bind_eq_ok_iff.mp hexec
      rw [touchesAll_cons_of_ok hfirst] at hkept
      have hnext := outputs_eq_of_exec hfirst fun t ht => hkept t (List.mem_append_left _ ht)
      rw [ih hrest fun t ht => hkept t (List.mem_append_right _ ht), hnext]

/-- Going on to the next slot touches nothing by itself, as the fetch is counted apart. -/
theorem touchesAll_nextSlot (e : Engine k) :
    touchesAll l inputs [.nextSlot, .dispatch] e = [] := rfl

/-- Dispatching touches nothing by itself. -/
theorem touchesAll_dispatch (e : Engine k) : touchesAll l inputs [.dispatch] e = [] := rfl

/-- Turning to the next row touches nothing. -/
theorem touchesAll_nextRow (e : Engine k) :
    touchesAll l inputs [.nextRow, .branchOnRow] e = [] := rfl

end StubOp

namespace Layout

/-- What loading a row touches. -/
def loadTouches (l : Layout) (row : Nat) : List Touch :=
  .scale (BitVec.ofNat 64 row) l.inputRowStride ::
    (List.range l.arity).map fun column => .load (BitVec.ofNat 64 row) column
      (BitVec.ofNat 64 (row * l.inputRowStride + column * l.columnStride)) l.columnStride

/-- What storing the outputs of a program for a row touches. -/
def storeTouches (l : Layout) (program row : Nat) : List Touch :=
  [.scale (BitVec.ofNat 64 row) l.outputRowStride,
    .store (BitVec.ofNat 64 (program * l.outputProgramStride + row * l.outputRowStride))
      l.outputRowStride]

variable {l : Layout}

/-- A column starts at a displacement in its row. -/
theorem Accepted.displacement_lt (h : l.Accepted) {column : Nat} (hcolumn : column < l.arity) :
    column * l.columnStride < 0x80000000 := by
  have hle : column * l.columnStride ≤ l.inputRowStride := Nat.mul_le_mul_right _ hcolumn.le
  have hrow := h.inputRow_lt
  omega

/-- The outputs of a row are within the reach of a signed displacement. -/
theorem Accepted.outputRow_lt (h : l.Accepted) : l.outputRowStride < 0x80000000 := by
  have hle : 1 * l.outputRowStride ≤ l.rows * l.outputRowStride :=
    Nat.mul_le_mul_right _ h.rows_pos
  have hprogram := h.outputProgram_lt
  unfold outputProgramStride at hprogram
  omega

/-- Loading columns touches them one after the other. -/
theorem touchesAll_loadColumns (h : l.Accepted) (hk : l.element = k) (inputs : Array k.Value)
    (hsize : inputs.size = l.inputLength) {row : Nat} (hrow : row < l.rows) (columns : List Nat)
    (hcolumns : ∀ column ∈ columns, column < l.arity) (e : Engine k)
    (he : e.row = BitVec.ofNat 64 row)
    (hscratch : e.scratch = BitVec.ofNat 64 (row * l.inputRowStride)) :
    StubOp.touchesAll l inputs
        (columns.map fun column => .loadColumn column (column * l.columnStride)) e =
      columns.map fun column => .load (BitVec.ofNat 64 row) column
        (BitVec.ofNat 64 (row * l.inputRowStride + column * l.columnStride)) l.columnStride := by
  induction columns generalizing e with
  | nil => rfl
  | cons column rest ih =>
      have hcolumn := hcolumns column List.mem_cons_self
      have hread := readRegion_column h hk inputs hsize hrow hcolumn
      have hexec : StubOp.exec l inputs (.loadColumn column (column * l.columnStride)) e = .ok { e with
          registers := l.loadColumn column (l.columnValues inputs row column) e.registers } := by
        simp only [StubOp.exec, hscratch, hread]
        rfl
      have haddress : e.scratch + immediate (column * l.columnStride) =
          BitVec.ofNat 64 (row * l.inputRowStride + column * l.columnStride) := by
        rw [hscratch, immediate_eq (h.displacement_lt hcolumn), ← BitVec.ofNat_add]
      have hbytes : l.lanes * k.size = l.columnStride := by rw [columnStride, hk]
      have hrest := ih (fun c hc => hcolumns c (List.mem_cons_of_mem _ hc)) { e with
        registers := l.loadColumn column (l.columnValues inputs row column) e.registers } he hscratch
      rw [List.map_cons, StubOp.touchesAll_cons_of_ok hexec, hrest, StubOp.touches, he, haddress,
        hbytes]
      rfl

/-- Loading a row touches its columns. -/
theorem touchesAll_loadOps (h : l.Accepted) (hk : l.element = k) (inputs : Array k.Value)
    (hsize : inputs.size = l.inputLength) {row : Nat} (hrow : row < l.rows) (e : Engine k)
    (he : e.row = BitVec.ofNat 64 row) :
    StubOp.touchesAll l inputs l.loadOps e = l.loadTouches row := by
  have hscale : e.row * immediate l.inputRowStride = BitVec.ofNat 64 (row * l.inputRowStride) := by
    rw [he, immediate_eq h.inputRow_lt, ← BitVec.ofNat_mul]
  have hcolumns := touchesAll_loadColumns h hk inputs hsize hrow (List.range l.arity)
    (fun column hc => List.mem_range.mp hc)
    { e with scratch := e.row * immediate l.inputRowStride, registers := .cleared } he hscale
  rw [loadTouches, ← hcolumns, ← he]
  rfl

/-- Storing the output of a row touches its place. -/
theorem touchesAll_storeOps (h : l.Accepted) (hk : l.element = k) (inputs : Array k.Value)
    {program row : Nat} (e : Engine k) (he : e.row = BitVec.ofNat 64 row)
    (hbase : e.base = BitVec.ofNat 64 (program * l.outputProgramStride)) :
    StubOp.touchesAll l inputs l.storeOps e = l.storeTouches program row := by
  have haddress : e.base + e.row * immediate l.outputRowStride =
      BitVec.ofNat 64 (program * l.outputProgramStride + row * l.outputRowStride) := by
    rw [hbase, he, immediate_eq h.outputRow_lt, ← BitVec.ofNat_mul, ← BitVec.ofNat_add]
  have hbytes : (l.readOutput k e.registers).length * k.size = l.outputRowStride := by
    rw [length_readOutput h, outputRowStride, hk]
  have hlog : StubOp.touchesAll l inputs l.storeOps e = [.scale e.row l.outputRowStride,
      .store (e.base + e.row * immediate l.outputRowStride)
        ((l.readOutput k e.registers).length * k.size)] := by
    simp only [storeOps, StubOp.touchesAll, StubOp.exec, StubOp.touches, List.cons_append,
      List.nil_append]
    split <;> rfl
  rw [hlog, haddress, hbytes, he, storeTouches]

end Layout

/-! ## Jumps -/

namespace ThreadedCode

variable {catalog : Catalog} {c : ThreadedCode}

/-- What runs after the output of a row is stored. -/
def turnOps (c : ThreadedCode) (e : Engine k) : List StubOp :=
  if e.row.ult (immediate c.layout.rows) then againOps c.layout c.programSize else nextOps c.layout

/-- A row is finished by storing its output and turning to what comes next. -/
theorem finishRow_eq_bind (c : ThreadedCode) (inputs : Array k.Value) (e : Engine k) :
    c.finishRow inputs e = StubOp.execAll c.layout inputs (endOps c.layout) e >>= fun e =>
      StubOp.execAll c.layout inputs (c.turnOps e) e := by
  unfold finishRow turnOps
  congr 1
  funext e
  split <;> rfl

/-- What the cell of `END` touches. -/
def finishRowTouches (c : ThreadedCode) (inputs : Array k.Value) (e : Engine k) : List Touch :=
  StubOp.touchesAll c.layout inputs (endOps c.layout) e ++
    match StubOp.execAll c.layout inputs (endOps c.layout) e with
    | .error _ => []
    | .ok e => StubOp.touchesAll c.layout inputs (c.turnOps e) e

/-- What a jump touches: the opcode it fetches, and what the cell of the opcode does.  Instructions work
on registers alone. -/
def dispatchTouches (c : ThreadedCode) (slots : Array Opcode) (inputs : Array k.Value)
    (e : Engine k) : List Touch :=
  .fetch e.slot ::
    match fetch slots e.slot with
    | .error _ => []
    | .ok opcode =>
      match (c.cellAt? (c.target opcode)).map Cell.body with
      | some .finishRow => c.finishRowTouches inputs e
      | some (.run _) => StubOp.touchesAll c.layout inputs [.nextSlot, .dispatch] e
      | some .halt => []
      | none => []

/-- Instructions do not see the inputs. -/
theorem runInstruction_eq (c : ThreadedCode) (inputs inputs' : Array k.Value)
    (instruction : Instruction) (e : Engine k) :
    c.runInstruction inputs instruction e = c.runInstruction inputs' instruction e := by
  unfold runInstruction
  cases instruction.exec e.registers <;> rfl

/-- Inputs that agree where they are loaded finish a row alike. -/
theorem finishRow_eq_of_loads (c : ThreadedCode) {inputs inputs' : Array k.Value}
    (hsize : inputs.size = inputs'.size) (e : Engine k)
    (hsame : ∀ t ∈ c.finishRowTouches inputs e, t.LoadsAlike inputs inputs') :
    c.finishRow inputs e = c.finishRow inputs' e ∧
      c.finishRowTouches inputs e = c.finishRowTouches inputs' e := by
  unfold finishRowTouches at *
  rw [List.forall_mem_append] at hsame
  obtain ⟨hstored, hstores⟩ := StubOp.execAll_eq_of_loads hsize (endOps c.layout) e hsame.1
  rw [finishRow_eq_bind, finishRow_eq_bind, ← hstored, ← hstores]
  cases hexec : StubOp.execAll c.layout inputs (endOps c.layout) e with
  | error failure => simp only [bind, Except.bind, and_self]
  | ok next =>
      rw [hexec] at hsame
      obtain ⟨hends, htouches⟩ := StubOp.execAll_eq_of_loads hsize (c.turnOps next) next hsame.2
      exact ⟨hends, by simp only [htouches]⟩

/-- Finishing a row keeps every output that it does not store to. -/
theorem outputs_eq_of_finishRow {inputs : Array k.Value} {e last : Engine k}
    (hrow : c.finishRow inputs e = .ok last) {i : Nat}
    (hkept : ∀ t ∈ c.finishRowTouches inputs e, t.stores (i * k.size) = false) :
    last.outputs[i]? = e.outputs[i]? := by
  rw [finishRow_eq_bind] at hrow
  obtain ⟨next, hstore, hload⟩ := bind_eq_ok_iff.mp hrow
  unfold finishRowTouches at hkept
  rw [hstore, List.forall_mem_append] at hkept
  rw [StubOp.outputs_eq_of_execAll hload hkept.2, StubOp.outputs_eq_of_execAll hstore hkept.1]

/-- Only the slots that a jump fetches and the inputs that it loads matter to it. -/
theorem dispatch_eq_of_alike (c : ThreadedCode) {slots slots' : Array Opcode}
    {inputs inputs' : Array k.Value} (hsize : inputs.size = inputs'.size) (e : Engine k)
    (hslots : ∀ t ∈ c.dispatchTouches slots inputs e, t.FetchesAlike slots slots')
    (hinputs : ∀ t ∈ c.dispatchTouches slots inputs e, t.LoadsAlike inputs inputs') :
    c.dispatch slots inputs e = c.dispatch slots' inputs' e ∧
      c.dispatchTouches slots inputs e = c.dispatchTouches slots' inputs' e := by
  have hfetch : fetch slots e.slot = fetch slots' e.slot := by
    unfold fetch
    split
    · next heven =>
      have hfetched : (Touch.fetch e.slot).fetches (e.slot.toNat / 2) = true :=
        decide_eq_true (Nat.mul_div_cancel' (Nat.dvd_of_mod_eq_zero heven)).symm
      rw [hslots _ List.mem_cons_self _ hfetched]
    · rfl
  clear hslots
  unfold dispatchTouches at hinputs
  unfold dispatch dispatchTouches
  rw [← hfetch]
  cases hopcode : fetch slots e.slot with
  | error failure => simp only [bind, Except.bind, and_self]
  | ok opcode =>
      simp only [hopcode, bind, Except.bind] at hinputs ⊢
      cases hcell : c.cellAt? (c.target opcode) with
      | none => simp only [Option.map_none, and_self]
      | some cell =>
          simp only [hcell, Option.map_some] at hinputs ⊢
          cases hbody : cell.body with
          | halt => simp only [and_self]
          | finishRow =>
              simp only [hbody] at hinputs
              obtain ⟨hends, htouches⟩ := finishRow_eq_of_loads c hsize e fun t ht =>
                hinputs t (List.mem_cons_of_mem _ ht)
              simp only [hends, htouches, and_self]
          | run instruction =>
              simp only [runInstruction_eq c inputs inputs' instruction e,
                StubOp.touchesAll_nextSlot, and_self]

/-- A jump keeps the outputs that it does not store. -/
theorem outputs_eq_of_dispatch {slots : Array Opcode} {inputs : Array k.Value} {e next : Engine k}
    (hjump : c.dispatch slots inputs e = .ok (.running next)) {i : Nat}
    (hkept : ∀ t ∈ c.dispatchTouches slots inputs e, t.stores (i * k.size) = false) :
    next.outputs[i]? = e.outputs[i]? := by
  unfold dispatch at hjump
  obtain ⟨opcode, hopcode, hcell⟩ := bind_eq_ok_iff.mp hjump
  cases hat : c.cellAt? (c.target opcode) with
  | none => simp [hat, breach] at hcell
  | some cell =>
      simp only [hat] at hcell
      cases hbody : cell.body with
      | halt => simp [hbody, pure, Except.pure] at hcell
      | finishRow =>
          simp only [hbody] at hcell
          obtain ⟨last, hrow, hlast⟩ := bind_eq_ok_iff.mp hcell
          cases hlast
          refine outputs_eq_of_finishRow hrow fun t ht => hkept t ?_
          unfold dispatchTouches
          simp only [hopcode, hat, hbody, Option.map_some]
          exact List.mem_cons_of_mem _ ht
      | run instruction =>
          simp only [hbody] at hcell
          obtain ⟨last, hrun, hlast⟩ := bind_eq_ok_iff.mp hcell
          cases hlast
          unfold runInstruction at hrun
          cases hexec : instruction.exec e.registers with
          | none => simp [hexec, breach] at hrun
          | some registers =>
              simp only [hexec] at hrun
              refine StubOp.outputs_eq_of_execAll hrun fun t ht => ?_
              rw [StubOp.touchesAll_nextSlot] at ht
              exact absurd ht List.not_mem_nil

/-- What is touched on entry. -/
def entryTouches (c : ThreadedCode) (inputs outputs : Array k.Value) : List Touch :=
  StubOp.touchesAll c.layout inputs (entryOps c.layout)
    ({ slot := 0, base := 0, row := 0, scratch := 0, count := 0, registers := .cleared, outputs } :
      Engine k)

/-- Dispatching an instruction touches nothing but its slot. -/
theorem dispatchTouches_instruction (hc : c.CodeFor catalog) {slots : Array Opcode}
    (inputs : Array k.Value) {e : Engine k} {i : Nat} {opcode : Opcode} {instruction : Instruction}
    (hslot : e.slot = BitVec.ofNat 64 (2 * i)) (hword : 2 * i < 0x10000000000000000)
    (hopcode : slots[i]? = some opcode)
    (hinstruction : catalog.instruction? opcode = some instruction) :
    c.dispatchTouches slots inputs e = [.fetch (BitVec.ofNat 64 (2 * i))] := by
  obtain ⟨cell, hcell, hbody⟩ := hc.exists_cell (body_of_instruction hinstruction)
  unfold dispatchTouches
  simp only [hslot, fetch_ofNat hword hopcode, hcell, Option.map_some, hbody]
  rfl

/-- Dispatching the sentinel of a partition touches nothing but its slot. -/
theorem dispatchTouches_halt (hc : c.CodeFor catalog) {slots : Array Opcode}
    (inputs : Array k.Value) {e : Engine k} {i : Nat} (hslot : e.slot = BitVec.ofNat 64 (2 * i))
    (hword : 2 * i < 0x10000000000000000) (hopcode : slots[i]? = some Opcode.HALT) :
    c.dispatchTouches slots inputs e = [.fetch (BitVec.ofNat 64 (2 * i))] := by
  obtain ⟨cell, hcell, hbody⟩ := hc.exists_cell (show (bodies catalog)[Opcode.HALT.toNat]? =
    some .halt from rfl)
  unfold dispatchTouches
  simp only [hslot, fetch_ofNat hword hopcode, hcell, Option.map_some, hbody]

/-- The row that is loaded when a program has run on a row: the next one, or the first one for the next
program. -/
def rowAfter (l : Layout) (row : Nat) : Nat := if row + 1 < l.rows then row + 1 else 0

/-- A row is loaded before every jump that starts a program. -/
theorem touchesAll_load {inputs : Array k.Value} (h : Ready catalog c inputs) {row : Nat}
    (hrow : row < c.layout.rows) (e : Engine k) (he : e.row = BitVec.ofNat 64 row) :
    StubOp.touchesAll c.layout inputs (c.layout.loadOps ++ [.dispatch]) e =
      c.layout.loadTouches row :=
  (StubOp.touchesAll_append_of_nil StubOp.touchesAll_dispatch e).trans
    (Layout.touchesAll_loadOps h.accepted h.element_eq inputs h.input_size hrow e he)

/-- Finishing a row touches its output and the inputs of the row that comes next. -/
theorem finishRowTouches_eq {inputs : Array k.Value} (h : Ready catalog c inputs)
    {programs program row : Nat} (hprogram : program < programs) (hrow : row < c.layout.rows)
    {e : Engine k} (hbase : e.base = BitVec.ofNat 64 (program * c.layout.outputProgramStride))
    (he : e.row = BitVec.ofNat 64 row) (hslice : c.Slice programs e.outputs) :
    c.finishRowTouches inputs e =
      c.layout.storeTouches program row ++ c.layout.loadTouches (rowAfter c.layout row) := by
  have hstore : StubOp.touchesAll c.layout inputs (endOps c.layout) e =
      c.layout.storeTouches program row :=
    (StubOp.touchesAll_append_of_nil StubOp.touchesAll_nextRow e).trans
      (Layout.touchesAll_storeOps h.accepted h.element_eq inputs e he hbase)
  unfold finishRowTouches turnOps rowAfter
  rw [hstore, execAll_endOps h hprogram hrow hbase he hslice]
  simp only [ult_rows h.code hrow, decide_eq_true_eq]
  congr 1
  split
  · next hleft => exact touchesAll_load h hleft _ rfl
  · exact touchesAll_load h h.accepted.rows_pos _ rfl

/-- Dispatching the sentinel of a program touches its slot, the output of the row and the inputs of
the row that comes next. -/
theorem dispatchTouches_end {inputs : Array k.Value} (h : Ready catalog c inputs)
    {slots : Array Opcode} {programs program row : Nat} (hprogram : program < programs)
    (hrow : row < c.layout.rows) {e : Engine k} {i : Nat}
    (hslot : e.slot = BitVec.ofNat 64 (2 * i)) (hword : 2 * i < 0x10000000000000000)
    (hopcode : slots[i]? = some Opcode.END)
    (hbase : e.base = BitVec.ofNat 64 (program * c.layout.outputProgramStride))
    (he : e.row = BitVec.ofNat 64 row) (hslice : c.Slice programs e.outputs) :
    c.dispatchTouches slots inputs e = .fetch (BitVec.ofNat 64 (2 * i)) ::
      (c.layout.storeTouches program row ++ c.layout.loadTouches (rowAfter c.layout row)) := by
  obtain ⟨cell, hcell, hbody⟩ := h.code.exists_cell (show (bodies catalog)[Opcode.END.toNat]? =
    some .finishRow from rfl)
  unfold dispatchTouches
  simp only [hslot, fetch_ofNat hword hopcode, hcell, Option.map_some, hbody,
    finishRowTouches_eq h hprogram hrow hbase he hslice]

/-- Entering the code touches the inputs of the first row. -/
theorem entryTouches_eq {inputs : Array k.Value} (h : Ready catalog c inputs)
    (outputs : Array k.Value) : c.entryTouches inputs outputs = c.layout.loadTouches 0 :=
  touchesAll_load h h.accepted.rows_pos _ rfl

/-! ## Runs -/

/-- A number of jumps from one state of the engine to another, and what they touch. -/
inductive Steps (c : ThreadedCode) (slots : Array Opcode) (inputs : Array k.Value) :
    Nat → Engine k → List Touch → Engine k → Prop
  | refl (e : Engine k) : Steps c slots inputs 0 e [] e
  | step {n : Nat} {e next last : Engine k} {log : List Touch} :
      c.dispatch slots inputs e = .ok (.running next) → Steps c slots inputs n next log last →
        Steps c slots inputs (n + 1) e (c.dispatchTouches slots inputs e ++ log) last

namespace Steps

variable {slots : Array Opcode} {inputs : Array k.Value} {m n : Nat} {e next last : Engine k}
  {log more : List Touch}

/-- Steps that follow on each other are one sequence of steps. -/
theorem trans (h : c.Steps slots inputs m e log next) (h' : c.Steps slots inputs n next more last) :
    c.Steps slots inputs (m + n) e (log ++ more) last := by
  induction h with
  | refl e =>
      rw [Nat.zero_add, List.nil_append]
      exact h'
  | step hjump _ ih =>
      rw [Nat.add_right_comm, List.append_assoc]
      exact .step hjump (ih h')

/-- A run goes on where the jumps have led. -/
theorem runFor (h : c.Steps slots inputs n e log last) (jumps : Nat) :
    c.runFor slots inputs (n + jumps) e = c.runFor slots inputs jumps last := by
  induction h with
  | refl e => rw [Nat.zero_add]
  | step hjump _ ih =>
      rw [Nat.add_right_comm, runFor_succ_of_running hjump]
      exact ih

/-- Only the slots that a run fetches and the inputs that it loads matter to it. -/
theorem of_alike {slots' : Array Opcode} {inputs' : Array k.Value}
    (h : c.Steps slots inputs n e log last) (hsize : inputs.size = inputs'.size)
    (hslots : ∀ t ∈ log, t.FetchesAlike slots slots')
    (hinputs : ∀ t ∈ log, t.LoadsAlike inputs inputs') : c.Steps slots' inputs' n e log last := by
  induction h with
  | refl e => exact .refl e
  | step hjump _ ih =>
      rw [List.forall_mem_append] at hslots hinputs
      obtain ⟨hends, htouches⟩ := dispatch_eq_of_alike c hsize _ hslots.1 hinputs.1
      rw [hends] at hjump
      rw [htouches]
      exact .step hjump (ih hslots.2 hinputs.2)

/-- A run keeps the outputs that it does not store. -/
theorem outputs_eq (h : c.Steps slots inputs n e log last) {i : Nat}
    (hkept : ∀ t ∈ log, t.stores (i * k.size) = false) : last.outputs[i]? = e.outputs[i]? := by
  induction h with
  | refl e => rfl
  | step hjump _ ih =>
      rw [List.forall_mem_append] at hkept
      rw [ih hkept.2, outputs_eq_of_dispatch hjump hkept.1]

end Steps

end ThreadedCode

end LinearGP
