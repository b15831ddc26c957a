import Mathlib
import LinearGP.Proofs.Catalog.Contents
import LinearGP.Proofs.Standalone

/-!
# Wrapping arithmetic on 32 bits

Integer instructions work on whole registers.  Samples of 32 bits are loaded with zeros above them and
stored from the low half of their register, so that a program computes on 32 bits whenever its
instructions find the low halves of their results from low halves alone.  The families that do are
`Mnemonic.wrapping`, and by `Instruction.keepsLow_iff` there are no others among those for integers.

`Instruction.wrap` is the arithmetic on 32 bits, over `Int32` and without any registers of 64 bits.  One
instruction commutes with taking low halves, `execAll_wrap` carries this through programs, and what
is left are the ends of a row: its inputs and its output.
-/

set_option autoImplicit false

namespace LinearGP

variable {k : ElementKind}

/-! ## Arithmetic on 32 bits -/

def IntOp.wrap : IntOp → Int32 → Int32 → Int32
  | mov, _, y => y
  | add, x, y => x + y
  | sub, x, y => x - y
  | imul, x, y => x * y
  | and, x, y => x &&& y
  | or, x, y => x ||| y
  | xor, x, y => x ^^^ y

def UnaryOp.wrap : UnaryOp → Int32 → Int32
  | neg, x => -x
  | not, x => ~~~x
  | inc, x => x + 1
  | dec, x => x - 1

namespace Instruction

/-- What an instruction does to numbers of 32 bits, one for each register, if it is one that wraps. -/
def wrap : Instruction → (Gpr → Int32) → Option (Gpr → Int32)
  | nop, values => some values
  | int op dst src, values => some (Function.update values dst (op.wrap (values dst) (values src)))
  | unary op reg, values => some (Function.update values reg (op.wrap (values reg)))
  | bitCount _ _ _, _ => none
  | div _ _, _ => none
  | float _ _ _ _, _ => none
  | moveAll _ _, _ => none
  | moveLow _ _ _, _ => none

def wrapAll (instructions : List Instruction) (values : Gpr → Int32) : Option (Gpr → Int32) :=
  instructions.foldlM (fun values i => i.wrap values) values

/-- The output of instructions on numbers of 32 bits: inputs are in the registers in their order, zeros
are in the registers that are left, and the output is in `rax`. -/
def wrappingOutput (instructions : List Instruction) (inputs : List Int32) : Option Int32 :=
  (wrapAll instructions fun r => inputs.getD (Gpr.all.idxOf r) 0).map fun values => values .rax

end Instruction

/-- The families of instructions that wrap. -/
def Mnemonic.wrapping : List Mnemonic := [nop, mov, add, sub, imul, and, or, xor, neg, not, inc, dec]

/-! ## Low halves -/

/-- The low half of a word. -/
def lowHalf (x : BitVec 64) : Int32 := .ofBitVec (x.setWidth 32)

/-- The low halves of the general purpose registers. -/
def Registers.lowHalves (s : Registers) (r : Gpr) : Int32 := lowHalf (s.gpr r)

/-- The lower half of a result is the result on the lower halves, for arithmetic with two
operands. -/
theorem IntOp.lowHalf_apply (op : IntOp) (x y : BitVec 64) :
    lowHalf (op.apply x y) = op.wrap (lowHalf x) (lowHalf y) := by
  have hle : 32 ≤ 64 := by decide
  unfold lowHalf
  cases op with
  | mov => rfl
  | add => rw [apply, wrap, BitVec.setWidth_add _ _ hle, Int32.ofBitVec_add]
  | sub =>
      rw [apply, wrap, BitVec.sub_eq_add_neg, BitVec.setWidth_add _ _ hle, BitVec.setWidth_neg_of_le hle,
        ← BitVec.sub_eq_add_neg, Int32.ofBitVec_sub]
  | imul => rw [apply, wrap, BitVec.setWidth_mul _ _ hle, Int32.ofBitVec_mul]
  | and => rw [apply, wrap, BitVec.setWidth_and, Int32.ofBitVec_and]
  | or => rw [apply, wrap, BitVec.setWidth_or, Int32.ofBitVec_or]
  | xor => rw [apply, wrap, BitVec.setWidth_xor, Int32.ofBitVec_xor]

/-- The lower half of a result is the result on the lower half, for arithmetic with one operand. -/
theorem UnaryOp.lowHalf_apply (op : UnaryOp) (x : BitVec 64) :
    lowHalf (op.apply x) = op.wrap (lowHalf x) := by
  have hle : 32 ≤ 64 := by decide
  cases op with
  | neg =>
      unfold lowHalf
      rw [apply, wrap, BitVec.setWidth_neg_of_le hle, Int32.ofBitVec_neg]
  | not =>
      unfold lowHalf
      rw [apply, wrap, BitVec.setWidth_not hle, Int32.ofBitVec_not]
  | inc => exact IntOp.lowHalf_apply .add x 1
  | dec => exact IntOp.lowHalf_apply .sub x 1

/-- Setting a register sets its lower half. -/
theorem Registers.lowHalves_setGpr (s : Registers) (r : Gpr) (v : BitVec 64) :
    (s.setGpr r v).lowHalves = Function.update s.lowHalves r (lowHalf v) := by
  funext q
  unfold lowHalves
  rw [gpr_setGpr, Function.update_apply, apply_ite lowHalf]

namespace Instruction

/-! ## One instruction, and all of them -/

/-- An instruction that wraps never stops, and finds the low halves of its results from low halves. -/
theorem exec_wrap {i : Instruction} (h : i.mnemonic ∈ Mnemonic.wrapping) (s : Registers) :
    ∃ t, i.exec s = some t ∧ i.wrap s.lowHalves = some t.lowHalves := by
  cases i with
  | nop => exact ⟨s, rfl, rfl⟩
  | int op dst src =>
      refine ⟨_, rfl, ?_⟩
      rw [wrap, Registers.lowHalves_setGpr, IntOp.lowHalf_apply]
      rfl
  | unary op reg =>
      refine ⟨_, rfl, ?_⟩
      rw [wrap, Registers.lowHalves_setGpr, UnaryOp.lowHalf_apply]
      rfl
  | bitCount op _ _ => exact absurd h (show op.mnemonic ∉ Mnemonic.wrapping by cases op <;> decide)
  | div _ _ => exact absurd h (show Mnemonic.div ∉ Mnemonic.wrapping by decide)
  | float op _ _ _ => exact absurd h (show op.mnemonic ∉ Mnemonic.wrapping by cases op <;> decide)
  | moveAll _ _ => exact absurd h (show Mnemonic.movaps ∉ Mnemonic.wrapping by decide)
  | moveLow _ _ _ => exact absurd h (show Mnemonic.movLow ∉ Mnemonic.wrapping by decide)

/-- Instructions that wrap find the low halves of their results from low halves. -/
theorem execAll_wrap {instructions : List Instruction}
    (h : ∀ i ∈ instructions, i.mnemonic ∈ Mnemonic.wrapping) (s : Registers) :
    ∃ t, execAll instructions s = some t ∧ wrapAll instructions s.lowHalves = some t.lowHalves := by
  induction instructions generalizing s with
  | nil => exact ⟨s, rfl, rfl⟩
  | cons i rest ih =>
      obtain ⟨hi, hrest⟩ := List.forall_mem_cons.mp h
      obtain ⟨t, hstep, hwrap⟩ := exec_wrap hi s
      obtain ⟨u, hsteps, hwraps⟩ := ih hrest t
      refine ⟨u, ?_, ?_⟩
      · rw [execAll_cons, hstep]
        exact hsteps
      · rw [wrapAll, List.foldlM_cons, hwrap]
        exact hwraps

/-! ## Which families wrap -/

/-- The low halves of the results depend on low halves only. -/
def KeepsLow (i : Instruction) : Prop :=
  ∀ s t : Registers, s.lowHalves = t.lowHalves →
    (i.exec s).map Registers.lowHalves = (i.exec t).map Registers.lowHalves

/-- The mnemonics that wrap compute lower halves from lower halves. -/
theorem keepsLow_of_wrapping {i : Instruction} (h : i.mnemonic ∈ Mnemonic.wrapping) : i.KeepsLow := by
  intro s t hlow
  obtain ⟨s', hs, hs'⟩ := exec_wrap h s
  obtain ⟨t', ht, ht'⟩ := exec_wrap h t
  rw [hs, ht, Option.map_some, Option.map_some, ← hs', ← ht', hlow]

/-- Counts see the high half of the register they count in. -/
theorem not_keepsLow_bitCount (op : BitCountOp) (dst src : Gpr) : ¬ (bitCount op dst src).KeepsLow := by
  intro h
  -- no count of the bits of 0 and of 2 ^ 32 is the same, not even in its low half
  have hzero : Registers.cleared.gpr src = 0 := by cases src <;> rfl
  have hlow : Registers.lowHalves .cleared =
      Registers.lowHalves (Registers.cleared.setGpr src 0x100000000#64) := by
    rw [Registers.lowHalves_setGpr]
    refine (Function.update_eq_self_iff.mpr ?_).symm
    rw [Registers.lowHalves, hzero]
    rfl
  have hresult := h _ _ hlow
  rw [exec, exec, Option.map_some, Option.map_some, Registers.gpr_setGpr, if_pos rfl, hzero,
    Option.some.injEq, Registers.lowHalves_setGpr, Registers.lowHalves_setGpr] at hresult
  have hdst := congrFun hresult dst
  rw [Function.update_self, Function.update_self] at hdst
  cases op <;> exact absurd hdst (by decide +kernel)

/-- Quotients by two divisors differ although the low halves of the divisors are the same. -/
theorem not_keepsLow_div {src : Gpr} (hsrc : src = .rcx ∨ src = .rsi) (guarded : Bool) :
    ¬ (div src guarded).KeepsLow := by
  intro h
  have hlow : Registers.lowHalves ((Registers.cleared.setGpr .rax 2).setGpr src 1) =
      Registers.lowHalves ((Registers.cleared.setGpr .rax 2).setGpr src 0x100000001#64) := by
    rw [Registers.lowHalves_setGpr, Registers.lowHalves_setGpr _ src]
    rfl
  have hresult := congrArg (·.map (· .rax)) (h _ _ hlow)
  rcases hsrc with rfl | rfl <;> cases guarded <;> exact absurd hresult (by decide +kernel)

/-- Among the instructions for integers, those that wrap are those whose low halves depend on low halves
only. -/
theorem keepsLow_iff {form : FloatForm} {safeDivision : Bool} {m : Mnemonic} (hm : m.isFloat = false)
    {i : Instruction} (hi : i ∈ m.expand form safeDivision) :
    i.KeepsLow ↔ m ∈ Mnemonic.wrapping := by
  obtain ⟨rfl, hexpands⟩ := Mnemonic.mem_expand_iff.mp hi
  refine ⟨fun hkeeps => ?_, keepsLow_of_wrapping⟩
  cases i with
  | nop => decide
  | int op _ _ => exact show op.mnemonic ∈ Mnemonic.wrapping by cases op <;> decide
  | unary op _ => exact show op.mnemonic ∈ Mnemonic.wrapping by cases op <;> decide
  | bitCount op dst src => exact absurd hkeeps (not_keepsLow_bitCount op dst src)
  | div src guarded => exact absurd hkeeps (not_keepsLow_div hexpands.1 guarded)
  | float op _ _ _ => cases op <;> cases hm
  | moveAll _ _ => cases hm
  | moveLow _ _ _ => cases hm

end Instruction

/-! ## Rows -/

/-- The registers are numbered in the order in which columns are loaded into them. -/
theorem Gpr.exists_ofNat? {column : Nat} (h : column < 4) :
    ∃ r, Gpr.ofNat? column = some r ∧ ∀ q, Gpr.all.idxOf q = column ↔ q = r := by
  have hregisters : ∀ column < 4, ∃ r ∈ Gpr.all, Gpr.ofNat? column = some r ∧
      ∀ q ∈ Gpr.all, Gpr.all.idxOf q = column ↔ q = r := by decide
  obtain ⟨r, -, hr, hq⟩ := hregisters column h
  exact ⟨r, hr, fun q => hq q q.mem_all⟩

namespace Layout

/-- The low half of an input. -/
def lowInput (l : Layout) (inputs : Array k.Value) (row column : Nat) : Int32 :=
  .ofBitVec ((inputs.getD (row * l.arity + column) 0).setWidth 32)

/-- The low halves of the inputs of a row, by column. -/
def lowInputs (l : Layout) (inputs : Array k.Value) (row : Nat) : List Int32 :=
  (List.range l.arity).map (l.lowInput inputs row)

variable {l : Layout}

/-- The low half of an input is in its register. -/
theorem lowHalves_loadColumn (hl : l.Accepted) (hx : l.usesXmm = false) (inputs : Array k.Value)
    (row : Nat) {column : Nat} (hcolumn : column < l.arity) (s : Registers) :
    (l.loadColumn column (l.columnValues inputs row column) s).lowHalves = fun r =>
      if Gpr.all.idxOf r = column then l.lowInput inputs row column else s.lowHalves r := by
  obtain ⟨r, hr, hnumber⟩ := Gpr.exists_ofNat? (Nat.lt_of_lt_of_le hcolumn hl.arity_le)
  have hregister : l.registerAt? column = some (.gpr r) := by
    rw [registerAt?, hx, hr]
    rfl
  have hvalues : l.columnValues inputs row column = [inputs.getD (row * l.arity + column) 0] := by
    rw [columnValues, hl.lanes_eq_one hx, Nat.mul_one]
    rfl
  have hlow : lowHalf ((inputs.getD (row * l.arity + column) 0).setWidth 64) =
      l.lowInput inputs row column := by
    rw [lowHalf, BitVec.setWidth_setWidth_of_le _ (by decide)]
    rfl
  rw [loadColumn, hregister, hvalues, List.headD_cons]
  simp only
  rw [Registers.lowHalves_setGpr, hlow]
  funext q
  rw [Function.update_apply]
  simp only [hnumber]

/-- After columns are loaded, the low halves of their registers are those of the inputs. -/
theorem lowHalves_loadColumns (hl : l.Accepted) (hx : l.usesXmm = false) (inputs : Array k.Value)
    (row : Nat) {columns : Nat} (hcolumns : columns ≤ l.arity) :
    ((List.range columns).foldl
      (fun s column => l.loadColumn column (l.columnValues inputs row column) s) .cleared).lowHalves =
        fun r => if Gpr.all.idxOf r < columns then l.lowInput inputs row (Gpr.all.idxOf r) else 0 := by
  induction columns with
  | zero =>
      funext r
      cases r <;> rfl
  | succ columns ih =>
      rw [List.range_succ, List.foldl_append, List.foldl_cons, List.foldl_nil,
        lowHalves_loadColumn hl hx inputs row hcolumns, ih (Nat.le_of_succ_le hcolumns)]
      funext r
      dsimp only
      -- the register was loaded before this column, is loaded with it, or still holds zero
      rcases Nat.lt_trichotomy (Gpr.all.idxOf r) columns with hlt | heq | hgt
      · rw [if_neg hlt.ne, if_pos hlt, if_pos (Nat.lt_succ_of_lt hlt)]
      · rw [if_pos heq, if_pos (heq ▸ Nat.lt_succ_self _), heq]
      · rw [if_neg hgt.ne', if_neg (Nat.not_lt_of_gt hgt), if_neg (by omega)]

/-- A row starts with the lower halves of its inputs. -/
theorem lowHalves_initialRegisters (hl : l.Accepted) (hx : l.usesXmm = false) (inputs : Array k.Value)
    (row : Nat) : (l.initialRegisters inputs row).lowHalves = fun r =>
      (l.lowInputs inputs row).getD (Gpr.all.idxOf r) 0 := by
  rw [initialRegisters, lowHalves_loadColumns hl hx inputs row le_rfl]
  funext r
  rw [lowInputs, List.getD_eq_getElem?_getD, List.getElem?_map]
  split
  · next hin => rw [List.getElem?_range hin, Option.map_some, Option.getD_some]
  · next hout =>
    rw [List.getElem?_eq_none (by rw [List.length_range]; omega), Option.map_none, Option.getD_none]

/-- The low half of the output of instructions that wrap is their output on numbers of 32 bits. -/
theorem exists_evaluate_wraps (hl : l.Accepted) (hx : l.usesXmm = false)
    {instructions : List Instruction} (h : ∀ i ∈ instructions, i.mnemonic ∈ Mnemonic.wrapping)
    (inputs : Array k.Value) (row : Nat) :
    ∃ (v : Int32) (w : k.Value),
      Instruction.wrappingOutput instructions (l.lowInputs inputs row) = some v ∧
      l.evaluate instructions inputs row = some [w] ∧ w.setWidth 32 = v.toBitVec := by
  obtain ⟨s, hrun, hwrap⟩ := Instruction.execAll_wrap h (l.initialRegisters inputs row)
  rw [lowHalves_initialRegisters hl hx] at hwrap
  refine ⟨s.lowHalves .rax, (s.gpr .rax).setWidth k.bits, ?_, ?_, ?_⟩
  · rw [Instruction.wrappingOutput, hwrap]
    rfl
  · rw [evaluate, hrun, Option.map_some, readOutput, outputRegister, hx]
    rfl
  · have hbits : 32 ≤ k.bits := by cases k <;> decide
    rw [BitVec.setWidth_setWidth_of_le _ hbits]
    rfl

/-- Integer layouts do not use vector registers. -/
theorem usesXmm_eq_false (hl : l.Accepted) (hinteger : l.element.isFloat = false) :
    l.usesXmm = false := by
  have hlanes : l.lanes = 1 := hl.lanes_eq.resolve_right fun h => by simp [hinteger] at h
  rw [usesXmm, isVectorized, hinteger, hlanes]
  rfl

/-- On its own, a row is all of its inputs. -/
theorem lowInputs_zero {inputs : Array k.Value} (hsize : inputs.size = l.arity) :
    l.lowInputs inputs 0 = inputs.toList.map fun x => .ofBitVec (x.setWidth 32) := by
  apply List.ext_getElem?
  intro column
  rw [lowInputs, List.getElem?_map, List.getElem?_map]
  rcases Nat.lt_or_ge column l.arity with hin | hout
  · rw [List.getElem?_range hin, Array.getElem?_toList, Array.getElem?_eq_getElem (hsize ▸ hin),
      Option.map_some, Option.map_some, lowInput, Nat.zero_mul, Nat.zero_add,
      Array.getD_eq_getD_getElem?, Array.getElem?_eq_getElem (hsize ▸ hin), Option.getD_some]
  · rw [List.getElem?_eq_none (by rwa [List.length_range]), Array.getElem?_toList,
      Array.getElem?_eq_none (hsize ▸ hout)]
    rfl

end Layout

/-! ## Programs -/

/-- A program of instructions that wrap compiles, and each call leaves the wrapped output in the low half
of what it returns. -/
theorem CompiledProgram.exists_call_wraps {catalog : Catalog} {program : Program} {arity : Nat}
    (hk : catalog.element = k) (hscalar : catalog.vectorized = false) (hinteger : k.isFloat = false)
    (hpos : 1 ≤ arity) (hle : arity ≤ 4) {instructions : List Instruction}
    (hprogram : program.instructions catalog = .ok instructions)
    (h : ∀ i ∈ instructions, i.mnemonic ∈ Mnemonic.wrapping) :
    ∃ c, compile k catalog program arity = .ok c ∧
      ∀ inputs : Array k.Value, inputs.size = arity → ∃ (v : Int32) (w : k.Value),
        Instruction.wrappingOutput instructions
          (inputs.toList.map fun x => .ofBitVec (x.setWidth 32)) = some v ∧
        c.call inputs = .ok #[w] ∧ w.setWidth 32 = v.toBitVec := by
  have hl := Layout.accepted_of_row (k := k) hpos hle (.inl rfl)
  refine ⟨{ layout := { element := k, rows := 1, arity, lanes := 1, programs := 1 }
            body := instructions }, compile_eq_ok_iff.mpr ⟨hk, ?_, hprogram⟩, ?_⟩
  · rw [hscalar]
    exact (Layout.ofDimensions_eq_ok_iff _ _ _ _ _ _).mpr ⟨rfl, hl⟩
  · intro inputs hsize
    obtain ⟨v, w, hv, hw, hlow⟩ :=
      Layout.exists_evaluate_wraps hl (Layout.usesXmm_eq_false hl hinteger) h inputs 0
    rw [Layout.lowInputs_zero hsize] at hv
    refine ⟨v, w, hv, ?_, hlow⟩
    rw [call_eq hl rfl rfl (by rw [hsize, Nat.mul_one]), hw]

namespace Program

/-- Programs of instructions that wrap compute wrapping arithmetic on 32 bits, from samples of 32 bits as
well as from any samples of 64 bits with the same low halves, be they called on their own or run on the
rows of a region.  What is above the low halves never shows. -/
theorem wraps {narrow wide : Catalog} {program : Program} {arity : Nat}
    {instructions : List Instruction} (hnarrow : narrow.element = .i32 ∧ narrow.vectorized = false)
    (hwide : wide.element = .i64 ∧ wide.vectorized = false)
    (hprogram : program.instructions narrow = .ok instructions)
    (hsame : program.instructions wide = .ok instructions)
    (hwraps : ∀ i ∈ instructions, i.mnemonic ∈ Mnemonic.wrapping)
    (hpos : 1 ≤ arity) (hle : arity ≤ 4) :
    (∃ c d, CompiledProgram.compile .i32 narrow program arity = .ok c ∧
      CompiledProgram.compile .i64 wide program arity = .ok d ∧
      ∀ inputs : Array (BitVec 32), inputs.size = arity → ∃ v : Int32,
        Instruction.wrappingOutput instructions (inputs.toList.map .ofBitVec) = some v ∧
        c.call inputs = .ok #[v.toBitVec] ∧
        ∀ others : Array (BitVec 64), others.map (·.setWidth 32) = inputs →
          ∃ w : BitVec 64, d.call others = .ok #[w] ∧ w.setWidth 32 = v.toBitVec) ∧
    ∀ rows programs l, Layout.ofDimensions .i32 rows arity 1 programs = .ok l →
      ∀ (inputs : Array (ElementKind.Value .i32)) (row : Nat), ∃ v : Int32,
        Instruction.wrappingOutput instructions (l.lowInputs inputs row) = some v ∧
        l.evaluate instructions inputs row = some [v.toBitVec] ∧
        ∀ rows' programs' l', Layout.ofDimensions .i64 rows' arity 1 programs' = .ok l' →
          ∀ (others : Array (ElementKind.Value .i64)) (row' : Nat),
            l'.lowInputs others row' = l.lowInputs inputs row →
            ∃ w : BitVec 64, l'.evaluate instructions others row' = some [w] ∧
              w.setWidth 32 = v.toBitVec := by
  have hself : ∀ x : BitVec 32, x.setWidth 32 = x := BitVec.setWidth_eq
  refine ⟨?_, ?_⟩
  · obtain ⟨c, hc, hcall⟩ := CompiledProgram.exists_call_wraps hnarrow.1 hnarrow.2 rfl hpos hle
      hprogram hwraps
    obtain ⟨d, hd, hcall'⟩ := CompiledProgram.exists_call_wraps hwide.1 hwide.2 rfl hpos hle
      hsame hwraps
    refine ⟨c, d, hc, hd, fun inputs hsize => ?_⟩
    obtain ⟨v, w, hv, hw, hlow⟩ := hcall inputs hsize
    simp only [hself] at hv
    -- a value of 32 bits is its own lower half
    cases (hself w).symm.trans hlow
    refine ⟨v, hv, hw, ?_⟩
    rintro others rfl
    rw [Array.size_map] at hsize
    obtain ⟨v', w', hv', hw', hlow'⟩ := hcall' others hsize
    rw [Array.toList_map, List.map_map] at hv
    cases hv.symm.trans hv'
    exact ⟨w', hw', hlow'⟩
  · intro rows programs l hl inputs row
    obtain ⟨rfl, haccepted⟩ := (Layout.ofDimensions_eq_ok_iff _ _ _ _ _ _).mp hl
    obtain ⟨v, w, hv, hw, hlow⟩ := Layout.exists_evaluate_wraps haccepted
      (Layout.usesXmm_eq_false haccepted rfl) hwraps inputs row
    cases (hself w).symm.trans hlow
    refine ⟨v, hv, hw, ?_⟩
    intro rows' programs' l' hl' others row' hinputs
    obtain ⟨rfl, haccepted'⟩ := (Layout.ofDimensions_eq_ok_iff _ _ _ _ _ _).mp hl'
    obtain ⟨v', w', hv', hw', hlow'⟩ := Layout.exists_evaluate_wraps haccepted'
      (Layout.usesXmm_eq_false haccepted' rfl) hwraps others row'
    rw [hinputs] at hv'
    cases hv.symm.trans hv'
    exact ⟨w', hw', hlow'⟩

/-- A product and its negation, from a negative number and from one with the same low half. -/
theorem wraps_neg_imul : ∃ narrow wide c d,
    Catalog.build .full { element := .i32, instructions := some [.imul, .neg], moves := some [] } =
      .ok narrow ∧
    Catalog.build .full { element := .i64, instructions := some [.imul, .neg], moves := some [] } =
      .ok wide ∧
    CompiledProgram.compile .i32 narrow [3, 18] 2 = .ok c ∧
    CompiledProgram.compile .i64 wide [3, 18] 2 = .ok d ∧
    c.call #[0xFFFFFFFD#32, 7#32] = .ok #[21#32] ∧
    ∃ w : BitVec 64, d.call #[0xBADFFFFFFFD#64, 0x500000007#64] = .ok #[w] ∧ w.setWidth 32 = 21#32 := by
  obtain ⟨narrow, hnarrow, hprogram⟩ : ∃ narrow,
      Catalog.build .full { element := .i32, instructions := some [.imul, .neg], moves := some [] } =
        .ok narrow ∧
      instructions narrow [3, 18] = .ok [.int .imul .rax .rcx, .unary .neg .rax] := ⟨_, rfl, rfl⟩
  obtain ⟨wide, hwide, hsame⟩ : ∃ wide,
      Catalog.build .full { element := .i64, instructions := some [.imul, .neg], moves := some [] } =
        .ok wide ∧
      instructions wide [3, 18] = .ok [.int .imul .rax .rcx, .unary .neg .rax] := ⟨_, rfl, rfl⟩
  obtain ⟨⟨c, d, hc, hd, hcall⟩, -⟩ := wraps (Catalog.build_eq_ok hnarrow).2
    (Catalog.build_eq_ok hwide).2 hprogram hsame (by decide) (by decide : 1 ≤ 2) (by decide)
  obtain ⟨v, hv, hnegated, hlow⟩ := hcall #[0xFFFFFFFD#32, 7#32] rfl
  have hvalue : v = 21 := Option.some.inj (hv.symm.trans rfl)
  subst hvalue
  exact ⟨narrow, wide, c, d, hnarrow, hwide, hc, hd, hnegated,
    hlow #[0xBADFFFFFFFD#64, 0x500000007#64] (by simp)⟩

end Program

end LinearGP
