import Mathlib
import LinearGP.Instruction.MachineCode
import LinearGP.Proofs.Standalone
import LinearGP.Proofs.ThreadedCode.Refinement

/-!
# Faults

The only instruction that can stop the machine is a division without a guard.  The bytes of a division are
run one operation at a time here, so that the guard is seen to do its work for every divisor, also for the
registers that hold the dividend.  A catalog that is built without unsafe instructions has no such division,
and then no program of the catalog stops the machine, whatever runs it.
-/

set_option autoImplicit false

namespace LinearGP

/-! ## Divisions as machine code -/

/-- The register with a number. -/
def Gpr.ofCode? (code : Nat) : Option Gpr := Gpr.all.find? (·.code = code)

/-- The fields of an operand byte that names registers only. -/
def operandFields? (byte : UInt8) : Option (Nat × Gpr) := do
  guard (byte.toNat / 64 = 3)
  let rm ← Gpr.ofCode? (byte.toNat % 8)
  return (byte.toNat / 8 % 8, rm)

/-- Run the machine code of a division.  The flag is set when the last result was zero.  Operations that
divisions are not made of, and jumps out of the code, stop the machine. -/
def runDivision : List UInt8 → (zero : Bool) → Registers → Option Registers
  | [], _, s => some s
  -- `xor edx, edx` clears the whole register
  | 0x31 :: 0xd2 :: rest, _, s => runDivision rest true (s.setGpr .rdx 0)
  -- `test`
  | 0x48 :: 0x85 :: byte :: rest, _, s => do
    let (reg, rm) ← operandFields? byte
    let reg ← Gpr.ofCode? reg
    runDivision rest (s.gpr rm &&& s.gpr reg = 0) s
  -- `jz`, with a distance from the operation behind it
  | 0x74 :: distance :: rest, zero, s =>
    if zero then
      if distance < 0x80 ∧ distance.toNat ≤ rest.length then
        runDivision (rest.drop distance.toNat) zero s
      else none
    else runDivision rest zero s
  -- `div`, with no use for the flag that it leaves
  | 0x48 :: 0xf7 :: byte :: rest, zero, s => do
    let (operation, src) ← operandFields? byte
    guard (operation = 6)
    let s ← s.divide (s.gpr src)
    runDivision rest zero s
  | _, _, _ => none
termination_by code => code.length
decreasing_by
  all_goals simp only [List.length_cons, List.length_drop]
  all_goals omega

/-- A general purpose register is found by its code. -/
theorem Gpr.ofCode?_code (r : Gpr) : ofCode? r.code = some r := by
  cases r <;> rfl

/-- The byte for two operands is taken apart into these. -/
theorem operandFields?_operandByte {reg : Nat} (hreg : reg < 8) (rm : Gpr) :
    operandFields? (operandByte reg rm.code) = some (reg, rm) := by
  interval_cases reg <;> cases rm <;> rfl

/-- The bytes of a division do what the division does. -/
theorem runDivision_encodeDiv (src : Gpr) (zero : Bool) (s : Registers) :
    runDivision (Instruction.encodeDiv src) zero s = s.divide (s.gpr src) := by
  simp [Instruction.encodeDiv, runDivision, operandFields?_operandByte]

/-- The bytes of a division do what the instruction says, whatever the divisor is. -/
theorem runDivision_encode (src : Gpr) (guarded zero : Bool) (s : Registers) :
    runDivision (Instruction.div src guarded).encode zero s = (Instruction.div src guarded).exec s := by
  cases guarded with
  | false => exact runDivision_encodeDiv src zero s
  | true =>
      have hcode : src.code < 8 := by cases src <;> decide
      have hlength : (Instruction.encodeDiv src).length = 3 := rfl
      show runDivision (0x31 :: 0xd2 :: 0x48 :: 0x85 :: operandByte src.code src.code :: 0x74 :: 0x03 ::
        Instruction.encodeDiv src) zero s = _
      rw [runDivision, runDivision, operandFields?_operandByte hcode]
      simp only [Option.bind_eq_bind, Option.bind_some, Gpr.ofCode?_code, BitVec.and_self]
      rw [runDivision, Instruction.exec]
      by_cases hdivisor : (s.setGpr .rdx 0).gpr src = 0
      · -- the jump leads to the end of the code
        simp only [hdivisor, decide_true, if_true]
        rw [if_pos ⟨by decide, hlength.ge⟩]
        show runDivision [] true _ = _
        rw [runDivision]
      · simp only [hdivisor, decide_false, Bool.false_eq_true, if_false]
        exact runDivision_encodeDiv src _ _

/-! ## Instructions that stop the machine -/

/-- A division stops the machine when the divisor is zero or the quotient does not fit a
register. -/
theorem Registers.divide_eq_none_iff {s : Registers} {divisor : BitVec 64} :
    s.divide divisor = none ↔
      divisor = 0 ∨ 0x10000000000000000 ≤ (s.rdx ++ s.rax).toNat / divisor.toNat := by
  unfold divide
  simp only
  split <;> simp_all

namespace Instruction

/-- A machine stops at an unguarded division whose divisor is zero or whose quotient does not fit a
register, and nowhere else. -/
theorem exec_eq_none_iff {i : Instruction} {s : Registers} :
    i.exec s = none ↔ ∃ src, i = .div src false ∧
      (s.gpr src = 0 ∨ 0x10000000000000000 ≤ (s.rdx ++ s.rax).toNat / (s.gpr src).toNat) := by
  constructor
  · intro h
    obtain ⟨src, rfl, hdivide⟩ := exec_eq_none h
    exact ⟨src, rfl, Registers.divide_eq_none_iff.mp hdivide⟩
  · rintro ⟨src, rfl, hstop⟩
    exact Registers.divide_eq_none_iff.mpr hstop

/-- The instructions that can stop the machine are the unsafe ones. -/
theorem exists_exec_eq_none_iff {i : Instruction} :
    (∃ s, i.exec s = none) ↔ i.isUnsafe = true := by
  constructor
  · rintro ⟨s, h⟩
    obtain ⟨src, rfl, -⟩ := exec_eq_none h
    rfl
  · intro h
    cases i with
    | div src guarded =>
        cases guarded with
        | true => cases h
        | false =>
            -- every divisor is zero in a cleared register file
            refine ⟨.cleared, exec_eq_none_iff.mpr ⟨src, rfl, .inl ?_⟩⟩
            cases src <;> rfl
    | nop | int | unary | bitCount | float | moveAll | moveLow => cases h

end Instruction

/-! ## Catalogs without unsafe instructions -/

namespace Catalog

variable {host : Host} {o : CatalogOptions} {catalog : Catalog}

/-- Unsafe instructions are left out unless they are asked for. -/
theorem isUnsafe_of_build (h : build host o = .ok catalog) (hsafe : o.allowUnsafe = false) :
    ∀ i ∈ catalog.instructions, i.isUnsafe = false := by
  intro i hi
  obtain ⟨-, -, hadmitted, -⟩ := (mem_iff_of_build h).mp hi
  rw [hsafe] at hadmitted
  exact Bool.eq_false_iff.mpr fun hunsafe => Bool.false_ne_true (hadmitted hunsafe)

/-- Only floating point catalogs are vectorized. -/
theorem isFloat_of_build (h : build host o = .ok catalog) (hvectorized : catalog.vectorized = true) :
    catalog.element.isFloat = true := by
  obtain ⟨-, helement, hsame⟩ := build_eq_ok h
  rw [helement]
  rw [hsame] at hvectorized
  unfold build at h
  split at h
  · cases h
  · next hrefused => simpa [hvectorized] using hrefused

end Catalog

/-! ## Programs that never stop the machine -/

namespace Program

/-- Whatever runs a program, the machine does not stop and there are outputs. -/
structure NeverFaults (catalog : Catalog) (program : Program) : Prop where
  /-- On its own, a program can be compiled for any number of columns up to that of the registers. -/
  compiles : ∀ arity, 0 < arity → arity ≤ 4 →
    ∃ c, CompiledProgram.compile catalog.element catalog program arity = .ok c
  /-- What is compiled can be called with the inputs of any row. -/
  call : ∀ arity c, CompiledProgram.compile catalog.element catalog program arity = .ok c →
    ∀ inputs : Array catalog.element.Value, inputs.size = c.arity * c.lanes →
      ∃ values, c.call inputs = .ok values
  /-- Threaded code of the catalog gets through a partition of a store that the program is in. -/
  run : ∀ (store : Store) (position : Nat) (partition : Partition), store.Reachable →
    store.program position = .ok program →
    store.partition (position / store.perThread) = .ok partition →
    (∀ opcode ∈ partition.slots, opcode.toNat < catalog.opcodeCount) →
    ∀ (rows arity lanes programs : Nat) (layout : Layout) (counting : Bool) (code : ThreadedCode),
      Layout.ofDimensions catalog.element rows arity lanes programs = .ok layout →
      ThreadedCode.create catalog layout store.programSize counting = .ok code →
      ∀ (input : InputRegion catalog.element) (outputs : Array catalog.element.Value),
        input.values.size = layout.inputLength →
        outputs.size = partition.programCount * layout.outputsPerProgram →
        outputs.size * catalog.element.size < 0x8000000000000000 →
        ∃ count written, code.run partition input outputs = .ok count written

variable {host : Host} {o : CatalogOptions} {catalog : Catalog}

/-- Without unsafe instructions, threaded code gets through every partition of known opcodes. -/
theorem exists_run (hsafe : ∀ i ∈ catalog.instructions, i.isUnsafe = false) {store : Store}
    (hstore : store.Reachable) {thread : Nat} {partition : Partition}
    (hpartition : store.partition thread = .ok partition)
    (hknown : ∀ opcode ∈ partition.slots, opcode.toNat < catalog.opcodeCount) {layout : Layout}
    (hlayout : layout.Accepted) {counting : Bool} {code : ThreadedCode}
    (hcode : ThreadedCode.create catalog layout store.programSize counting = .ok code)
    {k : ElementKind} (hk : layout.element = k) {input : InputRegion k} {outputs : Array k.Value}
    (hinput : input.values.size = layout.inputLength)
    (houtputs : outputs.size = partition.programCount * layout.outputsPerProgram)
    (haddressable : outputs.size * k.size < 0x8000000000000000) :
    ∃ count written, code.run partition input outputs = .ok count written := by
  obtain ⟨hc, rfl, hsize, -⟩ := ThreadedCode.codeFor_of_create hlayout hcode
  have hready : ThreadedCode.Ready catalog code input.values := ⟨hc, hlayout, hk, hinput⟩
  have hloaded := ThreadedCode.loaded_of_partition hstore.wellFormed hsize.symm hpartition hknown
  obtain ⟨values, hvalues⟩ : ∃ values, (store.threadPrograms thread).mapM
      (Program.outputs catalog code.layout input.values) = .ok values := by
    apply exists_mapM_eq_ok
    intro program hprogram
    obtain ⟨p, hp⟩ := List.getElem?_of_mem hprogram
    obtain ⟨instructions, hinstructions, -⟩ := hloaded.runsAt hp
    exact (exists_outputs_iff hinstructions).mpr fun row _ => not_stops hsafe hinstructions _
  have hrun := ThreadedCode.run_eq hready hloaded ⟨houtputs, haddressable⟩
  rw [hvalues] at hrun
  exact ⟨_, _, hrun⟩

/-- Programs of a catalog without unsafe instructions never stop the machine. -/
theorem Known.neverFaults (hbuild : Catalog.build host o = .ok catalog) (hsafe : o.allowUnsafe = false)
    {program : Program} (hknown : program.Known catalog) : program.NeverFaults catalog where
  compiles := by
    intro arity hpos hle
    obtain ⟨body, hbody⟩ := hknown.instructions
    have hlanes : (if catalog.vectorized then catalog.element.lanes else 1) = 1 ∨
        (if catalog.vectorized then catalog.element.lanes else 1) = catalog.element.lanes ∧
          catalog.element.isFloat = true := by
      cases hvectorized : catalog.vectorized with
      | false => exact .inl rfl
      | true => exact .inr ⟨rfl, Catalog.isFloat_of_build hbuild hvectorized⟩
    have hlayout := (Layout.ofDimensions_eq_ok_iff catalog.element 1 arity _ 1 _).mpr
      ⟨rfl, Layout.accepted_of_row hpos hle hlanes⟩
    exact ⟨⟨_, body⟩, CompiledProgram.compile_eq_ok_iff.mpr ⟨rfl, hlayout, hbody⟩⟩
  call := by
    intro arity c hcompile inputs hsize
    obtain ⟨-, -, hbody⟩ := CompiledProgram.compile_eq_ok_iff.mp hcompile
    exact CompiledProgram.exists_call hcompile hsize
      (not_stops (Catalog.isUnsafe_of_build hbuild hsafe) hbody _)
  run := by
    intro store position partition hstore _ hpartition hopcodes rows arity lanes programs layout
      counting code hlayout hcode input outputs hinput houtputs haddressable
    obtain ⟨hdimensions, hl⟩ := (Layout.ofDimensions_eq_ok_iff _ _ _ _ _ _).mp hlayout
    have hk : layout.element = catalog.element := by rw [hdimensions]
    exact exists_run (Catalog.isUnsafe_of_build hbuild hsafe) hstore hpartition hopcodes hl hcode hk
      hinput houtputs haddressable

/-- Nothing stops the machine but an unsafe instruction.  The bytes of a division, guarded or not, do what
the instruction says for every divisor.  An instruction stops the machine where it is an unguarded division
with a zero divisor or a quotient that does not fit, and an instruction for which there are such registers is
an unsafe one.  So whatever options a catalog is built with, as long as they do not allow unsafe
instructions, its programs never fault, with their introns or without them. -/
theorem never_faults :
    (∀ (src : Gpr) (guarded zero : Bool) (s : Registers),
      runDivision (Instruction.div src guarded).encode zero s =
        (Instruction.div src guarded).exec s) ∧
    (∀ (i : Instruction) (s : Registers), i.exec s = none ↔ ∃ src, i = .div src false ∧
      (s.gpr src = 0 ∨ 0x10000000000000000 ≤ (s.rdx ++ s.rax).toNat / (s.gpr src).toNat)) ∧
    (∀ i : Instruction, (∃ s, i.exec s = none) ↔ i.isUnsafe = true) ∧
    ∀ (host : Host) (o : CatalogOptions) (catalog : Catalog), o.allowUnsafe = false →
      Catalog.build host o = .ok catalog → ∀ program : Program, program.Known catalog →
        program.NeverFaults catalog ∧
        ∀ (output : Register) (range : BitRange), ∃ kept,
          program.eliminateIntrons catalog.accessTable output range = .ok kept ∧
          kept.NeverFaults catalog := by
  refine ⟨runDivision_encode, fun i s => Instruction.exec_eq_none_iff,
    fun i => Instruction.exists_exec_eq_none_iff, ?_⟩
  intro host o catalog hsafe hbuild program hknown
  refine ⟨hknown.neverFaults hbuild hsafe, fun output range => ?_⟩
  obtain ⟨instructions, hinstructions⟩ := hknown.instructions
  obtain ⟨kept, keptInstructions, helim, hkept, -⟩ :=
    exists_eliminateIntrons (Catalog.movesScalar_of_build hbuild) hinstructions output range
  exact ⟨kept, helim, (known_of_instructions hkept).neverFaults hbuild hsafe⟩

/-- A program that divides by both of its divisors is called with one of them zero, and threaded code runs it
on that row as well. -/
theorem never_faults_div : ∃ catalog c values code count written,
    Catalog.build .full { element := .i64, instructions := some [.div], moves := some [] } = .ok catalog ∧
      Known catalog [2, 3] ∧
      CompiledProgram.compile .i64 catalog [2, 3] 4 = .ok c ∧ c.call #[7, 0, 5, 3] = .ok values ∧
      ThreadedCode.create catalog { element := .i64, rows := 1, arity := 4, lanes := 1, programs := 1 } 2
        false = .ok code ∧
      code.run { slots := #[2, 3, 0, 1], programCount := 1, programSize := 2 }
        ({ values := #[7, 0, 5, 3], arity := 4, lanes := 1 } : InputRegion .i64) #[0] =
          .ok count written := by
  have hbuild : Catalog.build .full { element := .i64, instructions := some [.div], moves := some [] } =
      .ok ⟨#[.div .rcx true, .div .rsi true], .i64, false, Nat.two_pos, Nat.le_of_ble_eq_true rfl⟩ := rfl
  have hknown : Known ⟨#[.div .rcx true, .div .rsi true], .i64, false, Nat.two_pos,
      Nat.le_of_ble_eq_true rfl⟩ [2, 3] := by
    intro opcode hopcode
    simp at hopcode
    rcases hopcode with rfl | rfl
    · exact ⟨_, rfl⟩
    · exact ⟨_, rfl⟩
  obtain ⟨hfree, -⟩ := never_faults.2.2.2 _ _ _ rfl hbuild [2, 3] hknown
  have hcreate : Store.create 1 1 2 = .ok {
      threads := 1, perThread := 1, programSize := 2, slots := Array.replicate 4 Opcode.END
      initialized := false } := rfl
  have hreachable := (Store.Reachable.prepare hcreate rfl).set (rfl : Store.set _ 0 1 3 = .ok _)
  obtain ⟨values, hcall⟩ := hfree.call 4
    { layout := { element := .i64, rows := 1, arity := 4, lanes := 1, programs := 1 }
      body := [.div .rcx true, .div .rsi true] } rfl #[7, 0, 5, 3] rfl
  have hopcodes : ∀ opcode ∈ (#[2, 3, 0, 1] : Array Opcode), opcode.toNat < 4 := by simp
  obtain ⟨count, written, hrun⟩ := hfree.run _ 0 _ hreachable (by cbv) rfl hopcodes 1 4 1 1 _ false _
    rfl rfl { values := #[7, 0, 5, 3], arity := 4, lanes := 1 } #[0] rfl rfl (by decide)
  exact ⟨_, _, values, _, count, written, hbuild, hknown, rfl, hcall, rfl, hrun⟩

end Program

end LinearGP
