import Mathlib
import LinearGP.Proofs.Evaluation
import LinearGP.Proofs.Liveness
import LinearGP.Standalone

/-!
# Compiled programs compute what plain evaluation computes

A program that is compiled on its own loads and stores like threaded code for a single row does, so
`call_eq` needs no more than what `Layout.Accepted` promises.  The outputs only depend on the output
register in its output range, which is why a program without its introns has the same ones.
-/

set_option autoImplicit false

namespace LinearGP

variable {k : ElementKind}

namespace Layout

/-- The same layout for one row and one program. -/
def single (l : Layout) : Layout := { l with rows := 1, programs := 1 }

/-- A single row and program of an accepted layout are accepted as well. -/
theorem Accepted.single {l : Layout} (h : l.Accepted) : l.single.Accepted := by
  have hrows := h.rows_pos
  have houtput : l.single.outputProgramStride ≤ l.outputProgramStride := by
    unfold outputProgramStride
    exact Nat.mul_le_mul_right _ hrows
  have hinput : l.single.rows * l.single.inputRowStride ≤ l.rows * l.inputRowStride :=
    Nat.mul_le_mul_right _ hrows
  exact {
    rows_pos := Nat.one_pos
    arity_pos := h.arity_pos
    programs_pos := Nat.one_pos
    arity_le := h.arity_le
    lanes_eq := h.lanes_eq
    inputRow_lt := h.inputRow_lt
    outputProgram_lt := lt_of_le_of_lt houtput h.outputProgram_lt
    inputs_lt := lt_of_le_of_lt hinput h.inputs_lt }

/-- The output of a scalar layout includes every bit of an element. -/
theorem holds_outputRange {l : Layout} (hvector : l.isVectorized = false) {b : Nat}
    (hb : b < l.element.bits) : l.outputRange.Holds b := by
  have hrange : l.outputRange.start = 0 ∧ l.outputRange.stop = l.element.bits := by
    unfold outputRange
    rw [if_neg (by simp [hvector])]
    cases l.element <;> exact ⟨rfl, rfl⟩
  exact ⟨by omega, by omega⟩

/-- The outputs depend on the output register, and on no bits outside its output range. -/
theorem readOutput_eq_of_agreeAt {l : Layout} (h : l.Accepted) {s t : Registers}
    (hagree : s.AgreeAt t l.outputRegister l.outputRange) :
    l.readOutput l.element s = l.readOutput l.element t := by
  unfold readOutput outputRegister at *
  cases hx : l.usesXmm with
  | false =>
      have hvector : l.isVectorized = false := by
        unfold usesXmm at hx
        simp only [Bool.or_eq_false_iff] at hx
        exact hx.2
      simp only [hx, Bool.false_eq_true, if_false] at hagree ⊢
      congr 1
      apply BitVec.eq_of_getLsbD_eq
      intro b hb
      have hbit : (s.gpr .rax).getLsbD b = (t.gpr .rax).getLsbD b :=
        hagree b (holds_outputRange hvector hb)
      rw [BitVec.getLsbD_setWidth, BitVec.getLsbD_setWidth, hbit]
  | true =>
      simp only [hx, if_true] at hagree ⊢
      unfold toLanes
      apply List.map_congr_left
      intro i hi
      apply lane_eq_of_bits
      intro b _ hb
      apply hagree
      cases hvector : l.isVectorized with
      | true =>
          have hlanes := h.lanes_mul_bits_le
          have hle : l.element.bits * (i + 1) ≤ l.element.bits * l.lanes :=
            Nat.mul_le_mul_left _ (List.mem_range.mp hi)
          rw [Nat.mul_succ] at hle
          unfold outputRange
          rw [if_pos hvector]
          exact ⟨Nat.zero_le b, by show b < 128; omega⟩
      | false =>
          have hone : l.lanes ≤ 1 := by
            unfold isVectorized at hvector
            simpa using hvector
          have hzero : i = 0 := by
            have := List.mem_range.mp hi
            omega
          subst hzero
          exact holds_outputRange hvector (by simpa using hb)

/-- Without its introns a program has the same outputs. -/
theorem exists_eliminateIntrons_evaluate {l : Layout} (h : l.Accepted) (hk : l.element = k)
    {catalog : Catalog} (hmoves : catalog.MovesScalar) {program : Program}
    {instructions : List Instruction} (hprogram : program.instructions catalog = .ok instructions) :
    ∃ kept keptInstructions,
      program.eliminateIntrons catalog.accessTable l.outputRegister l.outputRange = .ok kept ∧
      kept.instructions catalog = .ok keptInstructions ∧
      ∀ (inputs : Array k.Value) (row : Nat) (values : List k.Value),
        l.evaluate instructions inputs row = some values →
          l.evaluate keptInstructions inputs row = some values := by
  subst hk
  obtain ⟨kept, keptInstructions, helim, hkept, hruns⟩ :=
    Program.exists_eliminateIntrons hmoves hprogram l.outputRegister l.outputRange
  refine ⟨kept, keptInstructions, helim, hkept, ?_⟩
  intro inputs row values hvalues
  obtain ⟨t, ht, rfl⟩ := Option.map_eq_some_iff.mp hvalues
  obtain ⟨u, hu, hagree⟩ := hruns _ t ht
  rw [evaluate, hu, Option.map_some, readOutput_eq_of_agreeAt h hagree]

/-- An accepted layout has the lanes that its kind says. -/
theorem Accepted.lanes_eq_ite {l : Layout} (h : l.Accepted) :
    l.lanes = if l.isVectorized then l.element.lanes else 1 := by
  have hpos := h.lanes_pos
  unfold isVectorized
  rcases h.lanes_eq with hl | ⟨hl, -⟩
  · simp [hl]
  · by_cases hone : 1 < l.lanes
    · rw [if_pos (by simpa using hone), hl]
    · rw [if_neg (by simpa using hone)]
      omega

/-- One row of up to four columns fits any region. -/
theorem accepted_of_row {k : ElementKind} {arity lanes : Nat} (hpos : 0 < arity) (hle : arity ≤ 4)
    (hlanes : lanes = 1 ∨ lanes = k.lanes ∧ k.isFloat = true) :
    ({ element := k, rows := 1, arity, lanes, programs := 1 } : Layout).Accepted := by
  have hbytes : lanes * k.size ≤ 16 := by
    rcases hlanes with rfl | ⟨rfl, -⟩ <;> cases k <;> decide
  have hrow : arity * (lanes * k.size) ≤ 4 * 16 := Nat.mul_le_mul hle hbytes
  exact {
    rows_pos := Nat.one_pos
    arity_pos := hpos
    programs_pos := Nat.one_pos
    arity_le := hle
    lanes_eq := hlanes
    inputRow_lt := show arity * (lanes * k.size) < _ by omega
    outputProgram_lt := show 1 * (lanes * k.size) < _ by omega
    inputs_lt := show 1 * (arity * (lanes * k.size)) < _ by omega }

end Layout

namespace CompiledProgram

/-- A program compiles when its inputs fit the register file and its opcodes are known. -/
theorem compile_eq_ok_iff {catalog : Catalog} {program : Program} {arity : Nat}
    {c : CompiledProgram k} : compile k catalog program arity = .ok c ↔
    catalog.element = k ∧
      Layout.ofDimensions k 1 arity (if catalog.vectorized then k.lanes else 1) 1 = .ok c.layout ∧
      program.instructions catalog = .ok c.body := by
  unfold compile
  by_cases helement : catalog.element = k
  · rw [if_neg (not_not.mpr helement)]
    simp only [bind_eq_ok_iff]
    constructor
    · rintro ⟨layout, hlayout, body, hbody, hc⟩
      cases hc
      exact ⟨helement, hlayout, hbody⟩
    · rintro ⟨-, hlayout, hbody⟩
      exact ⟨c.layout, hlayout, c.body, hbody, rfl⟩
  · rw [if_pos helement]
    simp [helement, refuse]

/-- For the rows of a layout of the catalog, a program compiles to its instructions. -/
theorem compile_eq {l : Layout} (hl : l.Accepted) (hk : l.element = k) {catalog : Catalog}
    (helement : catalog.element = l.element) (hvectorized : catalog.vectorized = l.isVectorized)
    (program : Program) : compile k catalog program l.arity =
      (program.instructions catalog).map fun body => { layout := l.single, body } := by
  have hlanes : (if catalog.vectorized then k.lanes else 1) = l.lanes := by
    rw [hl.lanes_eq_ite, hvectorized, hk]
  have hlayout : Layout.ofDimensions k 1 l.arity l.lanes 1 = .ok l.single := by
    refine (Layout.ofDimensions_eq_ok_iff k 1 l.arity l.lanes 1 l.single).mpr ⟨?_, hl.single⟩
    subst hk
    rfl
  unfold compile
  rw [if_neg (by simp [helement, hk])]
  simp only [hlanes, hlayout, bind, Except.bind]
  cases program.instructions catalog <;> rfl

/-- A compiled program evaluates its instructions on the row it is called with. -/
theorem call_eq {c : CompiledProgram k} {l : Layout} (hl : l.Accepted) (hk : l.element = k)
    (hlayout : c.layout = l.single) {inputs : Array k.Value}
    (hsize : inputs.size = l.arity * l.lanes) :
    c.call inputs =
      match l.evaluate c.body inputs 0 with
      | none => breach .divideError
      | some values => .ok values.toArray := by
  have hsingle := hl.single
  have hlength : inputs.size = l.single.inputLength := by
    rw [hsize]
    simp [Layout.inputLength, Layout.single]
  have hrow : 0 < l.single.rows := Nat.one_pos
  have hload := fun e : Engine k => Layout.execAll_loadOps hsingle hk inputs hlength hrow e
  unfold call
  rw [hlayout, if_neg (by simp [hlength])]
  simp only [bind, Except.bind]
  rw [hload _ rfl]
  simp only
  have hstart : l.single.initialRegisters inputs 0 = l.initialRegisters inputs 0 := rfl
  rw [hstart]
  unfold Layout.evaluate
  cases Instruction.execAll c.body (l.initialRegisters inputs 0) with
  | none => rfl
  | some registers =>
      -- the output of a call fills the buffer that it is written to
      have hlanes : (Array.replicate c.lanes (0 : k.Value)).size = l.lanes := by
        rw [Array.size_replicate, CompiledProgram.lanes, hlayout]
        rfl
      have hstride : l.lanes * k.size < 0x80000000 := by
        have hlt := hsingle.outputProgram_lt
        rw [Layout.outputProgramStride, Layout.outputRowStride] at hlt
        subst hk
        simpa [Layout.single] using hlt
      have hstore := fun e : Engine k =>
        Layout.execAll_storeOps hsingle hk inputs (show 0 < 1 from Nat.one_pos) hrow e
      simp only [Option.map_some]
      rw [hstore _ rfl (by simp)
        (by rw [hlanes]; simp [Layout.outputsPerProgram, Layout.single]) (by rw [hlanes]; omega)]
      simp only [pure, Except.pure]
      rw [Nat.zero_mul, Nat.zero_add, Nat.zero_mul, writeAll_full]
      · rfl
      · rw [hlanes, Layout.length_readOutput hsingle]
        rfl

/-- A call with the inputs of a row returns the outputs of that row, unless the machine stops. -/
theorem exists_call {catalog : Catalog} {program : Program} {arity : Nat} {c : CompiledProgram k}
    (hcompile : compile k catalog program arity = .ok c)
    {inputs : Array k.Value} (hsize : inputs.size = c.arity * c.lanes)
    (hstops : ¬ Instruction.Stops c.body (c.layout.initialRegisters inputs 0)) :
    ∃ values, c.call inputs = .ok values := by
  obtain ⟨-, hlayout, -⟩ := compile_eq_ok_iff.mp hcompile
  obtain ⟨hdimensions, hl⟩ := (Layout.ofDimensions_eq_ok_iff _ _ _ _ _ _).mp hlayout
  have hk : c.layout.element = k := by rw [hdimensions]
  have hsingle : c.layout = c.layout.single := by rw [hdimensions]; rfl
  have hcall := call_eq hl hk hsingle hsize
  cases hvalues : c.layout.evaluate c.body inputs 0 with
  | none =>
      rw [Layout.evaluate, Option.map_eq_none_iff, Instruction.execAll_eq_none_iff] at hvalues
      exact absurd hvalues hstops
  | some values =>
      rw [hvalues] at hcall
      exact ⟨_, hcall⟩

end CompiledProgram

end LinearGP
