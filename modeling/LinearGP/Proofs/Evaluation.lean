import Mathlib
import LinearGP.Evaluation
import LinearGP.Proofs.Catalog.Opcodes
import LinearGP.Proofs.Layout.Transfer
import LinearGP.Proofs.Results

/-!
# What a program computes on all rows

`Program.outputs` runs a program on one row after the other, by itself and from cleared registers.
It is what every way of running programs is measured against.  The only thing that can go wrong with
instructions of a catalog is an unguarded division, which is what `Instruction.Stops` says.
-/

set_option autoImplicit false

namespace LinearGP

variable {k : ElementKind}

/-! ## Divisions that stop the machine -/

namespace Instruction

/-- An unguarded division stops the machine on the way. -/
def Stops (instructions : List Instruction) (s : Registers) : Prop :=
  ∃ before src after t, instructions = before ++ .div src false :: after ∧
    execAll before s = some t ∧ t.divide (t.gpr src) = none

/-- Running nothing changes nothing. -/
theorem execAll_nil (s : Registers) : execAll [] s = some s := rfl

/-- A run is its first instruction and then the rest. -/
theorem execAll_cons (i : Instruction) (rest : List Instruction) (s : Registers) :
    execAll (i :: rest) s = i.exec s >>= execAll rest := by
  simp only [execAll, List.foldlM_cons]
  rfl

/-- A division by anything but zero succeeds when the upper half of the dividend is zero. -/
theorem divide_isSome {s : Registers} {divisor : BitVec 64} (hrdx : s.rdx = 0)
    (hdivisor : divisor ≠ 0) : (s.divide divisor).isSome = true := by
  have hdividend : (s.rdx ++ s.rax).toNat = s.rax.toNat := by
    rw [hrdx, BitVec.toNat_append]
    simp
  have hquotient : s.rax.toNat / divisor.toNat < 0x10000000000000000 :=
    lt_of_le_of_lt (Nat.div_le_self _ _) s.rax.isLt
  unfold Registers.divide
  simp only [hdividend]
  rw [if_neg (by simp only [not_or, not_le]; exact ⟨hdivisor, hquotient⟩)]
  rfl

/-- Only an unguarded division stops the machine. -/
theorem exec_eq_none {i : Instruction} {s : Registers} (h : i.exec s = none) :
    ∃ src, i = .div src false ∧ s.divide (s.gpr src) = none := by
  cases i with
  | div src guarded =>
    cases guarded with
    | false => exact ⟨src, rfl, h⟩
    | true =>
      simp only [exec] at h
      split at h
      · simp at h
      · next hdivisor =>
        have hsome := divide_isSome (s := s.setGpr .rdx 0) rfl hdivisor
        exact absurd h (Option.isSome_iff_ne_none.mp hsome)
  | nop | int | unary | bitCount | float | moveAll | moveLow => simp [exec] at h

/-- The machine stops exactly at unguarded divisions. -/
theorem execAll_eq_none_iff {instructions : List Instruction} {s : Registers} :
    execAll instructions s = none ↔ Stops instructions s := by
  constructor
  · intro h
    induction instructions generalizing s with
    | nil => simp [execAll_nil] at h
    | cons i rest ih =>
        rw [execAll_cons] at h
        cases hi : i.exec s with
        | none =>
            obtain ⟨src, rfl, hdivide⟩ := exec_eq_none hi
            exact ⟨[], src, rest, s, rfl, rfl, hdivide⟩
        | some t =>
            rw [hi] at h
            obtain ⟨before, src, after, u, rfl, hbefore, hdivide⟩ := ih h
            refine ⟨i :: before, src, after, u, rfl, ?_, hdivide⟩
            rw [execAll_cons, hi]
            exact hbefore
  · rintro ⟨before, src, after, t, rfl, hbefore, hdivide⟩
    rw [execAll, List.foldlM_append, show before.foldlM (fun s i => i.exec s) s = some t from hbefore]
    show t.divide (t.gpr src) >>= _ = none
    rw [hdivide]
    rfl

end Instruction

/-! ## Opcodes that name instructions -/

namespace Program

/-- The instructions of a program are looked up one by one. -/
theorem instructions_eq_ok_iff (catalog : Catalog) (program : Program)
    (found : List Instruction) :
    program.instructions catalog = .ok found ↔
      List.Forall₂ (fun opcode i => catalog.instruction? opcode = some i) program found := by
  unfold instructions
  rw [mapM_eq_ok_iff]
  constructor
  · intro h
    refine h.imp fun opcode i hi => ?_
    cases hopcode : catalog.instruction? opcode <;> simp_all [refuse]
  · intro h
    refine h.imp fun opcode i hi => ?_
    rw [hi]

/-- A program names as many instructions as it has opcodes. -/
theorem length_instructions {catalog : Catalog} {program : Program} {found : List Instruction}
    (h : program.instructions catalog = .ok found) : found.length = program.length :=
  ((instructions_eq_ok_iff catalog program found).mp h).length_eq.symm

/-- Every opcode of the program names an instruction. -/
def Known (catalog : Catalog) (program : Program) : Prop :=
  ∀ opcode ∈ program, ∃ instruction, catalog.instruction? opcode = some instruction

/-- A program whose opcodes are all known has its instructions. -/
theorem Known.instructions {catalog : Catalog} {program : Program} (h : program.Known catalog) :
    ∃ found, program.instructions catalog = .ok found := by
  apply exists_mapM_eq_ok
  intro opcode hopcode
  obtain ⟨i, hi⟩ := h opcode hopcode
  exact ⟨i, by rw [hi]⟩

/-- The opcodes of a program that has its instructions are all known. -/
theorem known_of_instructions {catalog : Catalog} {program : Program} {found : List Instruction}
    (h : program.instructions catalog = .ok found) : program.Known catalog := by
  intro opcode hopcode
  obtain ⟨n, hn, rfl⟩ := List.getElem_of_mem hopcode
  have hforall := (instructions_eq_ok_iff catalog program found).mp h
  exact ⟨_, hforall.get hn (hforall.length_eq ▸ hn)⟩

/-- The instructions of a program are instructions of the catalog. -/
theorem mem_of_instructions {catalog : Catalog} {program : Program} {found : List Instruction}
    (h : program.instructions catalog = .ok found) {i : Instruction} (hi : i ∈ found) :
    i ∈ catalog.instructions := by
  have hforall := (instructions_eq_ok_iff catalog program found).mp h
  obtain ⟨n, hn, rfl⟩ := List.getElem_of_mem hi
  exact Catalog.mem_of_instruction? (hforall.get (hforall.length_eq ▸ hn) hn)

/-- Programs of a catalog without unguarded divisions never stop the machine. -/
theorem not_stops {catalog : Catalog} (hsafe : ∀ i ∈ catalog.instructions, i.isUnsafe = false)
    {program : Program} {instructions : List Instruction}
    (hinstructions : program.instructions catalog = .ok instructions) (s : Registers) :
    ¬ Instruction.Stops instructions s := by
  rintro ⟨before, src, after, t, rfl, -, -⟩
  have hdivision : Instruction.div src false ∈ catalog.instructions :=
    mem_of_instructions hinstructions (by simp)
  simpa [Instruction.isUnsafe] using hsafe _ hdivision

end Program

/-! ## Rows -/

namespace Layout

/-- The outputs of instructions for `count` rows from a row on, if the machine does not stop. -/
def evaluateRows (l : Layout) (instructions : List Instruction) (inputs : Array k.Value) :
    (row count : Nat) → Option (List k.Value)
  | _, 0 => some []
  | row, count + 1 => do
    let values ← l.evaluate instructions inputs row
    let rest ← l.evaluateRows instructions inputs (row + 1) count
    return values ++ rest

/-- The evaluation of a row gives one value for every lane. -/
theorem length_evaluate {l : Layout} (h : l.Accepted) {instructions : List Instruction}
    {inputs : Array k.Value} {row : Nat} {values : List k.Value}
    (hvalues : l.evaluate instructions inputs row = some values) : values.length = l.lanes := by
  obtain ⟨s, -, rfl⟩ := Option.map_eq_some_iff.mp hvalues
  exact length_readOutput h s

/-- The machine stops on a run over rows exactly when it stops on one of them. -/
theorem evaluateRows_isSome_iff (l : Layout) (instructions : List Instruction)
    (inputs : Array k.Value) (row count : Nat) :
    (l.evaluateRows instructions inputs row count).isSome = true ↔
      ∀ i < count, (l.evaluate instructions inputs (row + i)).isSome = true := by
  induction count generalizing row with
  | zero => simp [evaluateRows]
  | succ count ih =>
      have hsplit : (l.evaluateRows instructions inputs row (count + 1)).isSome = true ↔
          (l.evaluate instructions inputs row).isSome = true ∧
            (l.evaluateRows instructions inputs (row + 1) count).isSome = true := by
        rw [evaluateRows]
        cases l.evaluate instructions inputs row with
        | none => simp
        | some values => cases l.evaluateRows instructions inputs (row + 1) count <;> simp
      rw [hsplit, ih]
      constructor
      · rintro ⟨hfirst, hrest⟩ i hi
        cases i with
        | zero => exact hfirst
        | succ i =>
            have := hrest i (by omega)
            rwa [Nat.add_assoc, Nat.add_comm 1] at this
      · intro hall
        refine ⟨hall 0 (by omega), fun i hi => ?_⟩
        have := hall (i + 1) (by omega)
        rwa [Nat.add_assoc, Nat.add_comm 1]

/-- Outputs stand in row and lane order. -/
theorem evaluateRows_eq_some {l : Layout} (h : l.Accepted) {instructions : List Instruction}
    {inputs : Array k.Value} {row count : Nat} {values : List k.Value}
    (hvalues : l.evaluateRows instructions inputs row count = some values) :
    values.length = count * l.lanes ∧
      ∀ i < count, ∃ output, l.evaluate instructions inputs (row + i) = some output ∧
        ∀ lane < l.lanes, values[i * l.lanes + lane]? = output[lane]? := by
  induction count generalizing row values with
  | zero =>
      simp only [evaluateRows, Option.some.injEq] at hvalues
      subst hvalues
      simp
  | succ count ih =>
      rw [evaluateRows] at hvalues
      cases hfirst : l.evaluate instructions inputs row with
      | none => simp [hfirst] at hvalues
      | some first =>
          cases hrest : l.evaluateRows instructions inputs (row + 1) count with
          | none => simp [hfirst, hrest] at hvalues
          | some rest =>
              simp only [hfirst, hrest, bind, Option.bind_some, pure, Option.some.injEq] at hvalues
              subst hvalues
              have hlength := length_evaluate h hfirst
              obtain ⟨hcount, hrows⟩ := ih hrest
              refine ⟨by rw [List.length_append, hlength, hcount]; ring, fun i hi => ?_⟩
              cases i with
              | zero =>
                  refine ⟨first, hfirst, fun lane hlane => ?_⟩
                  rw [Nat.zero_mul, Nat.zero_add, List.getElem?_append_left (by omega)]
              | succ i =>
                  obtain ⟨output, houtput, hlanes⟩ := hrows i (by omega)
                  refine ⟨output, ?_, fun lane hlane => ?_⟩
                  · rw [← houtput]
                    congr 1
                    omega
                  · have hplace : (i + 1) * l.lanes + lane = first.length + (i * l.lanes + lane) := by
                      rw [hlength]
                      ring
                    rw [hplace, List.getElem?_append_right (by omega), Nat.add_sub_cancel_left]
                    exact hlanes lane hlane

/-- A row starts from the inputs of that row and no others. -/
theorem initialRegisters_rowInputs (l : Layout) (inputs : Array k.Value) (row : Nat) :
    l.initialRegisters (l.rowInputs inputs row) 0 = l.initialRegisters inputs row := by
  have hcolumn : ∀ column < l.arity,
      l.columnValues (l.rowInputs inputs row) 0 column = l.columnValues inputs row column := by
    intro column hc
    unfold columnValues
    apply List.map_congr_left
    intro lane hlane
    have hin := mul_add_lt_mul hc (List.mem_range.mp hlane)
    have hplace : row * (l.arity * l.lanes) + (column * l.lanes + lane) =
        (row * l.arity + column) * l.lanes + lane := by ring
    rw [Array.getD_eq_getD_getElem?, Array.getD_eq_getD_getElem?, rowInputs,
      Array.getElem?_extract, Nat.zero_mul, Nat.zero_add, hplace]
    by_cases hsize : (row * l.arity + column) * l.lanes + lane < inputs.size
    · rw [if_pos]
      rw [Nat.succ_mul]
      omega
    · rw [Array.getElem?_eq_none (Nat.le_of_not_lt hsize)]
      split <;> rfl
  unfold initialRegisters
  apply List.foldl_ext
  intro s column hc
  rw [hcolumn column (List.mem_range.mp hc)]

/-- Evaluation of a row needs the inputs of this row only. -/
theorem evaluate_rowInputs (l : Layout) (instructions : List Instruction) (inputs : Array k.Value)
    (row : Nat) :
    l.evaluate instructions (l.rowInputs inputs row) 0 = l.evaluate instructions inputs row := by
  unfold evaluate
  rw [initialRegisters_rowInputs]

end Layout

/-! ## Programs -/

/-- The outputs of a program for all rows, in row and lane order, when it is run by itself. -/
def Program.outputs (catalog : Catalog) (l : Layout) (inputs : Array k.Value) (program : Program) :
    Except Failure (List k.Value) :=
  match program.instructions catalog with
  | .error failure => .error failure
  | .ok instructions =>
    match l.evaluateRows instructions inputs 0 l.rows with
    | some values => .ok values
    | none => breach .divideError

namespace Program

variable {catalog : Catalog} {l : Layout} {inputs : Array k.Value}

/-- A program has outputs when all its opcodes are known and it stops on no row. -/
theorem outputs_eq_ok_iff {program : Program} {values : List k.Value} :
    program.outputs catalog l inputs = .ok values ↔
      ∃ instructions, program.instructions catalog = .ok instructions ∧
        l.evaluateRows instructions inputs 0 l.rows = some values := by
  unfold outputs
  cases program.instructions catalog with
  | error failure => simp
  | ok instructions => cases h : l.evaluateRows instructions inputs 0 l.rows <;> simp [breach, h]

/-- The outputs of a program fill its part of the output region. -/
theorem length_outputs (hl : l.Accepted) {program : Program} {values : List k.Value}
    (h : program.outputs catalog l inputs = .ok values) :
    values.length = l.outputsPerProgram := by
  obtain ⟨instructions, -, hrows⟩ := outputs_eq_ok_iff.mp h
  exact (Layout.evaluateRows_eq_some hl hrows).1

/-- Each of several programs fills its part of the output region. -/
theorem length_of_mem_outputs (hl : l.Accepted) {programs : List Program}
    {values : List (List k.Value)} (h : programs.mapM (outputs catalog l inputs) = .ok values) :
    ∀ output ∈ values, output.length = l.outputsPerProgram := by
  have hforall := mapM_eq_ok_iff.mp h
  clear h
  induction hforall with
  | nil => simp
  | cons hfirst _ ih =>
      intro output houtput
      rcases List.mem_cons.mp houtput with rfl | hrest
      · exact length_outputs hl hfirst
      · exact ih output hrest

/-- A program has outputs unless it stops the machine on some row. -/
theorem exists_outputs_iff {program : Program} {instructions : List Instruction}
    (hinstructions : program.instructions catalog = .ok instructions) :
    (∃ values, program.outputs catalog l inputs = .ok values) ↔
      ∀ row < l.rows, ¬ Instruction.Stops instructions (l.initialRegisters inputs row) := by
  have hsome : (∃ values, program.outputs catalog l inputs = .ok values) ↔
      (l.evaluateRows instructions inputs 0 l.rows).isSome = true := by
    simp only [outputs_eq_ok_iff, hinstructions, Except.ok.injEq, exists_eq_left',
      Option.isSome_iff_exists]
  rw [hsome, Layout.evaluateRows_isSome_iff]
  refine forall₂_congr fun row _ => ?_
  rw [Nat.zero_add, Layout.evaluate, Option.isSome_map, Option.isSome_iff_ne_none, ne_eq,
    Instruction.execAll_eq_none_iff]

/-- A program of known opcodes can only fail by a division. -/
theorem outputs_eq_error {program : Program} {instructions : List Instruction}
    (hinstructions : program.instructions catalog = .ok instructions) {failure : Failure}
    (h : program.outputs catalog l inputs = .error failure) : failure = .breach .divideError := by
  unfold outputs at h
  rw [hinstructions] at h
  simp only at h
  split at h
  · cases h
  · injection h with h
    exact h.symm

/-- Outputs of several programs stand in program, row and lane order. -/
theorem getElem?_flatten_outputs (hl : l.Accepted) {programs : List Program}
    {values : List (List k.Value)} (h : programs.mapM (outputs catalog l inputs) = .ok values)
    {p : Nat} {program : Program} (hprogram : programs[p]? = some program) {row : Nat}
    (hrow : row < l.rows) :
    ∃ instructions output, program.instructions catalog = .ok instructions ∧
      l.evaluate instructions inputs row = some output ∧
      ∀ lane < l.lanes,
        values.flatten[(p * l.rows + row) * l.lanes + lane]? = output[lane]? := by
  have hforall := mapM_eq_ok_iff.mp h
  obtain ⟨hp, hprogram⟩ := List.getElem?_eq_some_iff.mp hprogram
  have hp' : p < values.length := hforall.length_eq ▸ hp
  have houtputs := hforall.get hp hp'
  simp only [List.get_eq_getElem, hprogram] at houtputs
  obtain ⟨instructions, hinstructions, hrows⟩ := outputs_eq_ok_iff.mp houtputs
  obtain ⟨output, houtput, hlanes⟩ := (Layout.evaluateRows_eq_some hl hrows).2 row hrow
  rw [Nat.zero_add] at houtput
  refine ⟨instructions, output, hinstructions, houtput, fun lane hlane => ?_⟩
  have hplace : (p * l.rows + row) * l.lanes + lane =
      p * l.outputsPerProgram + (row * l.lanes + lane) := by
    unfold Layout.outputsPerProgram
    ring
  have hin : row * l.lanes + lane < l.outputsPerProgram := mul_add_lt_mul hrow hlane
  rw [hplace, getElem?_flatten (length_of_mem_outputs hl h) hin, List.getElem?_eq_getElem hp']
  exact hlanes lane hlane

end Program

end LinearGP
