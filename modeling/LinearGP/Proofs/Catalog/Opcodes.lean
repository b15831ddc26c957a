import Mathlib
import LinearGP.Catalog.Basic

/-!
# The opcodes of a catalog

Opcodes are 16 bit numbers, and the instruction at position `n` of a catalog has the opcode `n + 2`.
A catalog holds at most 65533 instructions, so neither the opcodes nor their number leave the 16 bits,
and `Numbering` can say what each look-up does in plain numbers.  It holds of every catalog that
`ofInstructions` accepts, duplicates or not.
-/

set_option autoImplicit false

namespace LinearGP

/-- Opcodes from the first one on are no sentinels. -/
theorem Opcode.isSentinel_eq_false {opcode : Opcode} (h : first ≤ opcode) :
    opcode.isSentinel = false :=
  decide_eq_false (UInt16.not_lt.mpr h)

/-- The regular opcodes are those from the third one on. -/
theorem Opcode.isSentinel_eq_false_iff {opcode : Opcode} :
    opcode.isSentinel = false ↔ 2 ≤ opcode.toNat := by
  unfold isSentinel first
  rw [decide_eq_false_iff_not, UInt16.not_lt, UInt16.le_iff_toNat_le]
  rfl

namespace Catalog

/-- How the opcodes of a catalog and the positions of its instructions belong together. -/
structure Numbering (c : Catalog) : Prop where
  /-- The number of opcodes fits 16 bits itself. -/
  opcodeCount_eq : c.opcodeCount = c.instructions.size + 2
  opcodeCount_le : c.opcodeCount ≤ 65535
  toNat_endOpcode : c.endOpcode.toNat = c.opcodeCount
  /-- The opcodes of instructions are those from the first regular one up to the end. -/
  instruction_iff : ∀ opcode, (∃ i, c.instruction? opcode = some i) ↔
    Opcode.first ≤ opcode ∧ opcode < c.endOpcode
  bounds : ∀ opcode, Opcode.first ≤ opcode → opcode < c.endOpcode →
    2 ≤ opcode.toNat ∧ opcode.toNat < c.opcodeCount
  /-- Every position has its opcode. -/
  position : ∀ (n : Nat) (i : Instruction), c.instructions[n]? = some i ↔
    ∃ opcode : Opcode, opcode.toNat = n + 2 ∧ c.instruction? opcode = some i
  /-- The entries go through the positions once, each with its opcode. -/
  entries_eq : c.entries.map (fun entry => (entry.1.toNat, entry.2)) =
    (List.range' 2 c.instructions.size).zip c.instructions.toList
  entries_instruction : ∀ entry ∈ c.entries, c.instruction? entry.1 = some entry.2
  /-- The opcode of an instruction is two above its first position. -/
  opcode_toNat : ∀ i, (c.opcode? i).map (·.toNat) = (c.instructions.findIdx? (· = i)).map (· + 2)
  /-- It is the least of all opcodes that name the instruction. -/
  opcode_iff : ∀ i opcode, c.opcode? i = some opcode ↔
    c.instruction? opcode = some i ∧ ∀ other, c.instruction? other = some i → opcode ≤ other
  opcode_none : ∀ i, c.opcode? i = none ↔ ∀ opcode, c.instruction? opcode ≠ some i

variable {c : Catalog} {opcode : Opcode} {i : Instruction}

/-! ## Numbers that fit 16 bits -/

/-- The end of the opcodes is their number, the sentinels included. -/
theorem toNat_endOpcode (c : Catalog) : c.endOpcode.toNat = c.opcodeCount := by
  have hsize := c.size_le
  unfold endOpcode opcodeCount size
  rw [UInt16.toNat_ofNat', Nat.mod_eq_of_lt (by omega)]

/-- A catalog has an opcode that is no sentinel. -/
theorem first_lt_endOpcode (c : Catalog) : Opcode.first < c.endOpcode := by
  have hsize := c.size_pos
  rw [UInt16.lt_iff_toNat_lt, toNat_endOpcode]
  show 2 < c.instructions.size + 2
  omega

/-- The opcode of a position. -/
theorem toNat_opcodeAt {n : Nat} (hn : n < c.instructions.size) :
    (UInt16.ofNat (n + 2)).toNat = n + 2 := by
  have hsize := c.size_le
  rw [UInt16.toNat_ofNat', Nat.mod_eq_of_lt (by omega)]

/-- The same opcode, with the offset added in 16 bits. -/
theorem ofNat_add_first (n : Nat) : UInt16.ofNat n + Opcode.first = UInt16.ofNat (n + 2) := by
  rw [UInt16.ofNat_add]
  rfl

/-- The opcodes of instructions, as numbers. -/
theorem mem_opcodes_iff : Opcode.first ≤ opcode ∧ opcode < c.endOpcode ↔
    2 ≤ opcode.toNat ∧ opcode.toNat < c.opcodeCount := by
  rw [UInt16.le_iff_toNat_le, UInt16.lt_iff_toNat_lt, toNat_endOpcode]
  rfl

/-! ## Look-ups -/

/-- An opcode names the instruction two positions below it. -/
theorem instruction?_eq_some_iff : c.instruction? opcode = some i ↔
    ∃ n, opcode.toNat = n + 2 ∧ c.instructions[n]? = some i := by
  unfold instruction?
  cases hsentinel : opcode.isSentinel with
  | true =>
      have hlow : ¬ 2 ≤ opcode.toNat := fun hregular => by
        simp [Opcode.isSentinel_eq_false_iff.mpr hregular] at hsentinel
      rw [if_pos rfl]
      constructor
      · rintro ⟨⟩
      · rintro ⟨n, hn, -⟩
        omega
  | false =>
      have hregular := Opcode.isSentinel_eq_false_iff.mp hsentinel
      rw [if_neg Bool.false_ne_true]
      constructor
      · exact fun h => ⟨opcode.toNat - 2, by omega, h⟩
      · rintro ⟨n, hn, h⟩
        rwa [show opcode.toNat - 2 = n by omega]

/-- The instruction at a position is named by the opcode of the position. -/
theorem instruction?_opcodeAt {n : Nat} (h : c.instructions[n]? = some i) :
    c.instruction? (UInt16.ofNat (n + 2)) = some i :=
  instruction?_eq_some_iff.mpr
    ⟨n, toNat_opcodeAt (Array.getElem?_eq_some_iff.mp h).1, h⟩

/-- The opcodes with an instruction are those between the sentinels and the end. -/
theorem exists_instruction?_iff : (∃ i, c.instruction? opcode = some i) ↔
    Opcode.first ≤ opcode ∧ opcode < c.endOpcode := by
  have hcount : c.opcodeCount = c.instructions.size + 2 := rfl
  rw [mem_opcodes_iff]
  constructor
  · rintro ⟨i, h⟩
    obtain ⟨n, hn, hi⟩ := instruction?_eq_some_iff.mp h
    have hin := (Array.getElem?_eq_some_iff.mp hi).1
    omega
  · rintro ⟨hlow, hhigh⟩
    have hin : opcode.toNat - 2 < c.instructions.size := by omega
    exact ⟨_, instruction?_eq_some_iff.mpr
      ⟨opcode.toNat - 2, by omega, Array.getElem?_eq_getElem hin⟩⟩

/-- An instruction that was found by opcode is one of the catalog. -/
theorem mem_of_instruction? (h : c.instruction? opcode = some i) : i ∈ c.instructions := by
  obtain ⟨n, -, hi⟩ := instruction?_eq_some_iff.mp h
  exact Array.mem_of_getElem? hi

/-- Regular opcodes below the number of opcodes name an instruction. -/
theorem exists_instruction (hregular : opcode.isSentinel = false)
    (hknown : opcode.toNat < c.opcodeCount) : ∃ i, c.instruction? opcode = some i :=
  exists_instruction?_iff.mpr
    (mem_opcodes_iff.mpr ⟨Opcode.isSentinel_eq_false_iff.mp hregular, hknown⟩)

/-- The opcode of an instruction is that of its first position. -/
theorem opcode?_eq (c : Catalog) (i : Instruction) : c.opcode? i =
    (c.instructions.findIdx? (· = i)).map fun n => UInt16.ofNat (n + 2) := by
  unfold opcode?
  simp only [ofNat_add_first]

/-- The opcode found for an instruction is the lowest one that names it. -/
theorem opcode?_eq_some_iff : c.opcode? i = some opcode ↔
    c.instruction? opcode = some i ∧ ∀ other, c.instruction? other = some i → opcode ≤ other := by
  rw [opcode?_eq, Option.map_eq_some_iff]
  constructor
  · rintro ⟨n, hfirst, rfl⟩
    obtain ⟨hn, hat, hbefore⟩ := Array.findIdx?_eq_some_iff_getElem.mp hfirst
    have hi : c.instructions[n]? = some i := by
      rw [Array.getElem?_eq_getElem hn, of_decide_eq_true hat]
    refine ⟨instruction?_opcodeAt hi, fun other hother => ?_⟩
    obtain ⟨m, hm, hmi⟩ := instruction?_eq_some_iff.mp hother
    obtain ⟨hmlt, hat'⟩ := Array.getElem?_eq_some_iff.mp hmi
    rw [UInt16.le_iff_toNat_le, toNat_opcodeAt hn, hm]
    by_contra hlt
    exact hbefore m (by omega) (decide_eq_true hat')
  · rintro ⟨hopcode, hleast⟩
    obtain ⟨n, hn, hi⟩ := instruction?_eq_some_iff.mp hopcode
    obtain ⟨hin, hat⟩ := Array.getElem?_eq_some_iff.mp hi
    refine ⟨n, Array.findIdx?_eq_some_iff_getElem.mpr ⟨hin, decide_eq_true hat, ?_⟩, ?_⟩
    · intro m hm hat'
      have hmi : c.instructions[m]? = some i := by
        rw [Array.getElem?_eq_getElem (by omega), of_decide_eq_true hat']
      have hle := hleast _ (instruction?_opcodeAt hmi)
      rw [UInt16.le_iff_toNat_le, toNat_opcodeAt (c := c) (by omega)] at hle
      omega
    · rw [← UInt16.toNat_inj, toNat_opcodeAt hin, hn]

/-- No opcode is found for an instruction that no opcode names. -/
theorem opcode?_eq_none_iff :
    c.opcode? i = none ↔ ∀ opcode, c.instruction? opcode ≠ some i := by
  rw [opcode?_eq, Option.map_eq_none_iff, Array.findIdx?_eq_none_iff]
  constructor
  · intro h opcode hopcode
    obtain ⟨n, -, hi⟩ := instruction?_eq_some_iff.mp hopcode
    exact of_decide_eq_false (h i (Array.mem_of_getElem? hi)) rfl
  · intro h j hj
    obtain ⟨n, hn, rfl⟩ := Array.mem_iff_getElem.mp hj
    refine decide_eq_false fun heq => h _ (instruction?_opcodeAt (n := n) ?_)
    rw [Array.getElem?_eq_getElem hn, heq]

/-! ## Entries -/

/-- The opcodes of instructions are those of the positions. -/
theorem opcodes_eq (c : Catalog) : c.opcodes =
    (List.range' 2 c.instructions.size).map UInt16.ofNat := by
  unfold opcodes
  rw [toNat_endOpcode]
  rfl

/-- The entry of a position. -/
theorem getElem?_entries (c : Catalog) (n : Nat) : c.entries[n]? =
    (c.instructions[n]?).map fun i => (UInt16.ofNat (n + 2), i) := by
  rw [entries, opcodes_eq, List.zip, List.getElem?_zipWith, List.getElem?_map]
  by_cases hn : n < c.instructions.size
  · rw [List.getElem?_range' hn, Array.getElem?_toList, Array.getElem?_eq_getElem hn]
    simp only [Option.map_some, Nat.one_mul, Nat.add_comm]
  · simp [Array.getElem?_eq_none (Nat.le_of_not_lt hn)]

/-- The entries go through the instructions in order, numbered from two on. -/
theorem entries_eq (c : Catalog) : c.entries.map (fun entry => (entry.1.toNat, entry.2)) =
    (List.range' 2 c.instructions.size).zip c.instructions.toList := by
  apply List.ext_getElem?
  intro n
  rw [List.getElem?_map, getElem?_entries, List.zip, List.getElem?_zipWith]
  by_cases hn : n < c.instructions.size
  · rw [List.getElem?_range' hn, Array.getElem?_toList, Array.getElem?_eq_getElem hn]
    simp only [Option.map_some, toNat_opcodeAt hn, Nat.one_mul, Nat.add_comm]
  · simp [Array.getElem?_eq_none (Nat.le_of_not_lt hn)]

/-- An entry pairs an opcode with the instruction that it names. -/
theorem instruction?_of_mem_entries {entry : Opcode × Instruction} (h : entry ∈ c.entries) :
    c.instruction? entry.1 = some entry.2 := by
  obtain ⟨n, hn⟩ := List.mem_iff_getElem?.mp h
  rw [getElem?_entries] at hn
  obtain ⟨i, hi, rfl⟩ := Option.map_eq_some_iff.mp hn
  exact instruction?_opcodeAt hi

/-! ## Accepted lists -/

/-- Every catalog is numbered as `Numbering` says. -/
theorem numbering (c : Catalog) : c.Numbering where
  opcodeCount_eq := rfl
  opcodeCount_le := Nat.add_le_add_right c.size_le 2
  toNat_endOpcode := c.toNat_endOpcode
  instruction_iff _ := exists_instruction?_iff
  bounds _ hfirst hend := mem_opcodes_iff.mp ⟨hfirst, hend⟩
  position n i := by
    constructor
    · intro hi
      exact ⟨_, toNat_opcodeAt (Array.getElem?_eq_some_iff.mp hi).1, instruction?_opcodeAt hi⟩
    · rintro ⟨opcode, hn, hopcode⟩
      obtain ⟨m, hm, hi⟩ := instruction?_eq_some_iff.mp hopcode
      rwa [show n = m by omega]
  entries_eq := c.entries_eq
  entries_instruction _ h := instruction?_of_mem_entries h
  opcode_toNat i := by
    rw [opcode?_eq, Option.map_map]
    refine Option.map_congr fun n hn => ?_
    exact toNat_opcodeAt (Array.findIdx?_eq_some_iff_getElem.mp hn).1
  opcode_iff _ _ := opcode?_eq_some_iff
  opcode_none _ := opcode?_eq_none_iff

/-- A catalog of given instructions has just these, and their number has to leave room for the
sentinels. -/
theorem ofInstructions_eq_ok_iff {element : ElementKind} {vectorized : Bool}
    {instructions : Array Instruction} : ofInstructions element vectorized instructions = .ok c ↔
      (1 ≤ instructions.size ∧ instructions.size ≤ 65533) ∧ c.instructions = instructions ∧
        c.element = element ∧ c.vectorized = vectorized := by
  unfold ofInstructions
  split
  · next hempty => simp [hempty, refuse]
  · next hempty =>
    split
    · next hfits =>
      obtain ⟨list, k, v, hpos, hle⟩ := c
      simp only [Except.ok.injEq, mk.injEq]
      constructor
      · rintro ⟨rfl, rfl, rfl⟩
        exact ⟨⟨hpos, hle⟩, rfl, rfl, rfl⟩
      · rintro ⟨-, rfl, rfl, rfl⟩
        exact ⟨rfl, rfl, rfl⟩
    · next hfits => simp [hfits, refuse]

/-- Given instructions make a catalog when there is at least one and opcodes suffice. -/
theorem exists_ofInstructions_iff {element : ElementKind} {vectorized : Bool}
    {instructions : Array Instruction} :
    (∃ c, ofInstructions element vectorized instructions = .ok c) ↔
      1 ≤ instructions.size ∧ instructions.size ≤ 65533 := by
  constructor
  · rintro ⟨c, h⟩
    exact (ofInstructions_eq_ok_iff.mp h).1
  · intro h
    exact ⟨⟨instructions, element, vectorized, h.1, h.2⟩,
      ofInstructions_eq_ok_iff.mpr ⟨h, rfl, rfl, rfl⟩⟩

/-- A list of instructions makes a catalog exactly if there are between 1 and 65533 of them, and all
others are turned down.  In the catalog of an accepted list no 16 bit number wraps: its numbering is that of
the positions in the list, duplicates included. -/
theorem ofInstructions_numbering (element : ElementKind) (vectorized : Bool)
    (instructions : Array Instruction) :
    ((∃ c, ofInstructions element vectorized instructions = .ok c) ↔
      1 ≤ instructions.size ∧ instructions.size ≤ 65533) ∧
    (instructions.size = 0 →
      ofInstructions element vectorized instructions = refuse .emptyCatalog) ∧
    (65533 < instructions.size → ofInstructions element vectorized instructions =
      refuse (.catalogTooLarge instructions.size)) ∧
    ∀ c, ofInstructions element vectorized instructions = .ok c →
      c.instructions = instructions ∧ c.Numbering := by
  refine ⟨exists_ofInstructions_iff, ?_, ?_, ?_⟩
  · intro hempty
    rw [ofInstructions, dif_pos hempty]
  · intro hlarge
    rw [ofInstructions, dif_neg (by omega), dif_neg (by omega)]
  · intro c h
    exact ⟨(ofInstructions_eq_ok_iff.mp h).2.1, c.numbering⟩

/-- The largest catalog there is, made of one instruction over and over, and one instruction more. -/
theorem ofInstructions_numbering_limit :
    (∃ c, ofInstructions .i64 false (Array.replicate 65533 .nop) = .ok c ∧
      c.opcodeCount = 65535 ∧ c.endOpcode = 65535 ∧ c.instruction? 65534 = some .nop ∧
      c.instruction? 65535 = none ∧ c.opcode? .nop = some 2) ∧
    ofInstructions .i64 false (Array.replicate 65534 .nop) = refuse (.catalogTooLarge 65534) := by
  obtain ⟨haccepted, -, -, hnumbering⟩ :=
    ofInstructions_numbering .i64 false (Array.replicate 65533 .nop)
  obtain ⟨c, hc⟩ := haccepted.mpr (by rw [Array.size_replicate]; omega)
  obtain ⟨hinstructions, h⟩ := hnumbering c hc
  have hcount : c.opcodeCount = 65535 := by
    rw [h.opcodeCount_eq, hinstructions, Array.size_replicate]
  have hend : c.endOpcode = 65535 := by
    rw [← UInt16.toNat_inj, h.toNat_endOpcode, hcount]
    rfl
  have hat : ∀ n < 65533, c.instructions[n]? = some .nop := by
    intro n hn
    rw [hinstructions, Array.getElem?_replicate, if_pos hn]
  have hnamed : ∀ n < 65533, ∀ opcode : Opcode, opcode.toNat = n + 2 →
      c.instruction? opcode = some .nop := by
    intro n hn opcode hopcode
    obtain ⟨other, hother, hi⟩ := (h.position n .nop).mp (hat n hn)
    rwa [show opcode = other from UInt16.toNat_inj.mp (hopcode.trans hother.symm)]
  refine ⟨⟨c, hc, hcount, hend, hnamed 65532 (by omega) 65534 rfl, ?_, ?_⟩, ?_⟩
  · rw [Option.eq_none_iff_forall_ne_some]
    intro i hi
    have hlt := ((h.instruction_iff 65535).mp ⟨i, hi⟩).2
    rw [hend] at hlt
    exact absurd hlt (by decide)
  · refine (h.opcode_iff .nop 2).mpr ⟨hnamed 0 (by omega) 2 rfl, fun other hother => ?_⟩
    exact ((h.instruction_iff other).mp ⟨_, hother⟩).1
  · have hlarge := (ofInstructions_numbering .i64 false (Array.replicate 65534 .nop)).2.2.1
    rw [Array.size_replicate] at hlarge
    exact hlarge (by omega)

end Catalog

end LinearGP
