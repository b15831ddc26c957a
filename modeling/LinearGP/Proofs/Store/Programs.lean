import Mathlib
import LinearGP.Proofs.Store.Shape

/-!
# The programs of a store

A store is used as a list of programs, whatever its partitions are.  `Store.programs` is that view,
and the lemmas of this file express what the operations read and write through it.
`Partition.Holds` is the same view of one partition.
-/

set_option autoImplicit false

namespace LinearGP

namespace Store

/-- The opcode of an instruction, counted over all programs. -/
def opcodeAt (s : Store) (program instruction : Nat) : Opcode :=
  s.slots.getD (s.slotAt program instruction) Opcode.END

/-- The instructions of a program. -/
def programAt (s : Store) (program : Nat) : Program :=
  (List.range s.programSize).map (s.opcodeAt program)

/-- Every program, in order. -/
def programs (s : Store) : List Program := (List.range s.programCount).map s.programAt

/-- All programs have the length that the store gives them. -/
@[simp] theorem length_programAt (s : Store) (program : Nat) :
    (s.programAt program).length = s.programSize := by
  simp [programAt]

/-- There are as many programs as the store counts. -/
@[simp] theorem length_programs (s : Store) : s.programs.length = s.programCount := by
  simp [programs]

/-- Within the store, an instruction can be read. -/
theorem get_eq {s : Store} (h : s.WellFormed) {program instruction : Nat}
    (hprogram : program < s.programCount) (hinstruction : instruction < s.programSize) :
    s.get program instruction = .ok (s.opcodeAt program instruction) := by
  have hoffset := (offset_eq_ok_iff h program instruction _).mpr ⟨⟨hprogram, hinstruction⟩, rfl⟩
  unfold get
  rw [hoffset]
  rfl

/-- No instruction of a program is a sentinel. -/
theorem opcodeAt_regular {s : Store} (h : s.WellFormed) {program instruction : Nat}
    (hprogram : program < s.programCount) (hinstruction : instruction < s.programSize) :
    (s.opcodeAt program instruction).isSentinel = false := by
  have hadmits := h.admits _ (h.slotAt_lt_size hprogram hinstruction.le)
  rw [role_slotAt hprogram hinstruction.le, if_neg hinstruction.ne] at hadmits
  exact hadmits

/-- Within the store, a program can be read. -/
theorem program_eq {s : Store} (h : s.WellFormed) {program : Nat}
    (hprogram : program < s.programCount) : s.program program = .ok (s.programAt program) := by
  have hoffset := (offset_eq_ok_iff h program 0 _).mpr ⟨⟨hprogram, h.programSize_pos⟩, rfl⟩
  have hlast := h.slotAt_lt_size hprogram le_rfl
  have hslot : ∀ i, s.slotAt program i = s.slotAt program 0 + i := fun i => rfl
  unfold Store.program
  rw [hoffset]
  show Except.ok _ = _
  congr 1
  apply List.ext_getElem?
  intro i
  rw [hslot] at hlast
  rw [Array.getElem?_toList, Array.getElem?_extract, programAt, List.getElem?_map]
  by_cases hi : i < s.programSize
  · have hin : s.slotAt program 0 + i < s.slots.size := by omega
    rw [if_pos (by omega), List.getElem?_range hi, Option.map_some, opcodeAt, hslot i,
      Array.getElem?_eq_getElem hin, Array.getD_eq_getD_getElem?, Array.getElem?_eq_getElem hin]
    rfl
  · rw [if_neg (by omega), List.getElem?_eq_none (by simpa using hi)]
    rfl

/-! ## Copying -/

/-- The slots that are copied change, and no others. -/
theorem getD_copySlots (slots : Array Opcode) (source target length i : Nat)
    (hi : i < slots.size) :
    (copySlots slots source target length).getD i Opcode.END =
      if target ≤ i ∧ i < target + length then slots.getD (source + (i - target)) Opcode.END
      else slots.getD i Opcode.END := by
  have hsize : ∀ length, (copySlots slots source target length).size = slots.size := by
    intro length
    unfold copySlots
    induction length with
    | zero => rfl
    | succ length ih =>
        rw [List.range_succ, List.foldl_append, List.foldl_cons, List.foldl_nil,
          Array.size_setIfInBounds]
        exact ih
  -- slots are read from the original, so a copy does not see what it has written
  induction length with
  | zero =>
      rw [if_neg (by omega)]
      rfl
  | succ length ih =>
      have hstep : copySlots slots source target (length + 1) =
          (copySlots slots source target length).setIfInBounds (target + length)
            (slots.getD (source + length) Opcode.END) := by
        unfold copySlots
        rw [List.range_succ, List.foldl_append]
        rfl
      rw [hstep, getD_setIfInBounds, ih, hsize]
      by_cases hat : target + length = i
      · rw [if_pos ⟨hat, hi⟩, if_pos (by omega)]
        congr 1
        omega
      · rw [if_neg (by omega)]
        by_cases hin : target ≤ i ∧ i < target + length
        · rw [if_pos hin, if_pos (by omega)]
        · rw [if_neg hin, if_neg (by omega)]

/-- After a copy the target has the instructions of the source, and every other program its own. -/
theorem opcodeAt_copyProgram {s t : Store} (h : s.WellFormed) {source target : Nat}
    (hcopy : s.copyProgram source target = .ok t) {program instruction : Nat}
    (hprogram : program < s.programCount) (hinstruction : instruction < s.programSize) :
    t.opcodeAt program instruction =
      s.opcodeAt (if program = target then source else program) instruction := by
  obtain ⟨⟨hsource, htarget⟩, rfl⟩ := copyProgram_eq_ok hcopy h
  show (copySlots s.slots (s.slotAt source 0) (s.slotAt target 0) s.programStride).getD
    (s.slotAt program instruction) Opcode.END = _
  rw [getD_copySlots _ _ _ _ _ (h.slotAt_lt_size hprogram hinstruction.le)]
  by_cases hsame : program = target
  · subst hsame
    have hslot : s.slotAt program instruction = s.slotAt program 0 + instruction := rfl
    have hstride : s.programStride = s.programSize + 1 := rfl
    rw [if_pos (by omega), if_pos rfl, hslot, Nat.add_sub_cancel_left]
    rfl
  · rw [if_neg hsame, if_neg]
    · rfl
    rintro ⟨hle, hbefore⟩
    -- A slot of the copied block would belong to the target.
    have hoffset : s.slotAt program instruction - s.slotAt target 0 ≤ s.programSize :=
      Nat.le_of_lt_succ (by have : s.programStride = s.programSize + 1 := rfl; omega)
    have heq : s.slotAt program instruction =
        s.slotAt target (s.slotAt program instruction - s.slotAt target 0) := by
      show _ = s.slotAt target 0 + _
      omega
    exact hsame (slotAt_injective hprogram htarget hinstruction.le hoffset heq).1

end Store

/-! ## Partitions -/

/-- The programs of a partition, and its sentinels in their places. -/
structure Partition.Holds (partition : Partition) (programs : List Program) : Prop where
  length_eq : programs.length = partition.programCount
  length_program : ∀ program ∈ programs, program.length = partition.programSize
  regular : ∀ program ∈ programs, ∀ opcode ∈ program, opcode.isSentinel = false
  instruction : ∀ (p i : Nat) (program : Program), programs[p]? = some program →
    i < partition.programSize →
      partition.slots[p * (partition.programSize + 1) + i]? = program[i]?
  programEnd : ∀ p < partition.programCount,
    partition.slots[p * (partition.programSize + 1) + partition.programSize]? = some Opcode.END
  partitionEnd :
    partition.slots[partition.programCount * (partition.programSize + 1)]? = some Opcode.HALT
  size_eq : partition.slots.size =
    partition.programCount * (partition.programSize + 1) + 1

namespace Store

/-- The programs of a thread are programs of the store. -/
theorem member_lt {s : Store} {thread p : Nat} (hthread : thread < s.threads)
    (hp : p < s.perThread) : thread * s.perThread + p < s.programCount := by
  rw [programCount, Nat.mul_comm s.perThread]
  exact mul_add_lt_mul hthread hp

/-- The programs of one thread. -/
def threadPrograms (s : Store) (thread : Nat) : List Program :=
  (List.range s.perThread).map fun program => s.programAt (thread * s.perThread + program)

/-- The threads share out all programs, in order. -/
theorem programs_eq_flatMap (s : Store) :
    s.programs = (List.range s.threads).flatMap s.threadPrograms := by
  unfold programs programCount threadPrograms
  rw [Nat.mul_comm, range_mul, List.map_flatMap]
  simp [Function.comp_def]

/-- The partition of a thread can be taken, and has its slots. -/
theorem partition_eq {s : Store} (h : s.WellFormed) {thread : Nat} (hthread : thread < s.threads) :
    s.partition thread = .ok {
      slots := s.slots.extract (thread * s.partitionLength)
        (thread * s.partitionLength + s.partitionLength)
      programCount := s.perThread
      programSize := s.programSize } := by
  have hend : (thread + 1) * s.partitionLength ≤ s.slots.size := by
    rw [h.size_eq]
    exact Nat.mul_le_mul_right _ hthread
  unfold partition
  rw [if_neg (by simp [h.initialized]), if_neg (by omega)]

/-- A thread index out of range has no partition. -/
theorem thread_lt_of_partition {s : Store} (h : s.WellFormed) {thread : Nat} {partition : Partition}
    (hpartition : s.partition thread = .ok partition) : thread < s.threads := by
  by_contra hge
  have hbeyond : s.slots.size < (thread + 1) * s.partitionLength := by
    have hpos : 0 < s.partitionLength := Nat.succ_pos _
    have hle : s.threads * s.partitionLength ≤ thread * s.partitionLength :=
      Nat.mul_le_mul_right _ (by omega)
    rw [h.size_eq, Nat.succ_mul]
    omega
  unfold Store.partition at hpartition
  rw [if_neg (by simp [h.initialized]), if_pos hbeyond] at hpartition
  simp [breach] at hpartition

/-- The programs of a thread are numbered from its first one. -/
theorem program_thread {s : Store} (h : s.WellFormed) {thread p : Nat} (hthread : thread < s.threads)
    (hp : p < s.perThread) :
    s.program (thread * s.perThread + p) = .ok (s.programAt (thread * s.perThread + p)) ∧
      (s.threadPrograms thread)[p]? = some (s.programAt (thread * s.perThread + p)) := by
  refine ⟨program_eq h (member_lt hthread hp), ?_⟩
  rw [threadPrograms, List.getElem?_map, List.getElem?_range hp]
  rfl

/-- A partition has no more slots than its store. -/
theorem size_partition_le {s : Store} (h : s.WellFormed) {thread : Nat} {partition : Partition}
    (hpartition : s.partition thread = .ok partition) : partition.slots.size ≤ s.slots.size := by
  rw [partition_eq h (thread_lt_of_partition h hpartition)] at hpartition
  injection hpartition with hpartition
  subst hpartition
  simp only [Array.size_extract]
  omega

/-- The slots of a partition are those of the store from its start on. -/
theorem getElem?_partition {s : Store} (h : s.WellFormed) {thread : Nat} (hthread : thread < s.threads)
    {i : Nat} (hi : i < s.partitionLength) :
    (s.slots.extract (thread * s.partitionLength)
      (thread * s.partitionLength + s.partitionLength))[i]? =
        some (s.slots.getD (thread * s.partitionLength + i) Opcode.END) := by
  have hin : thread * s.partitionLength + i < s.slots.size := by
    rw [h.size_eq]
    exact mul_add_lt_mul hthread hi
  have hend : (thread + 1) * s.partitionLength ≤ s.slots.size := by
    rw [h.size_eq]
    exact Nat.mul_le_mul_right _ hthread
  rw [Nat.succ_mul] at hend
  rw [Array.getElem?_extract, if_pos (by omega), Array.getD_eq_getD_getElem?,
    Array.getElem?_eq_getElem hin]
  rfl

/-- The slots of a program in the partition of its thread. -/
theorem getElem?_partition_slotAt {s : Store} (h : s.WellFormed) {thread p i : Nat}
    (hthread : thread < s.threads) (hp : p < s.perThread) (hi : i ≤ s.programSize) :
    (s.slots.extract (thread * s.partitionLength)
      (thread * s.partitionLength + s.partitionLength))[p * (s.programSize + 1) + i]? =
        some (s.slots.getD (s.slotAt (thread * s.perThread + p) i) Opcode.END) := by
  have hin : p * (s.programSize + 1) + i < s.partitionLength :=
    Nat.lt_succ_of_lt (s.local_lt hp hi)
  have hslot : thread * s.partitionLength + (p * (s.programSize + 1) + i) =
      s.slotAt (thread * s.perThread + p) i := by
    rw [← s.slotOf_eq ⟨thread, p, i⟩ hp, ← Nat.add_assoc]
    rfl
  rw [getElem?_partition h hthread hin, hslot]

/-- A partition holds the programs of its thread. -/
theorem holds_partition {s : Store} (h : s.WellFormed) {thread : Nat} {partition : Partition}
    (hpartition : s.partition thread = .ok partition) :
    partition.Holds (s.threadPrograms thread) ∧ partition.programCount = s.perThread ∧
      partition.programSize = s.programSize := by
  have hthread := thread_lt_of_partition h hpartition
  rw [partition_eq h hthread] at hpartition
  injection hpartition with hpartition
  subst hpartition
  refine ⟨?_, rfl, rfl⟩
  exact {
    length_eq := by simp [threadPrograms]
    length_program := by
      intro program hprogram
      obtain ⟨p, -, rfl⟩ := List.mem_map.mp hprogram
      simp
    regular := by
      intro program hprogram opcode hopcode
      obtain ⟨p, hp, rfl⟩ := List.mem_map.mp hprogram
      obtain ⟨i, hi, rfl⟩ := List.mem_map.mp hopcode
      exact opcodeAt_regular h (member_lt hthread (List.mem_range.mp hp)) (List.mem_range.mp hi)
    instruction := by
      intro p i program hprogram hi
      have hi : i < s.programSize := hi
      have hp : p < s.perThread := by
        have hlt := (List.getElem?_eq_some_iff.mp hprogram).1
        simpa [threadPrograms] using hlt
      rw [(program_thread h hthread hp).2, Option.some.injEq] at hprogram
      subst hprogram
      rw [getElem?_partition_slotAt h hthread hp hi.le, programAt, List.getElem?_map,
        List.getElem?_range hi]
      rfl
    programEnd := by
      intro p hp
      rw [getElem?_partition_slotAt h hthread hp le_rfl, h.fits.getD_end h (member_lt hthread hp)]
    partitionEnd := by
      have hlast : s.perThread * (s.programSize + 1) < s.partitionLength := Nat.lt_succ_self _
      have hadmits := h.admits (thread * s.partitionLength + s.perThread * s.programStride) (by
        rw [h.size_eq]
        exact mul_add_lt_mul hthread hlast)
      rw [role_last] at hadmits
      rw [getElem?_partition h hthread hlast]
      exact congrArg some hadmits
    size_eq := by
      have hend : (thread + 1) * s.partitionLength ≤ s.slots.size := by
        rw [h.size_eq]
        exact Nat.mul_le_mul_right _ hthread
      have hlength : s.partitionLength = s.perThread * (s.programSize + 1) + 1 := rfl
      rw [Nat.succ_mul] at hend
      simp only [Array.size_extract]
      omega }

end Store

end LinearGP
