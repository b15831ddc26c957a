import Mathlib
import LinearGP.Proofs.Store.Image
import LinearGP.Proofs.Store.Rewriting

/-!
# The addresses of instructions

A store addresses an instruction by its program and its position in that program.  Partitions and
passes reach the same instructions by walking over the buffer.  `Addressing` says what the two ways
have in common: addresses are the slots without a sentinel, a partition is the segment of the programs
of its thread, and a pass visits the instructions in the order of their addresses.
-/

set_option autoImplicit false

namespace LinearGP

namespace Store

/-- What addresses and walks over a store agree on. -/
structure Addressing (s : Store) : Prop where
  /-- The instructions in range have an address, and no others do. -/
  offset_iff : ∀ program instruction, (∃ i, s.offset program instruction = .ok i) ↔
    program < s.programCount ∧ instruction < s.programSize
  /-- Two instructions have two addresses. -/
  injective : ∀ program instruction program' instruction' i, s.offset program instruction = .ok i →
    s.offset program' instruction' = .ok i → program = program' ∧ instruction = instruction'
  /-- The slots with an address are those that hold no sentinel. -/
  regular_iff : ∀ i, (∃ program instruction, s.offset program instruction = .ok i) ↔
    ∃ opcode, s.slots[i]? = some opcode ∧ opcode.isSentinel = false
  /-- A partition is the segment of the programs of its thread. -/
  partition : ∀ thread < s.threads, ∃ partition programs, s.partition thread = .ok partition ∧
    (partition.programCount = s.perThread ∧ partition.programSize = s.programSize) ∧
    partition.slots = s.slots.extract (thread * s.partitionLength) ((thread + 1) * s.partitionLength) ∧
    (List.range' (thread * s.perThread) s.perThread).mapM s.program = .ok programs ∧
    partition.slots.toList = Partition.image programs
  /-- The partitions make up the buffer. -/
  partitions : ∃ partitions, s.partitions = .ok partitions ∧ partitions.length = s.threads ∧
    partitions.flatMap (fun partition => partition.slots.toList) = s.slots.toList
  /-- A pass visits the instructions in order, each with its place and its opcode, and all of them when
  it comes to its end. -/
  visits : ∃ calls : List (Place × Opcode),
    calls.map (fun call => (call.1.thread * s.perThread + call.1.program, call.1.instruction)) =
      positions s.programCount s.programSize ∧
    (∀ call ∈ calls, (call.1.thread < s.threads ∧ call.1.program < s.perThread) ∧
      s.get (call.1.thread * s.perThread + call.1.program) call.1.instruction = .ok call.2) ∧
    ∀ {σ : Type} (f : Place → Opcode → EStateM Failure σ Opcode) (state : σ),
      Rewriting.made (fun f state => transform f (s, state)) f state <+: calls ∧
      ∀ t state', transform f (s, state) = .ok () (t, state') →
        Rewriting.made (fun f state => transform f (s, state)) f state = calls ∧
        ∃ results, callAll f calls state = .ok results state' ∧
          (positions s.programCount s.programSize).mapM (fun x => t.get x.1 x.2) = .ok results
  /-- A regular opcode can be set wherever there is an instruction. -/
  set_iff : ∀ program instruction opcode, (∃ t, s.set program instruction opcode = .ok t) ↔
    (program < s.programCount ∧ instruction < s.programSize) ∧ opcode.isSentinel = false
  /-- What is set is read back, and nothing else has changed. -/
  get_set : ∀ program instruction opcode t, s.set program instruction opcode = .ok t →
    ∀ program' instruction', t.get program' instruction' =
      if (program', instruction') = (program, instruction) then .ok opcode
      else s.get program' instruction'

/-! ## Addresses are the regular slots -/

/-- A slot that is for an instruction is the slot of one. -/
theorem exists_slotAt_of_role {s : Store} {i : Nat} (hi : i < s.threads * s.partitionLength)
    (hrole : s.role i = .instruction) :
    ∃ program < s.programCount, ∃ instruction < s.programSize, i = s.slotAt program instruction := by
  have hpos : 0 < s.partitionLength := Nat.succ_pos _
  have hstride : 0 < s.programStride := Nat.succ_pos _
  have hthread : i / s.partitionLength < s.threads :=
    Nat.div_lt_of_lt_mul (by rwa [Nat.mul_comm])
  have hinner := Nat.mod_lt i hpos
  unfold role at hrole
  simp only at hrole
  split at hrole
  · cases hrole
  next hlast =>
  split at hrole
  · cases hrole
  next hend =>
  -- the slot is before the end of its partition, and before the end of its program
  have hlocal : i % s.partitionLength < s.programStride * s.perThread := by
    rw [Nat.mul_comm]
    exact Nat.lt_of_le_of_ne (Nat.le_of_lt_succ hinner) hlast
  have hprogram : i % s.partitionLength / s.programStride < s.perThread :=
    Nat.div_lt_of_lt_mul hlocal
  have hinstruction : i % s.partitionLength % s.programStride < s.programSize :=
    Nat.lt_of_le_of_ne (Nat.le_of_lt_succ (Nat.mod_lt _ hstride)) hend
  refine ⟨_, member_lt hthread hprogram, _, hinstruction, ?_⟩
  rw [← s.slotOf_eq ⟨_, _, _⟩ hprogram, slotOf, Nat.add_assoc, Nat.div_add_mod', Nat.div_add_mod']

/-- The slots of instructions are those that hold no sentinel. -/
theorem WellFormed.exists_slotAt_iff {s : Store} (h : s.WellFormed) (i : Nat) :
    (∃ program < s.programCount, ∃ instruction < s.programSize, i = s.slotAt program instruction) ↔
      ∃ opcode, s.slots[i]? = some opcode ∧ opcode.isSentinel = false := by
  constructor
  · rintro ⟨program, hprogram, instruction, hinstruction, rfl⟩
    have hin := h.slotAt_lt_size hprogram hinstruction.le
    have hregular := opcodeAt_regular h hprogram hinstruction
    rw [opcodeAt, Array.getD_eq_getD_getElem?, Array.getElem?_eq_getElem hin] at hregular
    exact ⟨_, Array.getElem?_eq_getElem hin, hregular⟩
  · rintro ⟨opcode, hopcode, hregular⟩
    have hin := (Array.getElem?_eq_some_iff.mp hopcode).1
    have hadmits := h.admits i hin
    rw [Array.getD_eq_getD_getElem?, hopcode, Option.getD_some] at hadmits
    apply exists_slotAt_of_role (h.size_eq ▸ hin)
    cases hrole : s.role i with
    | instruction => rfl
    | programEnd =>
        rw [hrole] at hadmits
        cases hadmits
        cases hregular
    | partitionEnd =>
        rw [hrole] at hadmits
        cases hadmits
        cases hregular

/-! ## Partitions -/

/-- The programs of a thread are those from its first one on. -/
theorem mapM_program_thread {s : Store} (h : s.WellFormed) {thread : Nat} (hthread : thread < s.threads) :
    (List.range' (thread * s.perThread) s.perThread).mapM s.program =
      .ok (s.threadPrograms thread) := by
  have hprograms := mapM_eq_ok_map (f := s.program) (g := s.programAt)
    (l := List.range' (thread * s.perThread) s.perThread) (by
      intro program hprogram
      obtain ⟨hfirst, hlast⟩ := List.mem_range'_1.mp hprogram
      refine program_eq h ?_
      have hp := member_lt (s := s) hthread (p := program - thread * s.perThread) (by omega)
      omega)
  rw [hprograms, List.range'_eq_map_range, List.map_map]
  rfl

/-- The slots of a thread are its programs with their sentinels. -/
theorem partition_slots {s : Store} (h : s.WellFormed) {thread : Nat} (hthread : thread < s.threads) :
    (s.slots.extract (thread * s.partitionLength)
      (thread * s.partitionLength + s.partitionLength)).toList =
        Partition.image (s.threadPrograms thread) :=
  (holds_partition h (partition_eq h hthread)).1.slots_eq

/-- Partition by partition, the buffer is read from its start to its end. -/
theorem exists_partitions {s : Store} (h : s.WellFormed) :
    ∃ partitions, s.partitions = .ok partitions ∧ partitions.length = s.threads ∧
      partitions.flatMap (fun partition => partition.slots.toList) = s.slots.toList := by
  have hpartitions := mapM_eq_ok_map (l := List.range s.threads) fun thread hthread =>
    partition_eq h (List.mem_range.mp hthread)
  refine ⟨_, hpartitions, by rw [List.length_map, List.length_range], ?_⟩
  rw [h.slots_eq, image, List.flatMap_map, List.flatMap_map]
  apply List.flatMap_congr
  intro thread hthread
  exact partition_slots h (List.mem_range.mp hthread)

/-! ## Visits -/

/-- A pass that comes to its end leaves what its function returned. -/
theorem mapM_get_of_rewritten {s : Store} {slots : Array Opcode} {results : List Opcode}
    (h : ({ s with slots } : Store).WellFormed)
    (hwritten : Rewritten s.slots slots
      ((positions s.programCount s.programSize).map fun x => s.slotAt x.1 x.2) results)
    (hlength : results.length = (positions s.programCount s.programSize).length) :
    (positions s.programCount s.programSize).mapM (fun x => ({ s with slots } : Store).get x.1 x.2) =
      .ok results := by
  have hread := mapM_eq_ok_map (f := fun x => ({ s with slots } : Store).get x.1 x.2)
    (l := positions s.programCount s.programSize) fun x hx =>
      get_eq h (mem_positions.mp hx).1 (mem_positions.mp hx).2
  rw [hread, ← hwritten.map_getD (by rw [hlength, List.length_map]), List.map_map]
  rfl

/-- A pass visits the instructions from the first one on, and all of them if it succeeds. -/
theorem made_transform {σ : Type} {s : Store} (h : s.WellFormed)
    (f : Place → Opcode → EStateM Failure σ Opcode) (state : σ) :
    Rewriting.made (fun f state => transform f (s, state)) f state <+: s.visits ∧
      ∀ t state', transform f (s, state) = .ok () (t, state') →
        Rewriting.made (fun f state => transform f (s, state)) f state = s.visits ∧
        ∃ results, callAll f s.visits state = .ok results state' ∧
          (positions s.programCount s.programSize).mapM (fun x => t.get x.1 x.2) = .ok results := by
  have hrewrites := rewrites_transform h
  rcases callAll_cases f s.visits state with ⟨results, state', hall, hregular⟩ |
    ⟨k, call, results, middle, failure, state', hcall, hfirst, hregular, hstop⟩
  · obtain ⟨slots, hpass, hwritten, hmade⟩ := hrewrites.completes f state state' results hall hregular
    refine ⟨hmade ▸ List.prefix_rfl, ?_⟩
    intro t last htransform
    cases hpass.symm.trans htransform
    have hwell := h.transform f state
    rw [htransform] at hwell
    refine ⟨hmade, results, hall, mapM_get_of_rewritten hwell hwritten ?_⟩
    rw [length_of_callAll hall, visits, List.length_map]
  · obtain ⟨slots, hpass, -, hmade⟩ :=
      hrewrites.stops f state middle state' k call results failure hcall hfirst hregular hstop
    refine ⟨hmade ▸ List.take_prefix _ _, ?_⟩
    intro t last htransform
    cases hpass.symm.trans htransform

/-! ## Setting an instruction -/

/-- A slot can be set when it exists and the opcode is no sentinel. -/
theorem exists_set_iff {s : Store} (h : s.WellFormed) (program instruction : Nat) (opcode : Opcode) :
    (∃ t, s.set program instruction opcode = .ok t) ↔
      (program < s.programCount ∧ instruction < s.programSize) ∧ opcode.isSentinel = false := by
  constructor
  · rintro ⟨t, hset⟩
    obtain ⟨hin, hregular, -⟩ := set_eq_ok hset h
    exact ⟨hin, hregular⟩
  · rintro ⟨hin, hregular⟩
    have hoffset := (offset_eq_ok_iff h program instruction _).mpr ⟨hin, rfl⟩
    refine ⟨{ s with slots := s.slots.setIfInBounds (s.slotAt program instruction) opcode }, ?_⟩
    refine bind_eq_ok_iff.mpr ⟨_, hoffset, ?_⟩
    rw [hregular]
    rfl

/-- What is set is read back, and every other instruction is read as before. -/
theorem get_of_set {s t : Store} (h : s.WellFormed) {program instruction : Nat} {opcode : Opcode}
    (hset : s.set program instruction opcode = .ok t) (program' instruction' : Nat) :
    t.get program' instruction' =
      if (program', instruction') = (program, instruction) then .ok opcode
      else s.get program' instruction' := by
  obtain ⟨⟨hprogram, hinstruction⟩, -, rfl⟩ := set_eq_ok hset h
  -- both stores have the same addresses
  show (s.offset program' instruction').map (fun i =>
    (s.slots.setIfInBounds (s.slotAt program instruction) opcode).getD i Opcode.END) = _
  by_cases hsame : (program', instruction') = (program, instruction)
  · obtain ⟨rfl, rfl⟩ := Prod.mk.inj hsame
    have hin := h.slotAt_lt_size hprogram hinstruction.le
    have hoffset := (offset_eq_ok_iff h program' instruction' _).mpr ⟨⟨hprogram, hinstruction⟩, rfl⟩
    rw [if_pos rfl, hoffset, Except.map, getD_setIfInBounds, if_pos ⟨rfl, hin⟩]
  · rw [if_neg hsame]
    unfold get
    cases hoffset : s.offset program' instruction' with
    | error failure => rfl
    | ok i =>
        obtain ⟨⟨hprogram', hinstruction'⟩, rfl⟩ := (offset_eq_ok_iff h _ _ _).mp hoffset
        have hne : s.slotAt program instruction ≠ s.slotAt program' instruction' := by
          intro hslot
          obtain ⟨rfl, rfl⟩ :=
            slotAt_injective hprogram hprogram' hinstruction.le hinstruction'.le hslot
          exact hsame rfl
        rw [Except.map, Except.map, getD_setIfInBounds, if_neg fun hat => hne hat.1]

/-! ## All of it -/

/-- In every reachable store, addresses map the instructions one to one to the slots without a sentinel,
partitions are the segments of the programs of their threads, passes visit the instructions in the order
of their programs, and setting one of them changes that one only. -/
theorem Reachable.addressing {s : Store} (h : s.Reachable) : s.Addressing where
  offset_iff program instruction := by
    simp only [offset_eq_ok_iff h.wellFormed]
    exact ⟨fun ⟨i, hin, _⟩ => hin, fun hin => ⟨_, hin, rfl⟩⟩
  injective program instruction program' instruction' i hi hi' := by
    obtain ⟨⟨hprogram, hinstruction⟩, rfl⟩ := (offset_eq_ok_iff h.wellFormed _ _ _).mp hi
    obtain ⟨⟨hprogram', hinstruction'⟩, hslot⟩ := (offset_eq_ok_iff h.wellFormed _ _ _).mp hi'
    exact slotAt_injective hprogram hprogram' hinstruction.le hinstruction'.le hslot
  regular_iff i := by
    rw [← h.wellFormed.exists_slotAt_iff i]
    simp only [offset_eq_ok_iff h.wellFormed]
    constructor
    · rintro ⟨program, instruction, ⟨hprogram, hinstruction⟩, hi⟩
      exact ⟨program, hprogram, instruction, hinstruction, hi⟩
    · rintro ⟨program, hprogram, instruction, hinstruction, hi⟩
      exact ⟨program, instruction, ⟨hprogram, hinstruction⟩, hi⟩
  partition thread hthread := by
    refine ⟨_, _, partition_eq h.wellFormed hthread, ⟨rfl, rfl⟩, ?_,
      mapM_program_thread h.wellFormed hthread, partition_slots h.wellFormed hthread⟩
    rw [Nat.succ_mul]
  partitions := exists_partitions h.wellFormed
  visits := by
    refine ⟨s.visits, ?_, ?_, made_transform h.wellFormed⟩
    · rw [visits, List.map_map]
      refine (List.map_congr_left fun x _ => ?_).trans (List.map_id _)
      exact congrArg (·, x.2) (Nat.div_add_mod' x.1 s.perThread)
    · intro call hcall
      obtain ⟨x, hx, rfl⟩ := List.mem_map.mp hcall
      obtain ⟨hprogram, hinstruction⟩ := mem_positions.mp hx
      refine ⟨⟨thread_lt hprogram, position_lt hprogram⟩, ?_⟩
      show s.get (x.1 / s.perThread * s.perThread + x.1 % s.perThread) x.2 = _
      rw [Nat.div_add_mod']
      exact get_eq h.wellFormed hprogram hinstruction
  set_iff := exists_set_iff h.wellFormed
  get_set program instruction opcode t hset := get_of_set h.wellFormed hset

/-- Two threads of two programs each, the last of which has been changed. -/
theorem addressing_two :
    ∃ s : Store, s.Reachable ∧ s.slots = #[2, 2, 0, 2, 2, 0, 1, 2, 2, 0, 2, 5, 0, 1] ∧
      s.Addressing := by
  have hcreate : create 2 4 2 = .ok {
      threads := 2, perThread := 2, programSize := 2, slots := Array.replicate 14 Opcode.END
      initialized := false } := rfl
  have hreachable := (Reachable.prepare hcreate rfl).set (rfl : Store.set _ 3 1 5 = .ok _)
  exact ⟨_, hreachable, rfl, hreachable.addressing⟩

end Store

end LinearGP
