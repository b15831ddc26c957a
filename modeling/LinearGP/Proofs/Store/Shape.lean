import Mathlib
import LinearGP.Proofs.Indexing
import LinearGP.Proofs.Results
import LinearGP.Store.Transform

/-!
# The shape of the store

Every slot of the buffer has a role that only depends on the dimensions of the store: it closes a
partition, it closes a program, or it holds an instruction.  A store is well formed when each slot
holds what its role admits.  Machine code walks the buffer and relies on nothing else.

`role_slotAt` gives the role of the slots that operations address, and the rest of the file shows
that a prepared store is well formed and stays so.
-/

set_option autoImplicit false

namespace LinearGP

/-- What a slot is for. -/
inductive SlotRole where
  | instruction
  | programEnd
  | partitionEnd
deriving DecidableEq

/-- The opcodes that may stand in a slot. -/
def SlotRole.Admits : SlotRole → Opcode → Prop
  | instruction, opcode => opcode.isSentinel = false
  | programEnd, opcode => opcode = Opcode.END
  | partitionEnd, opcode => opcode = Opcode.HALT

namespace Store

/-- The role of a slot of the buffer. -/
def role (s : Store) (i : Nat) : SlotRole :=
  let local_ := i % s.partitionLength
  if local_ = s.perThread * s.programStride then .partitionEnd
  else if local_ % s.programStride = s.programSize then .programEnd
  else .instruction

/-- The sentinels are in place, and there are no others. -/
structure WellFormed (s : Store) : Prop where
  initialized : s.initialized = true
  threads_pos : 0 < s.threads
  perThread_pos : 0 < s.perThread
  programSize_pos : 0 < s.programSize
  size_eq : s.slots.size = s.threads * s.partitionLength
  addressable : 2 * s.slots.size < 0x8000000000000000
  admits : ∀ i < s.slots.size, (s.role i).Admits (s.slots.getD i Opcode.END)

/-- The slot of an instruction, or of the `END` after the last one. -/
def slotAt (s : Store) (program instruction : Nat) : Nat :=
  program / s.perThread * s.partitionLength + program % s.perThread * s.programStride + instruction

/-! ## Where slots are -/

/-- The slots of a program lie before the last slot of its partition. -/
theorem local_lt (s : Store) {program instruction : Nat} (hprogram : program < s.perThread)
    (hinstruction : instruction ≤ s.programSize) :
    program * s.programStride + instruction < s.perThread * s.programStride :=
  mul_add_lt_mul hprogram (Nat.lt_succ_of_le hinstruction)

/-- A slot of a program belongs to an instruction, or is the sentinel right after the last one. -/
theorem role_local (s : Store) (thread : Nat) {program instruction : Nat}
    (hprogram : program < s.perThread) (hinstruction : instruction ≤ s.programSize) :
    s.role (thread * s.partitionLength + program * s.programStride + instruction) =
      if instruction = s.programSize then .programEnd else .instruction := by
  have hlocal := s.local_lt hprogram hinstruction
  have hmod : (thread * s.partitionLength + program * s.programStride + instruction) %
      s.partitionLength = program * s.programStride + instruction := by
    rw [Nat.add_assoc]
    exact mul_add_mod_width (Nat.lt_succ_of_lt hlocal)
  have hinner : (program * s.programStride + instruction) % s.programStride = instruction :=
    mul_add_mod_width (Nat.lt_succ_of_le hinstruction)
  unfold role
  simp only [hmod, hinner]
  rw [if_neg (by omega)]

/-- The last slot of a partition is for its sentinel. -/
theorem role_last (s : Store) (thread : Nat) :
    s.role (thread * s.partitionLength + s.perThread * s.programStride) = .partitionEnd := by
  have hmod : (thread * s.partitionLength + s.perThread * s.programStride) % s.partitionLength =
      s.perThread * s.programStride := mul_add_mod_width (Nat.lt_succ_self _)
  unfold role
  simp only [hmod, if_true]

/-- Every program belongs to a thread of the store. -/
theorem thread_lt {s : Store} {program : Nat} (hprogram : program < s.programCount) :
    program / s.perThread < s.threads :=
  Nat.div_lt_of_lt_mul hprogram

/-- Every program has a position within its thread. -/
theorem position_lt {s : Store} {program : Nat} (hprogram : program < s.programCount) :
    program % s.perThread < s.perThread := by
  apply Nat.mod_lt
  apply Nat.pos_of_ne_zero
  rintro hzero
  simp [programCount, hzero] at hprogram

/-- The role of a slot that an operation addresses. -/
theorem role_slotAt {s : Store} {program instruction : Nat} (hprogram : program < s.programCount)
    (hinstruction : instruction ≤ s.programSize) :
    s.role (s.slotAt program instruction) =
      if instruction = s.programSize then .programEnd else .instruction :=
  s.role_local _ (position_lt hprogram) hinstruction

/-- The slot of an instruction is one that the shape of the store provides. -/
theorem slotAt_lt {s : Store} {program instruction : Nat} (hprogram : program < s.programCount)
    (hinstruction : instruction ≤ s.programSize) :
    s.slotAt program instruction < s.threads * s.partitionLength := by
  have hlocal := s.local_lt (position_lt hprogram) hinstruction
  unfold slotAt
  rw [Nat.add_assoc]
  exact mul_add_lt_mul (thread_lt hprogram) (Nat.lt_succ_of_lt hlocal)

/-- The slot of an instruction is one of a well formed store. -/
theorem WellFormed.slotAt_lt_size {s : Store} (h : s.WellFormed) {program instruction : Nat}
    (hprogram : program < s.programCount) (hinstruction : instruction ≤ s.programSize) :
    s.slotAt program instruction < s.slots.size := by
  rw [h.size_eq]
  exact slotAt_lt hprogram hinstruction

/-- The slot that a place stands for is that of its program, counted over all threads. -/
theorem slotOf_eq (s : Store) (place : Place) (hprogram : place.program < s.perThread) :
    s.slotOf place =
      s.slotAt (place.thread * s.perThread + place.program) place.instruction := by
  unfold slotOf slotAt
  rw [mul_add_div_width hprogram, mul_add_mod_width hprogram]

/-- Slots tell programs and instructions apart. -/
theorem slotAt_injective {s : Store} {program program' instruction instruction' : Nat}
    (hprogram : program < s.programCount) (hprogram' : program' < s.programCount)
    (hinstruction : instruction ≤ s.programSize) (hinstruction' : instruction' ≤ s.programSize)
    (heq : s.slotAt program instruction = s.slotAt program' instruction') :
    program = program' ∧ instruction = instruction' := by
  have hlocal := Nat.lt_succ_of_lt (s.local_lt (position_lt hprogram) hinstruction)
  have hlocal' := Nat.lt_succ_of_lt (s.local_lt (position_lt hprogram') hinstruction')
  unfold slotAt at heq
  rw [Nat.add_assoc, Nat.add_assoc] at heq
  obtain ⟨hthread, hinner⟩ := (mul_add_inj hlocal hlocal').mp heq
  obtain ⟨hposition, hinstruction⟩ := (mul_add_inj (Nat.lt_succ_of_le hinstruction)
    (Nat.lt_succ_of_le hinstruction')).mp hinner
  refine ⟨?_, hinstruction⟩
  rw [← Nat.div_add_mod program s.perThread, ← Nat.div_add_mod program' s.perThread, hthread,
    hposition]

/-! ## Buffers that fit a store -/

/-- A buffer of the size of the store, with what each role admits in its slots. -/
def Fits (s : Store) (slots : Array Opcode) : Prop :=
  slots.size = s.slots.size ∧ ∀ i < slots.size, (s.role i).Admits (slots.getD i Opcode.END)

/-- The slots of a well formed store fit its shape. -/
theorem WellFormed.fits {s : Store} (h : s.WellFormed) : s.Fits s.slots := ⟨rfl, h.admits⟩

/-- Every program is closed by an `END`. -/
theorem Fits.getD_end {s : Store} (h : s.WellFormed) {slots : Array Opcode} (hslots : s.Fits slots)
    {program : Nat} (hprogram : program < s.programCount) :
    slots.getD (s.slotAt program s.programSize) Opcode.END = Opcode.END := by
  have hadmits := hslots.2 _ (hslots.1 ▸ h.slotAt_lt_size hprogram le_rfl)
  rw [role_slotAt hprogram le_rfl, if_pos rfl] at hadmits
  exact hadmits

/-- A store stays well formed when its buffer is replaced by one that fits. -/
theorem WellFormed.withSlots {s : Store} (h : s.WellFormed) {slots : Array Opcode}
    (hslots : s.Fits slots) : ({ s with slots } : Store).WellFormed where
  initialized := h.initialized
  threads_pos := h.threads_pos
  perThread_pos := h.perThread_pos
  programSize_pos := h.programSize_pos
  size_eq := hslots.1.trans h.size_eq
  addressable := by
    show 2 * slots.size < _
    rw [hslots.1]
    exact h.addressable
  admits := hslots.2

/-- What a slot holds after one was set. -/
theorem getD_setIfInBounds (slots : Array Opcode) (target : Nat) (opcode : Opcode) (i : Nat) :
    (slots.setIfInBounds target opcode).getD i Opcode.END =
      if target = i ∧ i < slots.size then opcode else slots.getD i Opcode.END := by
  rw [Array.getD_eq_getD_getElem?, Array.getD_eq_getD_getElem?, Array.getElem?_setIfInBounds]
  by_cases htarget : target = i
  · by_cases hi : target < slots.size
    · rw [if_pos htarget, if_pos hi, if_pos ⟨htarget, by omega⟩]
      rfl
    · rw [if_pos htarget, if_neg hi, if_neg (by omega), Array.getElem?_eq_none (by omega)]
  · rw [if_neg htarget, if_neg (by tauto)]

/-- Slots still fit when one is set to an opcode that its role admits. -/
theorem Fits.set {s : Store} {slots : Array Opcode} (h : s.Fits slots) {target : Nat}
    {opcode : Opcode} (hrole : (s.role target).Admits opcode) :
    s.Fits (slots.setIfInBounds target opcode) := by
  refine ⟨by rw [Array.size_setIfInBounds]; exact h.1, fun i hi => ?_⟩
  rw [Array.size_setIfInBounds] at hi
  rw [getD_setIfInBounds]
  by_cases hset : target = i ∧ i < slots.size
  · rw [if_pos hset, ← hset.1]
    exact hrole
  · rw [if_neg hset]
    exact h.2 i hi

/-! ## A prepared store -/

/-- A store is created from numbers that are not zero and divide evenly, and is not prepared yet. -/
theorem create_eq_ok {threads programs programSize : Nat} {s : Store}
    (h : create threads programs programSize = .ok s) :
    (0 < threads ∧ 0 < programs ∧ 0 < programSize ∧ programs % threads = 0) ∧
      s = { threads, perThread := programs / threads, programSize
            slots := Array.replicate ((programs / threads * (programSize + 1) + 1) * threads)
              Opcode.END
            initialized := false } ∧
      2 * ((programs / threads * (programSize + 1) + 1) * threads) < 0x8000000000000000 := by
  unfold create at h
  split at h
  · simp [refuse] at h
  split at h
  · simp [refuse] at h
  split at h
  · simp [refuse] at h
  split at h
  · simp [refuse] at h
  rename_i hthreads hprograms hsize heven
  simp only at h
  split at h
  · simp [breach] at h
  rename_i hword
  injection h with h
  refine ⟨⟨by omega, by omega, by omega, by omega⟩, h.symm, by omega⟩

/-- The slots of a blank partition. -/
theorem getElem?_blankPartition (s : Store) (i : Nat) (hi : i < s.partitionLength) :
    ∃ opcode, (blankPartition s.perThread s.programSize)[i]? = some opcode ∧
      (s.role i).Admits opcode := by
  have hblock : ∀ row ∈ List.replicate s.perThread
      (List.replicate s.programSize Opcode.first ++ [Opcode.END]), row.length = s.programStride := by
    intro row hrow
    rw [List.eq_of_mem_replicate hrow]
    simp [programStride]
  have hlength := length_flatten_of_width hblock
  rw [List.length_replicate] at hlength
  have hmod : i % s.partitionLength = i := Nat.mod_eq_of_lt hi
  unfold blankPartition role
  simp only [hmod]
  -- the last slot of all, the last slot of a program, and the instructions
  by_cases hlast : i = s.perThread * s.programStride
  · refine ⟨Opcode.HALT, ?_, by rw [if_pos hlast]; rfl⟩
    rw [List.getElem?_append_right (by omega), hlength, hlast, Nat.sub_self]
    rfl
  · have hlt : i < s.perThread * s.programStride := by
      have : s.partitionLength = s.perThread * s.programStride + 1 := rfl
      omega
    have hstride : 0 < s.programStride := Nat.succ_pos _
    have hprogram : i / s.programStride < s.perThread := by
      rw [Nat.mul_comm] at hlt
      exact Nat.div_lt_of_lt_mul hlt
    have hread := getElem?_flatten hblock (b := i / s.programStride) (Nat.mod_lt i hstride)
    rw [Nat.div_add_mod', List.getElem?_replicate, if_pos hprogram, Option.bind_some] at hread
    rw [List.getElem?_append_left (by omega), hread, if_neg hlast]
    by_cases hend : i % s.programStride = s.programSize
    · refine ⟨Opcode.END, ?_, by rw [if_pos hend]; rfl⟩
      rw [hend, List.getElem?_append_right (by simp)]
      simp
    · have hinstruction : i % s.programStride < s.programSize := by
        have := Nat.mod_lt i hstride
        have : s.programStride = s.programSize + 1 := rfl
        omega
      refine ⟨Opcode.first, ?_, by rw [if_neg hend]; rfl⟩
      rw [List.getElem?_append_left (by simpa using hinstruction), List.getElem?_replicate,
        if_pos hinstruction]

/-- A store whose sentinels have been written is well formed. -/
theorem wellFormed_of_prepare {threads programs programSize : Nat} {s t : Store}
    (hcreate : create threads programs programSize = .ok s) (hprepare : s.prepare = .ok t) :
    t.WellFormed ∧ t.threads = threads ∧ t.perThread = programs / threads ∧
      t.programSize = programSize := by
  obtain ⟨⟨hthreads, hprograms, hsize, heven⟩, rfl, hword⟩ := create_eq_ok hcreate
  have hperThread : 0 < programs / threads :=
    Nat.div_pos (Nat.le_of_dvd hprograms (Nat.dvd_of_mod_eq_zero heven)) hthreads
  unfold prepare at hprepare
  rw [if_neg (by simp)] at hprepare
  injection hprepare with hprepare
  subst hprepare
  refine ⟨?_, rfl, rfl, rfl⟩
  set t : Store := { threads, perThread := programs / threads, programSize
                     slots := (List.replicate threads
                      (blankPartition (programs / threads) programSize)).flatten.toArray
                     initialized := true } with ht
  have hblank : ∀ row ∈ List.replicate threads (blankPartition (programs / threads) programSize),
      row.length = t.partitionLength := by
    intro row hrow
    rw [List.eq_of_mem_replicate hrow]
    simp [blankPartition, partitionLength, programStride, ht]
  have hslots : t.slots.size = threads * t.partitionLength := by
    have := length_flatten_of_width hblank
    rw [List.length_replicate] at this
    exact this
  exact {
    initialized := rfl
    threads_pos := hthreads
    perThread_pos := hperThread
    programSize_pos := hsize
    size_eq := hslots
    addressable := by
      rw [hslots, Nat.mul_comm threads]
      exact hword
    admits := by
      intro i hi
      -- partitions are alike, so a slot has the role of its place in the first one
      have hpos : 0 < t.partitionLength := Nat.succ_pos _
      have hthread : i / t.partitionLength < threads := by
        rw [hslots, Nat.mul_comm] at hi
        exact Nat.div_lt_of_lt_mul hi
      obtain ⟨opcode, hopcode, hadmits⟩ :=
        t.getElem?_blankPartition (i % t.partitionLength) (Nat.mod_lt i hpos)
      have hread := getElem?_flatten hblank (b := i / t.partitionLength) (Nat.mod_lt i hpos)
      rw [Nat.div_add_mod', List.getElem?_replicate, if_pos hthread, Option.bind_some,
        hopcode] at hread
      have hrole : t.role (i % t.partitionLength) = t.role i := by
        unfold role
        simp only [Nat.mod_mod]
      rw [← hrole, Array.getD_eq_getD_getElem?, List.getElem?_toArray, hread]
      exact hadmits }

/-- A prepared store has as many programs as were asked for. -/
theorem programCount_of_prepare {threads programs programSize : Nat} {s t : Store}
    (hcreate : create threads programs programSize = .ok s) (hprepare : s.prepare = .ok t) :
    t.programCount = programs := by
  obtain ⟨-, hthreads, hperThread, -⟩ := wellFormed_of_prepare hcreate hprepare
  obtain ⟨⟨-, -, -, heven⟩, -, -⟩ := create_eq_ok hcreate
  rw [programCount, hthreads, hperThread]
  exact Nat.div_mul_cancel (Nat.dvd_of_mod_eq_zero heven)

/-! ## Operations keep the shape -/

/-- The slot that an operation addresses, if it addresses one. -/
theorem offset_eq_ok_iff {s : Store} (h : s.WellFormed) (program instruction i : Nat) :
    s.offset program instruction = .ok i ↔
      (program < s.programCount ∧ instruction < s.programSize) ∧
        i = s.slotAt program instruction := by
  unfold offset slotAt
  rw [if_neg (by simp [h.initialized])]
  by_cases hprogram : s.programCount ≤ program
  · rw [if_pos hprogram]
    simp [breach]
    omega
  · rw [if_neg hprogram]
    by_cases hinstruction : s.programSize ≤ instruction
    · rw [if_pos hinstruction]
      simp [breach]
      omega
    · rw [if_neg hinstruction]
      constructor
      · intro hok
        injection hok with hok
        exact ⟨by omega, hok.symm⟩
      · rintro ⟨-, rfl⟩
        rfl

/-- Slots still fit when some are copied to others of the same roles. -/
theorem Fits.copySlots {s : Store} {slots : Array Opcode} (h : s.Fits slots)
    {source target : Nat} (length : Nat)
    (hrole : ∀ i < length, s.role (target + i) = s.role (source + i))
    (hsource : ∀ i < length, source + i < slots.size) :
    s.Fits (Store.copySlots slots source target length) := by
  unfold Store.copySlots
  induction length with
  | zero => exact h
  | succ length ih =>
      rw [List.range_succ, List.foldl_append]
      have hcopied := ih (fun i hi => hrole i (by omega)) (fun i hi => hsource i (by omega))
      apply hcopied.set
      rw [hrole length (by omega)]
      exact h.2 _ (hsource length (by omega))

/-- A copy that is made is between programs of the store. -/
theorem copyProgram_eq_ok {s t : Store} {source target : Nat}
    (hcopy : s.copyProgram source target = .ok t) (h : s.WellFormed) :
    (source < s.programCount ∧ target < s.programCount) ∧
      t = { s with
        slots := copySlots s.slots (s.slotAt source 0) (s.slotAt target 0) s.programStride } := by
  unfold copyProgram at hcopy
  cases hi : s.offset source 0 with
  | error failure => simp [hi, bind, Except.bind] at hcopy
  | ok i =>
    cases hj : s.offset target 0 with
    | error failure => simp [hi, hj, bind, Except.bind] at hcopy
    | ok j =>
      obtain ⟨⟨hsource, -⟩, rfl⟩ := (offset_eq_ok_iff h _ _ _).mp hi
      obtain ⟨⟨htarget, -⟩, rfl⟩ := (offset_eq_ok_iff h _ _ _).mp hj
      simp only [hi, hj, bind, Except.bind, pure, Except.pure, Except.ok.injEq] at hcopy
      exact ⟨⟨hsource, htarget⟩, hcopy.symm⟩

/-- A store stays well formed when a program is copied. -/
theorem WellFormed.copyProgram {s t : Store} (h : s.WellFormed) {source target : Nat}
    (hcopy : s.copyProgram source target = .ok t) : t.WellFormed := by
  obtain ⟨⟨hsource, htarget⟩, rfl⟩ := copyProgram_eq_ok hcopy h
  apply h.withSlots
  have hrole : ∀ i < s.programStride, s.role (s.slotAt target 0 + i) =
      s.role (s.slotAt source 0 + i) := by
    intro i hi
    have hle : i ≤ s.programSize := Nat.le_of_lt_succ hi
    exact (role_slotAt htarget hle).trans (role_slotAt hsource hle).symm
  exact h.fits.copySlots _ hrole fun i hi => h.slotAt_lt_size hsource (Nat.le_of_lt_succ hi)

/-- A pass over instructions leaves a buffer that fits, however far it gets. -/
theorem Fits.transformSlots {σ κ : Type} {s : Store}
    (f : κ → Opcode → EStateM Failure σ Opcode) (steps : List (SlotStep κ))
    (hsteps : ∀ step ∈ steps, s.role step.target = .instruction) (slots : Array Opcode) (state : σ)
    (h : s.Fits slots) : s.Fits (endState (Store.transformSlots f steps (slots, state))).1 := by
  induction steps generalizing slots state with
  | nil => exact h
  | cons step rest ih =>
      unfold Store.transformSlots
      simp only
      split
      · exact h
      · split
        · exact h
        · next opcode _ _ hregular =>
          apply ih (fun other hother => hsteps other (List.mem_cons_of_mem _ hother))
          apply h.set
          rw [hsteps step (by simp)]
          simpa [SlotRole.Admits] using hregular

/-- The places of a store are those of all instructions of all threads. -/
theorem mem_places {s : Store} {place : Place} :
    place ∈ s.places ↔ place.thread < s.threads ∧ place.program < s.perThread ∧
      place.instruction < s.programSize := by
  obtain ⟨thread, program, instruction⟩ := place
  simp [places]

/-- A pass over slots changes the buffer of a store and nothing else. -/
theorem endState_withSlots {σ : Type} (pass : EStateM Failure (Array Opcode × σ) Unit) (s : Store)
    (state : σ) :
    endState (Store.withSlots pass (s, state)) =
      ({ s with slots := (endState (pass (s.slots, state))).1 },
        (endState (pass (s.slots, state))).2) := by
  unfold Store.withSlots
  simp only
  split
  · next hok => rw [hok]; rfl
  · next herror => rw [herror]; rfl

/-- The steps of a pass over every instruction. -/
def transformSteps (s : Store) : List (SlotStep Place) :=
  s.places.map fun place => { source := s.slotOf place, target := s.slotOf place, key := place }

/-- Replacing instructions is a pass over the places of the store. -/
theorem transform_eq {σ : Type} {s : Store} (h : s.initialized = true)
    (f : Place → Opcode → EStateM Failure σ Opcode) (state : σ) :
    Store.transform f (s, state) =
      Store.withSlots (Store.transformSlots f s.transformSteps) (s, state) := by
  unfold Store.transform
  simp only [h]
  rfl

/-- A pass over every instruction reads and writes slots of instructions. -/
theorem WellFormed.mem_transformSteps {s : Store} (h : s.WellFormed) {step : SlotStep Place}
    (hstep : step ∈ s.transformSteps) :
    step.target = step.source ∧ s.role step.source = .instruction ∧ step.source < s.slots.size := by
  obtain ⟨place, hplace, rfl⟩ := List.mem_map.mp hstep
  obtain ⟨hthread, hprogram, hinstruction⟩ := mem_places.mp hplace
  refine ⟨rfl, (s.role_local _ hprogram hinstruction.le).trans (if_neg hinstruction.ne), ?_⟩
  show s.slotOf place < _
  rw [s.slotOf_eq place hprogram, h.size_eq]
  refine slotAt_lt ?_ hinstruction.le
  rw [programCount, Nat.mul_comm s.perThread]
  exact mul_add_lt_mul hthread hprogram

/-- Replacing instructions leaves a well formed store, even when the pass fails half way. -/
theorem WellFormed.transform {σ : Type} {s : Store} (h : s.WellFormed)
    (f : Place → Opcode → EStateM Failure σ Opcode) (state : σ) :
    (endState (Store.transform f (s, state))).1.WellFormed := by
  rw [transform_eq h.initialized, endState_withSlots]
  apply h.withSlots
  refine h.fits.transformSlots f _ ?_ s.slots state
  intro step hstep
  obtain ⟨htarget, hrole, -⟩ := h.mem_transformSteps hstep
  exact htarget ▸ hrole

end Store

end LinearGP
