import Mathlib
import LinearGP.Proofs.Store.Programs

/-!
# Passes over a store

A pass visits the instructions of all programs in order.  Two stores with the same programs take the
same pass alike, however their programs are spread over partitions: `Same.transform` pairs up their
slots, and `Matches.set` is the step.  `Below` keeps opcodes inside a catalog, and a pass fails only
where its function does.
-/

set_option autoImplicit false

namespace LinearGP

namespace Store

variable {σ κ κ' : Type}

/-! ## Opcodes below a bound -/

/-- Every slot holds an opcode below a bound. -/
def Below (s : Store) (bound : Nat) : Prop :=
  ∀ i < s.slots.size, (s.slots.getD i Opcode.END).toNat < bound

/-- A pass keeps what holds of the old opcodes and of those that it writes. -/
theorem transformSlots_forall {good : Opcode → Prop} (f : κ → Opcode → EStateM Failure σ Opcode)
    (hf : ∀ key opcode state new state', good opcode → f key opcode state = .ok new state' →
      good new) (steps : List (SlotStep κ)) (slots : Array Opcode) (state : σ)
    (hsource : ∀ step ∈ steps, step.source < slots.size)
    (h : ∀ i < slots.size, good (slots.getD i Opcode.END)) :
    ∀ i < slots.size,
      good ((endState (transformSlots f steps (slots, state))).1.getD i Opcode.END) := by
  induction steps generalizing slots state with
  | nil => exact h
  | cons step rest ih =>
      have hold := h step.source (hsource step (by simp))
      unfold transformSlots
      simp only
      split
      · exact h
      · next new state' hnew =>
        split
        · exact h
        · have hrest := ih (slots.setIfInBounds step.target new) state'
          rw [Array.size_setIfInBounds] at hrest
          refine hrest (fun other hother => hsource other (List.mem_cons_of_mem _ hother)) ?_
          intro i hi
          rw [getD_setIfInBounds]
          by_cases hset : step.target = i ∧ i < slots.size
          · rw [if_pos hset]
            exact hf _ _ _ _ _ hold hnew
          · rw [if_neg hset]
            exact h i hi

/-- A pass whose function stays below a bound keeps the opcodes below it. -/
theorem Below.transform {s : Store} {bound : Nat} (h : s.Below bound) (hs : s.WellFormed)
    (f : Place → Opcode → EStateM Failure σ Opcode)
    (hf : ∀ place opcode state new state', opcode.toNat < bound →
      f place opcode state = .ok new state' → new.toNat < bound) (state : σ) :
    (endState (Store.transform f (s, state))).1.Below bound := by
  have hsource : ∀ step ∈ s.transformSteps, step.source < s.slots.size := fun step hstep =>
    (hs.mem_transformSteps hstep).2.2
  have hsize : (endState (Store.transformSlots f s.transformSteps (s.slots, state))).1.size =
      s.slots.size := by
    have hwell := (hs.transform f state).size_eq
    rw [transform_eq hs.initialized, endState_withSlots] at hwell
    exact hwell.trans hs.size_eq.symm
  rw [transform_eq hs.initialized, endState_withSlots]
  intro i hi
  have hi : i < s.slots.size := by rwa [← hsize]
  exact transformSlots_forall f hf s.transformSteps s.slots state hsource h i hi

/-- A copy keeps the opcodes below a bound. -/
theorem Below.copyProgram {s t : Store} {bound : Nat} (h : s.Below bound) (hs : s.WellFormed)
    {source target : Nat} (hcopy : s.copyProgram source target = .ok t) : t.Below bound := by
  have ht := hs.copyProgram hcopy
  obtain ⟨⟨hsource, htarget⟩, rfl⟩ := copyProgram_eq_ok hcopy hs
  intro i hi
  have hi : i < s.slots.size := by
    have hsize := ht.size_eq
    simp only at hsize hi
    rw [hsize] at hi
    rw [hs.size_eq]
    exact hi
  simp only
  rw [getD_copySlots _ _ _ _ _ hi]
  by_cases hin : s.slotAt target 0 ≤ i ∧ i < s.slotAt target 0 + s.programStride
  · rw [if_pos hin]
    apply h
    have hoffset : i - s.slotAt target 0 ≤ s.programSize :=
      Nat.le_of_lt_succ (by have : s.programStride = s.programSize + 1 := rfl; omega)
    exact hs.slotAt_lt_size hsource hoffset
  · rw [if_neg hin]
    exact h i hi

/-- A prepared store holds nothing but sentinels and the first instruction. -/
theorem toNat_le_of_prepare {s t : Store} (h : s.prepare = .ok t) (i : Nat) :
    (t.slots.getD i Opcode.END).toNat ≤ 2 := by
  have hblank : ∀ opcode ∈ blankPartition s.perThread s.programSize, opcode.toNat ≤ 2 := by
    intro opcode hopcode
    simp only [blankPartition, List.mem_append, List.mem_flatten, List.mem_replicate,
      List.mem_singleton] at hopcode
    rcases hopcode with ⟨row, ⟨-, rfl⟩, hopcode⟩ | rfl
    · simp only [List.mem_append, List.mem_replicate, List.mem_singleton] at hopcode
      rcases hopcode with ⟨-, rfl⟩ | rfl
      · decide
      · decide
    · decide
  unfold prepare at h
  split at h
  · simp [refuse] at h
  · injection h with h
    subst h
    rw [Array.getD_eq_getD_getElem?]
    cases hslot : ((List.replicate s.threads
        (blankPartition s.perThread s.programSize)).flatten.toArray)[i]? with
    | none => decide
    | some opcode =>
        have hmem := List.mem_toArray.mp (Array.mem_of_getElem? hslot)
        obtain ⟨row, hrow, hopcode⟩ := List.mem_flatten.mp hmem
        rw [List.eq_of_mem_replicate hrow] at hopcode
        exact hblank opcode hopcode

/-! ## Passes that succeed -/

/-- A pass succeeds when its function makes regular opcodes of regular opcodes. -/
theorem Fits.exists_transformSlots {s : Store} {f : κ → Opcode → EStateM Failure σ Opcode}
    (hf : ∀ key opcode state, opcode.isSentinel = false →
      ∃ new state', f key opcode state = .ok new state' ∧ new.isSentinel = false)
    {steps : List (SlotStep κ)}
    (hsteps : ∀ step ∈ steps, step.target = step.source ∧ s.role step.source = .instruction ∧
      step.source < s.slots.size)
    {slots : Array Opcode} (h : s.Fits slots) (state : σ) :
    ∃ result, Store.transformSlots f steps (slots, state) = .ok () result := by
  induction steps generalizing slots state with
  | nil => exact ⟨_, rfl⟩
  | cons step rest ih =>
      obtain ⟨htarget, hrole, hin⟩ := hsteps step (by simp)
      have hold := h.2 step.source (h.1 ▸ hin)
      rw [hrole] at hold
      obtain ⟨new, state', hnew, hregular⟩ :=
        hf step.key (slots.getD step.source Opcode.END) state hold
      have hnext : s.Fits (slots.setIfInBounds step.target new) := by
        apply h.set
        rw [htarget, hrole]
        exact hregular
      unfold Store.transformSlots
      simp only [hnew, hregular, Bool.false_eq_true, if_false]
      exact ih (fun other hother => hsteps other (List.mem_cons_of_mem _ hother)) hnext state'

/-- A pass succeeds when its function always yields a regular opcode. -/
theorem WellFormed.exists_transform {s : Store} (h : s.WellFormed)
    {f : Place → Opcode → EStateM Failure σ Opcode}
    (hf : ∀ place opcode state, opcode.isSentinel = false →
      ∃ new state', f place opcode state = .ok new state' ∧ new.isSentinel = false) (state : σ) :
    ∃ result, Store.transform f (s, state) = .ok () result := by
  obtain ⟨result, hresult⟩ :=
    h.fits.exists_transformSlots hf (fun _ hstep => h.mem_transformSteps hstep) state
  refine ⟨({ s with slots := result.1 }, result.2), ?_⟩
  rw [transform_eq h.initialized]
  unfold Store.withSlots
  simp only [hresult]

/-! ## Stores with the same programs -/

/-- The same programs, in partitions that may differ. -/
structure Same (s t : Store) : Prop where
  programCount_eq : s.programCount = t.programCount
  programSize_eq : s.programSize = t.programSize
  opcodeAt_eq : ∀ program < s.programCount, ∀ instruction < s.programSize,
    s.opcodeAt program instruction = t.opcodeAt program instruction

/-- Stores with the same opcodes have the same program in each place. -/
theorem Same.programAt_eq {s t : Store} (h : s.Same t) {program : Nat}
    (hprogram : program < s.programCount) : s.programAt program = t.programAt program := by
  unfold programAt
  rw [← h.programSize_eq]
  apply List.map_congr_left
  intro instruction hinstruction
  exact h.opcodeAt_eq program hprogram instruction (List.mem_range.mp hinstruction)

/-- Stores with the same opcodes have the same programs. -/
theorem Same.programs_eq {s t : Store} (h : s.Same t) : s.programs = t.programs := by
  unfold programs
  rw [← h.programCount_eq]
  apply List.map_congr_left
  intro program hprogram
  exact h.programAt_eq (List.mem_range.mp hprogram)

/-- Both stores have a slot for an instruction, or they turn it down alike. -/
theorem Same.offset {s t : Store} (h : s.Same t) (hs : s.WellFormed) (ht : t.WellFormed)
    (program instruction : Nat) :
    SameResult (fun i j => s.offset program instruction = .ok i ∧
      t.offset program instruction = .ok j) (s.offset program instruction)
      (t.offset program instruction) := by
  unfold Store.offset
  rw [hs.initialized, ht.initialized, h.programCount_eq, h.programSize_eq]
  by_cases hprogram : t.programCount ≤ program
  · simp only [hprogram, if_true]
    exact .error _
  · by_cases hinstruction : t.programSize ≤ instruction
    · simp only [hprogram, hinstruction, if_true, if_false]
      exact .error _
    · simp only [hprogram, hinstruction, if_false]
      exact .ok ⟨rfl, rfl⟩

/-- Instructions are read alike, those that do not exist included. -/
theorem Same.get_eq {s t : Store} (h : s.Same t) (hs : s.WellFormed) (ht : t.WellFormed)
    (program instruction : Nat) : s.get program instruction = t.get program instruction := by
  by_cases hin : program < s.programCount ∧ instruction < s.programSize
  · rw [Store.get_eq hs hin.1 hin.2,
      Store.get_eq ht (h.programCount_eq ▸ hin.1) (h.programSize_eq ▸ hin.2),
      h.opcodeAt_eq _ hin.1 _ hin.2]
  · have hoffset := h.offset hs ht program instruction
    unfold Store.get
    cases hi : s.offset program instruction with
    | ok i => exact absurd ((offset_eq_ok_iff hs _ _ _).mp hi).1 hin
    | error failure =>
        rw [hi] at hoffset
        generalize t.offset program instruction = other at hoffset ⊢
        cases hoffset
        rfl

/-- However the programs are spread over threads, a prepared store holds the same ones. -/
theorem same_of_prepare {threads threads' programs programSize : Nat} {s s' t t' : Store}
    (hcreate : create threads programs programSize = .ok s) (hprepare : s.prepare = .ok t)
    (hcreate' : create threads' programs programSize = .ok s') (hprepare' : s'.prepare = .ok t') :
    t.Same t' := by
  have hfirst : ∀ {threads : Nat} {s t : Store}, create threads programs programSize = .ok s →
      s.prepare = .ok t → t.programCount = programs ∧ t.programSize = programSize ∧
        ∀ program < t.programCount, ∀ instruction < t.programSize,
          t.opcodeAt program instruction = Opcode.first := by
    intro threads s t hcreate hprepare
    obtain ⟨hwell, -, -, hsize⟩ := wellFormed_of_prepare hcreate hprepare
    refine ⟨programCount_of_prepare hcreate hprepare, hsize, ?_⟩
    intro program hprogram instruction hinstruction
    have hregular := opcodeAt_regular hwell hprogram hinstruction
    have hle : (t.opcodeAt program instruction).toNat ≤ 2 := toNat_le_of_prepare hprepare _
    have hgt : 1 < (t.opcodeAt program instruction).toNat := by
      unfold Opcode.isSentinel Opcode.first at hregular
      simpa [UInt16.lt_iff_toNat_lt] using hregular
    exact UInt16.toNat_inj.mp (Nat.le_antisymm hle hgt)
  obtain ⟨hcount, hsize, hread⟩ := hfirst hcreate hprepare
  obtain ⟨hcount', hsize', hread'⟩ := hfirst hcreate' hprepare'
  exact {
    programCount_eq := hcount.trans hcount'.symm
    programSize_eq := hsize.trans hsize'.symm
    opcodeAt_eq := by
      intro program hprogram instruction hinstruction
      rw [hread program hprogram instruction hinstruction, hread' program (by omega) instruction
        (by omega)] }

/-- The slots of one instruction in two stores. -/
def Paired (s t : Store) (i j : Nat) : Prop :=
  ∃ program < s.programCount, ∃ instruction < s.programSize,
    i = s.slotAt program instruction ∧ j = t.slotAt program instruction

/-- Every instruction, as its program and position in the program. -/
def positions (programs programSize : Nat) : List (Nat × Nat) :=
  (List.range programs).flatMap fun program =>
    (List.range programSize).map fun instruction => (program, instruction)

/-- A pass over a store takes the instructions in the order of its programs. -/
theorem transformSteps_eq (s : Store) :
    s.transformSteps = (positions s.programCount s.programSize).map fun position => {
      source := s.slotAt position.1 position.2
      target := s.slotAt position.1 position.2
      key := { thread := position.1 / s.perThread, program := position.1 % s.perThread
               instruction := position.2 } } := by
  unfold transformSteps places positions programCount
  rw [Nat.mul_comm, range_mul, List.map_flatMap, List.flatMap_assoc, List.map_flatMap]
  apply List.flatMap_congr
  intro thread _
  rw [List.flatMap_map, List.map_flatMap, List.map_flatMap]
  apply List.flatMap_congr
  intro program hprogram
  rw [List.map_map, List.map_map]
  apply List.map_congr_left
  intro instruction _
  have hin := List.mem_range.mp hprogram
  have hslot := s.slotOf_eq ⟨thread, program, instruction⟩ hin
  simp only [Function.comp_apply, hslot, mul_add_div_width hin, mul_add_mod_width hin]

/-- Buffers that hold the same opcodes in paired slots. -/
def Matches (paired : Nat → Nat → Prop) (slots slots' : Array Opcode) : Prop :=
  ∀ i j, paired i j → (i < slots.size ∧ j < slots'.size) ∧
    slots.getD i Opcode.END = slots'.getD j Opcode.END

/-- Setting paired slots to the same opcode keeps pairs alike. -/
theorem Matches.set {paired : Nat → Nat → Prop} {slots slots' : Array Opcode}
    (h : Matches paired slots slots')
    (hpaired : ∀ i j i' j', paired i j → paired i' j' → (i = i' ↔ j = j')) {i j : Nat}
    (hij : paired i j) (opcode : Opcode) :
    Matches paired (slots.setIfInBounds i opcode) (slots'.setIfInBounds j opcode) := by
  intro i' j' hij'
  obtain ⟨⟨hi, hj⟩, hsame⟩ := h i' j' hij'
  rw [Array.size_setIfInBounds, Array.size_setIfInBounds, getD_setIfInBounds, getD_setIfInBounds]
  refine ⟨⟨hi, hj⟩, ?_⟩
  have hiff := hpaired i j i' j' hij hij'
  by_cases hset : i = i'
  · rw [if_pos ⟨hset, hi⟩, if_pos ⟨hiff.mp hset, hj⟩]
  · rw [if_neg (fun hin => hset hin.1), if_neg (fun hin => hset (hiff.mpr hin.1)), hsame]

/-- Passes over paired slots end alike. -/
theorem transformSlots_matches {paired : Nat → Nat → Prop}
    (hpaired : ∀ i j i' j', paired i j → paired i' j' → (i = i' ↔ j = j'))
    (f : Opcode → EStateM Failure σ Opcode) {steps : List (SlotStep κ)} {steps' : List (SlotStep κ')}
    (hsteps : List.Forall₂ (fun x y => x.source = x.target ∧ y.source = y.target ∧
      paired x.target y.target) steps steps') {slots slots' : Array Opcode}
    (h : Matches paired slots slots') (state : σ) :
    SameEnd (fun x y => Matches paired x.1 y.1 ∧ x.2 = y.2)
      (transformSlots (fun _ => f) steps (slots, state))
      (transformSlots (fun _ => f) steps' (slots', state)) := by
  induction hsteps generalizing slots slots' state with
  | nil => exact .ok () ⟨h, rfl⟩
  | @cons step step' rest rest' hstep _ ih =>
      obtain ⟨hsource, hsource', hij⟩ := hstep
      have hold := (h _ _ hij).2
      simp only [transformSlots, hsource, hsource', hold]
      cases f (slots'.getD step'.target Opcode.END) state with
      | error failure state' => exact .error failure ⟨h, rfl⟩
      | ok opcode state' =>
          simp only
          cases opcode.isSentinel with
          | true => exact .error _ ⟨h, rfl⟩
          | false => exact ih (h.set hpaired hij opcode) state'

/-- Each instruction has one slot in a store. -/
theorem paired_iff {s t : Store} (hcount : s.programCount = t.programCount)
    (hsize : s.programSize = t.programSize) (i j i' j' : Nat) (h : s.Paired t i j)
    (h' : s.Paired t i' j') : i = i' ↔ j = j' := by
  obtain ⟨p, hp, n, hn, rfl, rfl⟩ := h
  obtain ⟨p', hp', n', hn', rfl, rfl⟩ := h'
  constructor
  · intro heq
    obtain ⟨rfl, rfl⟩ := slotAt_injective hp hp' hn.le hn'.le heq
    rfl
  · intro heq
    obtain ⟨rfl, rfl⟩ := slotAt_injective (hcount ▸ hp) (hcount ▸ hp') (hsize ▸ hn.le)
      (hsize ▸ hn'.le) heq
    rfl

/-- Paired slots of stores with the same programs hold the same opcode. -/
theorem Same.matches {s t : Store} (h : s.Same t) (hs : s.WellFormed) (ht : t.WellFormed) :
    Matches (s.Paired t) s.slots t.slots := by
  rintro i j ⟨p, hp, n, hn, rfl, rfl⟩
  exact ⟨⟨hs.slotAt_lt_size hp hn.le,
    ht.slotAt_lt_size (h.programCount_eq ▸ hp) (h.programSize_eq ▸ hn.le)⟩, h.opcodeAt_eq p hp n hn⟩

/-- Replacing instructions of stores with the same programs ends alike, and in stores with the same
programs. -/
theorem Same.transform {s t : Store} (h : s.Same t) (hs : s.WellFormed) (ht : t.WellFormed)
    (f : Opcode → EStateM Failure σ Opcode) (state : σ) :
    SameEnd (fun x y => x.1.Same y.1 ∧ x.2 = y.2) (Store.transform (fun _ => f) (s, state))
      (Store.transform (fun _ => f) (t, state)) := by
  have hsteps : List.Forall₂ (fun x y => x.source = x.target ∧ y.source = y.target ∧
      s.Paired t x.target y.target) s.transformSteps t.transformSteps := by
    rw [transformSteps_eq, transformSteps_eq, ← h.programCount_eq, ← h.programSize_eq,
      List.forall₂_map_left_iff, List.forall₂_map_right_iff, List.forall₂_same]
    intro position hposition
    obtain ⟨p, hp, hposition⟩ := List.mem_flatMap.mp hposition
    obtain ⟨n, hn, rfl⟩ := List.mem_map.mp hposition
    exact ⟨rfl, rfl, p, List.mem_range.mp hp, n, List.mem_range.mp hn, rfl, rfl⟩
  have hpass := transformSlots_matches (paired_iff h.programCount_eq h.programSize_eq) f hsteps
    (h.matches hs ht) state
  have hsame : ∀ slots slots' : Array Opcode, Matches (s.Paired t) slots slots' →
      ({ s with slots } : Store).Same { t with slots := slots' } := by
    intro slots slots' hmatches
    exact {
      programCount_eq := h.programCount_eq
      programSize_eq := h.programSize_eq
      opcodeAt_eq := fun p hp n hn => (hmatches _ _ ⟨p, hp, n, hn, rfl, rfl⟩).2 }
  rw [transform_eq hs.initialized, transform_eq ht.initialized]
  unfold Store.withSlots
  simp only
  generalize Store.transformSlots (fun _ => f) s.transformSteps (s.slots, state) = first at hpass ⊢
  generalize Store.transformSlots (fun _ => f) t.transformSteps (t.slots, state) = second at hpass ⊢
  cases hpass with
  | ok a hend => exact .ok a ⟨hsame _ _ hend.1, hend.2⟩
  | error failure hend => exact .error failure ⟨hsame _ _ hend.1, hend.2⟩

end Store

end LinearGP
