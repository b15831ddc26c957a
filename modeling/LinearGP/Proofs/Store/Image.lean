import Mathlib
import LinearGP.Proofs.Selection.Reproduction
import LinearGP.Proofs.Store.Reachable

/-!
# The buffer of a store, opcode by opcode

`Store.image` writes programs out as the buffer that holds them.  A store is `Filled` when its buffer
is such an image, of as many programs of the right size as its dimensions say; so sentinels are in
their places and nowhere else.  Well formed stores are filled, and whatever `Store.Operation`s are
performed on a prepared store, also after some that failed, it stays filled in the same dimensions.
-/

set_option autoImplicit false

namespace LinearGP

/-! ## Images -/

/-- The slots of a partition that holds the given programs. -/
def Partition.image (programs : List Program) : List Opcode :=
  programs.flatMap (fun program => program ++ [Opcode.END]) ++ [Opcode.HALT]

/-- The slots of a buffer whose partitions hold the given programs. -/
def Store.image (partitions : List (List Program)) : List Opcode :=
  partitions.flatMap Partition.image

/-- The buffer is the image of programs that fill the dimensions of the store, made of admitted
opcodes only. -/
def Store.Filled (s : Store) (admitted : Opcode → Prop) : Prop :=
  ∃ partitions : List (List Program),
    s.slots.toList = image partitions ∧ partitions.length = s.threads ∧
    ∀ programs ∈ partitions, programs.length = s.perThread ∧
      ∀ program ∈ programs, program.length = s.programSize ∧ ∀ opcode ∈ program, admitted opcode

/-- A partition is the image of the programs that it holds. -/
theorem Partition.Holds.slots_eq {partition : Partition} {programs : List Program}
    (h : partition.Holds programs) : partition.slots.toList = image programs := by
  have hrows : ∀ row ∈ programs.map (fun program => program ++ [Opcode.END]),
      row.length = partition.programSize + 1 := by
    intro row hrow
    obtain ⟨program, hprogram, rfl⟩ := List.mem_map.mp hrow
    rw [List.length_append, h.length_program program hprogram, List.length_singleton]
  have hlength := length_flatten_of_width hrows
  rw [List.length_map, h.length_eq] at hlength
  have hsize := h.size_eq
  unfold image
  rw [List.flatMap_def]
  apply List.ext_getElem?
  intro i
  rw [Array.getElem?_toList]
  by_cases hin : i < partition.programCount * (partition.programSize + 1)
  · have hp : i / (partition.programSize + 1) < partition.programCount :=
      Nat.div_lt_of_lt_mul (by rwa [Nat.mul_comm])
    have hi := Nat.mod_lt i (Nat.succ_pos partition.programSize)
    have hdivmod := Nat.div_add_mod' i (partition.programSize + 1)
    have hread := getElem?_flatten hrows (b := i / (partition.programSize + 1)) hi
    rw [hdivmod] at hread
    have hget := List.getElem?_eq_getElem (l := programs) (by rwa [h.length_eq])
    have hprogram := h.length_program _ (List.getElem_mem (l := programs) (by rwa [h.length_eq]))
    rw [List.getElem?_append_left (by rwa [hlength]), hread, List.getElem?_map, hget,
      Option.map_some, Option.bind_some]
    -- the slot is an instruction of its program, or the sentinel that ends it
    rcases Nat.lt_succ_iff_lt_or_eq.mp hi with hinstruction | hend
    · have hslot := h.instruction _ _ _ hget hinstruction
      rw [hdivmod] at hslot
      rw [List.getElem?_append_left (by rwa [hprogram]), hslot]
    · have hslot := h.programEnd _ hp
      rw [hend] at hdivmod
      rw [hdivmod] at hslot
      rw [List.getElem?_append_right (by rw [hprogram, hend]), hprogram, hend, Nat.sub_self, hslot]
      rfl
  · rw [List.getElem?_append_right (by rw [hlength]; exact Nat.le_of_not_lt hin), hlength]
    by_cases hlast : i = partition.programCount * (partition.programSize + 1)
    · rw [hlast, Nat.sub_self]
      exact h.partitionEnd
    · rw [Array.getElem?_eq_none (by omega), List.getElem?_eq_none (by simp; omega)]

namespace Store

/-- The buffer of a well formed store is the image of its programs. -/
theorem WellFormed.slots_eq {s : Store} (h : s.WellFormed) :
    s.slots.toList = image ((List.range s.threads).map s.threadPrograms) := by
  have hpartition : ∀ thread < s.threads, (s.slots.extract (thread * s.partitionLength)
      (thread * s.partitionLength + s.partitionLength)).toList =
        Partition.image (s.threadPrograms thread) := by
    intro thread hthread
    exact (holds_partition h (partition_eq h hthread)).1.slots_eq
  have hrows : ∀ row ∈ ((List.range s.threads).map s.threadPrograms).map Partition.image,
      row.length = s.partitionLength := by
    intro row hrow
    obtain ⟨programs, hprograms, rfl⟩ := List.mem_map.mp hrow
    obtain ⟨thread, hthread, rfl⟩ := List.mem_map.mp hprograms
    have hin := List.mem_range.mp hthread
    have hend : (thread + 1) * s.partitionLength ≤ s.slots.size := by
      rw [h.size_eq]
      exact Nat.mul_le_mul_right _ hin
    rw [Nat.succ_mul] at hend
    rw [← hpartition thread hin, Array.length_toList, Array.size_extract]
    omega
  have hpos : 0 < s.partitionLength := Nat.succ_pos _
  have hsize := h.size_eq
  unfold image
  rw [List.flatMap_def]
  apply List.ext_getElem?
  intro i
  rw [Array.getElem?_toList]
  -- a slot is found through its partition
  by_cases hin : i < s.threads * s.partitionLength
  · have hthread : i / s.partitionLength < s.threads :=
      Nat.div_lt_of_lt_mul (by rwa [Nat.mul_comm])
    have hi := Nat.mod_lt i hpos
    have hread := getElem?_flatten hrows (b := i / s.partitionLength) hi
    rw [Nat.div_add_mod'] at hread
    rw [hread, List.getElem?_map, List.getElem?_map, List.getElem?_range hthread, Option.map_some,
      Option.map_some, Option.bind_some, ← hpartition _ hthread, Array.getElem?_toList,
      getElem?_partition h hthread hi, Nat.div_add_mod', Array.getD_eq_getD_getElem?,
      Array.getElem?_eq_getElem (by omega), Option.getD_some]
  · rw [Array.getElem?_eq_none (by omega), List.getElem?_eq_none]
    rw [length_flatten_of_width hrows, List.length_map, List.length_map, List.length_range]
    omega

/-- A well formed store is filled with whatever its instructions are known to be. -/
theorem WellFormed.filled {s : Store} (h : s.WellFormed) {admitted : Opcode → Prop}
    (hadmitted : ∀ program < s.programCount, ∀ instruction < s.programSize,
      admitted (s.opcodeAt program instruction)) : s.Filled admitted := by
  refine ⟨(List.range s.threads).map s.threadPrograms, h.slots_eq, by simp, ?_⟩
  intro programs hprograms
  obtain ⟨thread, hthread, rfl⟩ := List.mem_map.mp hprograms
  refine ⟨by simp [threadPrograms], ?_⟩
  intro program hprogram
  obtain ⟨p, hp, rfl⟩ := List.mem_map.mp hprogram
  refine ⟨length_programAt _ _, ?_⟩
  intro opcode hopcode
  obtain ⟨i, hi, rfl⟩ := List.mem_map.mp hopcode
  exact hadmitted _ (member_lt (List.mem_range.mp hthread) (List.mem_range.mp hp)) i
    (List.mem_range.mp hi)

/-! ## Operations -/

/-- An operation on a store.  Functions that replace opcodes share a state of their own, and may
fail. -/
inductive Operation (σ : Type) where
  | prepare
  | set (program instruction : Nat) (opcode : Opcode)
  | copyProgram (source target : Nat)
  | copyProgramWith (source target : Nat) (f : Nat → Opcode → EStateM Failure σ Opcode)
  | transform (f : Place → Opcode → EStateM Failure σ Opcode)

variable {σ : Type}

/-- Replace the store by a result, or leave it when there is none. -/
def replaceBy (f : Store → Except Failure Store) : EStateM Failure (Store × σ) Unit :=
  fun (s, state) =>
    match f s with
    | .ok t => .ok () (t, state)
    | .error failure => .error failure (s, state)

def Operation.perform : Operation σ → EStateM Failure (Store × σ) Unit
  | prepare => replaceBy Store.prepare
  | set program instruction opcode => replaceBy fun s => s.set program instruction opcode
  | copyProgram source target => replaceBy fun s => s.copyProgram source target
  | copyProgramWith source target f => Store.copyProgramWith source target f
  | transform f => Store.transform f

/-- Perform operations one after the other, also after one that failed. -/
def run : List (Operation σ) → Store × σ → Store × σ
  | [], x => x
  | operation :: operations, x => run operations (endState (operation.perform x))

/-- Replacing a store by one that is computed from it keeps what the computation keeps. -/
theorem keeps_replaceBy (good : Store → Prop) {f : Store → Except Failure Store}
    (hf : ∀ s t, good s → f s = .ok t → good t) :
    Keeps (fun x : Store × σ => good x.1) (replaceBy f) := by
  rintro ⟨s, state⟩ hx
  unfold replaceBy
  simp only
  cases hresult : f s with
  | ok t => exact hf s t hx hresult
  | error failure => exact hx

/-- A store has its own shape. -/
theorem SameShape.refl (s : Store) : s.SameShape s := ⟨rfl, rfl, rfl⟩

/-- Copying through a function does not change the shape of a store. -/
theorem sameShape_copyProgramWith (source target : Nat)
    (f : Nat → Opcode → EStateM Failure σ Opcode) (s : Store) (state : σ) :
    (endState (Store.copyProgramWith source target f (s, state))).1.SameShape s := by
  unfold Store.copyProgramWith
  simp only
  split
  · exact .refl s
  · exact .refl s
  · next i j _ _ =>
    have hend := endState_withSlots (transformSlots f ((List.range s.programSize).map
      fun instruction => { source := i + instruction, target := j + instruction
                           key := instruction })) s state
    split
    · next hpass =>
      rw [hpass] at hend
      rw [show endState _ = _ from hend]
      exact ⟨rfl, rfl, rfl⟩
    · next copied _ hpass =>
      rw [hpass] at hend
      obtain ⟨slots, rfl⟩ : ∃ slots, copied = { s with slots } := ⟨_, congrArg Prod.fst hend⟩
      exact ⟨rfl, rfl, rfl⟩

/-- No operation breaks the shape of a store, whether it succeeds or fails. -/
theorem keeps_perform (t : Store) (operation : Operation σ) :
    Keeps (fun x : Store × σ => x.1.WellFormed ∧ x.1.SameShape t) operation.perform := by
  cases operation with
  | prepare =>
      refine keeps_replaceBy (fun s => s.WellFormed ∧ s.SameShape t) ?_
      rintro s u ⟨hs, -⟩ hprepare
      simp [prepare, hs.initialized, refuse] at hprepare
  | set program instruction opcode =>
      show Keeps _ (replaceBy fun s => s.set program instruction opcode)
      refine keeps_replaceBy (fun s => s.WellFormed ∧ s.SameShape t) ?_
      rintro s u ⟨hs, hshape⟩ hset
      refine ⟨hs.set hset, ?_⟩
      obtain ⟨-, -, rfl⟩ := set_eq_ok hset hs
      exact { hshape with }
  | copyProgram source target =>
      show Keeps _ (replaceBy fun s => s.copyProgram source target)
      refine keeps_replaceBy (fun s => s.WellFormed ∧ s.SameShape t) ?_
      rintro s u ⟨hs, hshape⟩ hcopy
      refine ⟨hs.copyProgram hcopy, ?_⟩
      obtain ⟨-, rfl⟩ := copyProgram_eq_ok hcopy hs
      exact { hshape with }
  | copyProgramWith source target f =>
      rintro ⟨s, state⟩ ⟨hs, hshape⟩
      exact ⟨hs.copyProgramWith source target f state,
        (sameShape_copyProgramWith source target f s state).trans hshape⟩
  | transform f =>
      rintro ⟨s, state⟩ ⟨hs, hshape⟩
      refine ⟨hs.transform f state, ?_⟩
      show (endState (Store.transform f (s, state))).1.SameShape t
      rw [transform_eq hs.initialized, endState_withSlots]
      exact { hshape with }

/-- Operations leave a store well formed and in its shape, also when they fail. -/
theorem wellFormed_run {t : Store} (operations : List (Operation σ)) {x : Store × σ}
    (h : x.1.WellFormed ∧ x.1.SameShape t) :
    (run operations x).1.WellFormed ∧ (run operations x).1.SameShape t := by
  induction operations generalizing x with
  | nil => exact h
  | cons operation operations ih => exact ih (keeps_perform t operation x h)

/-- A prepared store keeps its shape for ever: whatever operations are performed on it, successful or
not, its buffer keeps its length and is the image of programs without sentinels.  It can not be
prepared again. -/
theorem run_filled {threads programs programSize : Nat} {s : Store}
    (hcreate : create threads programs programSize = .ok s) :
    ∃ t, s.prepare = .ok t ∧ ∀ (operations : List (Operation σ)) (state : σ),
      (run operations (t, state)).1.slots.size = s.slots.size ∧
      ((run operations (t, state)).1.threads = threads ∧
        (run operations (t, state)).1.perThread = programs / threads ∧
        (run operations (t, state)).1.programSize = programSize) ∧
      (run operations (t, state)).1.Filled (fun opcode => opcode.isSentinel = false) ∧
      Operation.prepare.perform (run operations (t, state)) =
        .error (.error .alreadyInitialized) (run operations (t, state)) := by
  obtain ⟨-, hs, -⟩ := create_eq_ok hcreate
  obtain ⟨t, hprepare⟩ : ∃ t, s.prepare = .ok t := by
    rw [hs]
    exact ⟨_, rfl⟩
  obtain ⟨hwell, hthreads, hperThread, hsize⟩ := wellFormed_of_prepare hcreate hprepare
  refine ⟨t, hprepare, fun operations state => ?_⟩
  obtain ⟨hrun, hshape⟩ := wellFormed_run (t := t) operations (x := (t, state)) ⟨hwell, .refl t⟩
  generalize run operations (t, state) = u at hrun hshape
  refine ⟨?_, ⟨hshape.threads_eq.trans hthreads, hshape.perThread_eq.trans hperThread,
    hshape.programSize_eq.trans hsize⟩, ?_, ?_⟩
  · rw [hrun.size_eq, partitionLength, programStride, hshape.threads_eq, hshape.perThread_eq,
      hshape.programSize_eq, hthreads, hperThread, hsize, hs, Array.size_replicate, Nat.mul_comm]
  · exact hrun.filled fun program hprogram instruction hinstruction =>
      opcodeAt_regular hrun hprogram hinstruction
  · simp [Operation.perform, replaceBy, prepare, hrun.initialized, refuse]

/-- A function that counts up the opcodes of every program but the last one of a thread, where it
yields a sentinel. -/
private def countUp : Place → Opcode → EStateM Failure Nat Opcode := fun place opcode => do
  modify (· + 1)
  return if place.program = 0 then opcode + 1 else Opcode.END

/-- Two threads of two programs each, where two of four operations fail. -/
theorem run_filled_two :
    ∃ s t, create 2 4 2 = .ok s ∧ s.prepare = .ok t ∧
      (run [.set 3 1 5, .set 0 0 Opcode.HALT, .transform countUp, .copyProgram 0 3] (t, 0)).1.Filled
        (fun opcode => opcode.isSentinel = false) := by
  obtain ⟨t, hprepare, hrun⟩ := run_filled (σ := Nat) (rfl : create 2 4 2 = .ok _)
  exact ⟨_, t, rfl, hprepare, (hrun _ 0).2.2.1⟩

end Store

end LinearGP
