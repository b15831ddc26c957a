import Mathlib
import LinearGP.Proofs.Catalog.Opcodes
import LinearGP.Proofs.Store.Passes
import LinearGP.Selection.Mutation
import LinearGP.Selection.Reproduction

/-!
# Reproduction and mutation on the programs of a store

Reproduction makes the copies of one list of parents and places, and mutation is a pass over the
slots.  Both keep the store's shape and its catalog, stores with the same programs go through them
alike, and neither fails on a store that may be run.
-/

set_option autoImplicit false

namespace LinearGP

/-! ## The copies of reproduction

The loops go through winners and vacant places together, so what they do is to make the copies of one
list of pairs in order. -/

/-- The programs to copy: each as often as it has wins beyond its first. -/
def parents (wins : Array UInt8) : List Nat :=
  wins.toList.zipIdx.flatMap fun (w, program) => List.replicate (w.toNat - 1) program

/-- The copies to make, as pairs of a parent and a place, until one of the two runs out. -/
def offspring (wins : Array UInt8) : List (Nat × Nat) := (parents wins).zip (vacancies wins)

/-- Pairing off a sequence goes on with what its first part leaves. -/
theorem zip_append_left {α β : Type} (l l' : List α) (m : List β) :
    (l ++ l').zip m = l.zip m ++ l'.zip (m.drop l.length) := by
  induction l generalizing m with
  | nil => rfl
  | cons a l ih =>
      cases m with
      | nil => simp
      | cons b m => simp [ih m]

namespace Breeding

/-- The copies of one program go to the next vacant places, and when these run out all is done. -/
theorem fill_eq (program due : Nat) (b : Breeding) :
    b.fill program due = do
      let copies := (List.replicate due program).zip b.vacant
      let store ← copies.foldlM (fun s (parent, place) => s.copyProgram parent place) b.store
      let b' : Breeding := ⟨store, b.vacant.drop due, b.copies + copies.length⟩
      return if due ≤ b.vacant.length then .yield b' else .done b' := by
  induction due generalizing b with
  | zero => simp [fill]
  | succ due ih =>
      obtain ⟨s, vacant, copies⟩ := b
      cases vacant with
      | nil => simp [fill]
      | cons place vacant =>
          simp only [fill, ih, List.replicate_succ, List.zip_cons_cons, List.foldlM_cons,
            bind_assoc, List.drop_succ_cons, List.length_cons, Nat.add_le_add_iff_right,
            Nat.add_assoc, Nat.add_comm 1]

/-- The copies of all programs go to the vacant places one after the other. -/
theorem fillAll_eq (l : List (UInt8 × Nat)) (b : Breeding) :
    b.fillAll l = do
      let parents := l.flatMap fun (w, program) => List.replicate (w.toNat - 1) program
      let copies := parents.zip b.vacant
      let store ← copies.foldlM (fun s (parent, place) => s.copyProgram parent place) b.store
      return ⟨store, b.vacant.drop parents.length, b.copies + copies.length⟩ := by
  induction l generalizing b with
  | nil => simp [fillAll]
  | cons head l ih =>
      obtain ⟨w, program⟩ := head
      simp only [fillAll, fill_eq, List.flatMap_cons, zip_append_left, List.length_replicate,
        List.foldlM_append, bind_assoc, pure_bind, List.length_append, ← List.drop_drop]
      congr 1
      funext store
      -- when the places have run out, none is left for the programs that follow
      by_cases hdue : w.toNat - 1 ≤ b.vacant.length
      · simp only [if_pos hdue, ih, Nat.add_assoc]
      · simp only [if_neg hdue, List.drop_eq_nil_of_le (Nat.le_of_not_le hdue)]
        simp

end Breeding

/-- Reproduction makes the copies of the offspring in order. -/
theorem Store.reproduce_eq (s : Store) (wins : Array UInt8) :
    s.reproduce wins =
      if s.programCount ≠ wins.size then breach .shapeMismatch
      else do
        let t ← (offspring wins).foldlM (fun s (parent, place) => s.copyProgram parent place) s
        return (t, (offspring wins).length) := by
  unfold Store.reproduce
  rw [Breeding.fillAll_eq]
  simp only [bind_assoc, pure_bind, Nat.zero_add, offspring, parents]


namespace Store

/-- The dimensions of a store, which no operation changes. -/
structure SameShape (s t : Store) : Prop where
  threads_eq : s.threads = t.threads
  perThread_eq : s.perThread = t.perThread
  programSize_eq : s.programSize = t.programSize

/-- Having the same shape passes on. -/
theorem SameShape.trans {s t u : Store} (h : s.SameShape t) (h' : t.SameShape u) : s.SameShape u :=
  ⟨h.threads_eq.trans h'.threads_eq, h.perThread_eq.trans h'.perThread_eq,
    h.programSize_eq.trans h'.programSize_eq⟩

/-- Stores of the same shape have the same number of programs. -/
theorem SameShape.programCount_eq {s t : Store} (h : s.SameShape t) :
    s.programCount = t.programCount := by
  unfold programCount
  rw [h.threads_eq, h.perThread_eq]

/-- A store that may be run: its sentinels are in place and its opcodes are below a bound. -/
structure Runnable (s : Store) (bound : Nat) : Prop where
  wellFormed : s.WellFormed
  below : s.Below bound

/-- The opcodes of a partition are below the bound of its store. -/
theorem Runnable.toNat_lt_of_mem {s : Store} {bound : Nat} (h : s.Runnable bound) {thread : Nat}
    {partition : Partition} (hpartition : s.partition thread = .ok partition) {opcode : Opcode}
    (hopcode : opcode ∈ partition.slots) : opcode.toNat < bound := by
  rw [partition_eq h.wellFormed (thread_lt_of_partition h.wellFormed hpartition)] at hpartition
  injection hpartition with hpartition
  subst hpartition
  obtain ⟨i, hi, rfl⟩ := Array.mem_iff_getElem.mp hopcode
  rw [Array.getElem_extract]
  rw [Array.size_extract] at hi
  have hslot := h.below (thread * s.partitionLength + i) (by omega)
  rwa [Array.getD_eq_getD_getElem?, Array.getElem?_eq_getElem (by omega)] at hslot

/-- A pass whose function stays below the bound leaves a store that may be run, of the same
shape. -/
theorem Runnable.transform {σ : Type} {s : Store} {bound : Nat} (h : s.Runnable bound)
    (f : Place → Opcode → EStateM Failure σ Opcode)
    (hf : ∀ place opcode state new state', opcode.toNat < bound →
      f place opcode state = .ok new state' → new.toNat < bound) (state : σ) :
    (endState (Store.transform f (s, state))).1.Runnable bound ∧
      (endState (Store.transform f (s, state))).1.SameShape s := by
  refine ⟨⟨h.wellFormed.transform f state, h.below.transform h.wellFormed f hf state⟩, ?_⟩
  rw [transform_eq h.wellFormed.initialized, endState_withSlots]
  exact ⟨rfl, rfl, rfl⟩

/-- A copy leaves a store that may be run, of the same shape. -/
theorem Runnable.copyProgram {s t : Store} {bound : Nat} (h : s.Runnable bound)
    {source target : Nat} (hcopy : s.copyProgram source target = .ok t) :
    t.Runnable bound ∧ t.SameShape s := by
  refine ⟨⟨h.wellFormed.copyProgram hcopy, h.below.copyProgram h.wellFormed hcopy⟩, ?_⟩
  obtain ⟨-, rfl⟩ := copyProgram_eq_ok hcopy h.wellFormed
  exact ⟨rfl, rfl, rfl⟩

/-- Reproduction leaves a store that may be run, of the same shape. -/
theorem Runnable.reproduce {s t : Store} {bound : Nat} (h : s.Runnable bound) {wins : Array UInt8}
    {copies : Nat} (hreproduce : s.reproduce wins = .ok (t, copies)) :
    t.Runnable bound ∧ t.SameShape s := by
  have hcopies : ∀ u : Store,
      (offspring wins).foldlM (fun s (pair : Nat × Nat) => s.copyProgram pair.1 pair.2) s = .ok u →
      u.Runnable bound ∧ u.SameShape s := by
    intro u
    refine foldlM_preserves (fun u : Store => u.Runnable bound ∧ u.SameShape s) ?_ _
      ⟨h, rfl, rfl, rfl⟩
    intro a pair b ha hcopy
    obtain ⟨hb, hshape⟩ := ha.1.copyProgram hcopy
    exact ⟨hb, hshape.trans ha.2⟩
  rw [reproduce_eq] at hreproduce
  split at hreproduce
  · simp [breach] at hreproduce
  · obtain ⟨u, hfold, hpair⟩ := bind_eq_ok_iff.mp hreproduce
    cases hpair
    exact hcopies _ hfold

/-! ## Copies that succeed -/

/-- Any program can be copied over any other. -/
theorem WellFormed.exists_copyProgram {s : Store} (h : s.WellFormed) {source target : Nat}
    (hsource : source < s.programCount) (htarget : target < s.programCount) :
    ∃ t, s.copyProgram source target = .ok t := by
  have hi := (offset_eq_ok_iff h source 0 _).mpr ⟨⟨hsource, h.programSize_pos⟩, rfl⟩
  have hj := (offset_eq_ok_iff h target 0 _).mpr ⟨⟨htarget, h.programSize_pos⟩, rfl⟩
  unfold Store.copyProgram
  rw [hi, hj]
  exact ⟨_, rfl⟩

/-- Parents and places are programs with a number of wins. -/
theorem lt_of_mem_offspring {wins : Array UInt8} {parent place : Nat}
    (h : (parent, place) ∈ offspring wins) : parent < wins.size ∧ place < wins.size := by
  have hindex : ∀ {w : UInt8} {program : Nat}, (w, program) ∈ wins.toList.zipIdx →
      program < wins.size := by
    intro w program hmem
    have hget := List.mem_zipIdx_iff_getElem?.mp hmem
    rw [Array.getElem?_toList] at hget
    exact (Array.getElem?_eq_some_iff.mp hget).1
  obtain ⟨hparent, hplace⟩ := List.of_mem_zip h
  constructor
  · obtain ⟨⟨w, program⟩, hmem, hreplicate⟩ := List.mem_flatMap.mp hparent
    rw [List.eq_of_mem_replicate hreplicate]
    exact hindex hmem
  · obtain ⟨⟨w, program⟩, hmem, rfl⟩ := List.mem_map.mp hplace
    exact hindex (List.mem_of_mem_filter hmem)

/-- Reproduction succeeds when there is a number of wins for every program. -/
theorem WellFormed.exists_reproduce {s : Store} (h : s.WellFormed) {wins : Array UInt8}
    (hwins : s.programCount = wins.size) : ∃ t copies, s.reproduce wins = .ok (t, copies) := by
  obtain ⟨t, ht⟩ := exists_foldlM_eq_ok (fun u : Store => u.WellFormed ∧ u.programCount = wins.size)
    (f := fun u (pair : Nat × Nat) => u.copyProgram pair.1 pair.2) (l := offspring wins)
    (by
      rintro ⟨parent, place⟩ hpair u ⟨hu, hcount⟩
      obtain ⟨hparent, hplace⟩ := lt_of_mem_offspring hpair
      obtain ⟨v, hv⟩ := hu.exists_copyProgram (hcount ▸ hparent) (hcount ▸ hplace)
      refine ⟨v, hv, hu.copyProgram hv, ?_⟩
      obtain ⟨-, rfl⟩ := copyProgram_eq_ok hv hu
      exact hcount)
    ⟨h, hwins⟩
  refine ⟨t, (offspring wins).length, ?_⟩
  rw [reproduce_eq, if_neg (not_not.mpr hwins)]
  exact bind_eq_ok_iff.mpr ⟨t, ht, rfl⟩

/-! ## Stores with the same programs -/

/-- The same copy in stores with the same programs leaves the same programs. -/
theorem Same.copyProgram {s t : Store} (h : s.Same t) (hs : s.WellFormed) (ht : t.WellFormed)
    (source target : Nat) :
    SameResult (fun s' t' => s'.Same t' ∧ s'.WellFormed ∧ t'.WellFormed)
      (s.copyProgram source target) (t.copyProgram source target) := by
  unfold Store.copyProgram
  refine (h.offset hs ht source 0).bind fun i i' hi =>
    (h.offset hs ht target 0).bind fun j j' hj => .ok ?_
  have hcopy : s.copyProgram source target =
      .ok { s with slots := copySlots s.slots i j s.programStride } := by
    simp only [Store.copyProgram, hi.1, hj.1, bind, Except.bind, pure, Except.pure]
  have hcopy' : t.copyProgram source target =
      .ok { t with slots := copySlots t.slots i' j' t.programStride } := by
    simp only [Store.copyProgram, hi.2, hj.2, bind, Except.bind, pure, Except.pure]
  refine ⟨?_, hs.copyProgram hcopy, ht.copyProgram hcopy'⟩
  exact {
    programCount_eq := h.programCount_eq
    programSize_eq := h.programSize_eq
    opcodeAt_eq := by
      intro program hprogram instruction hinstruction
      have hprogram : program < s.programCount := hprogram
      have hinstruction : instruction < s.programSize := hinstruction
      have hsource : source < s.programCount := ((offset_eq_ok_iff hs _ _ _).mp hi.1).1.1
      rw [opcodeAt_copyProgram hs hcopy hprogram hinstruction,
        opcodeAt_copyProgram ht hcopy' (h.programCount_eq ▸ hprogram)
          (h.programSize_eq ▸ hinstruction)]
      refine h.opcodeAt_eq _ ?_ instruction hinstruction
      split
      · exact hsource
      · exact hprogram }

/-- Reproduction in stores with the same programs. -/
theorem Same.reproduce {s t : Store} (h : s.Same t) (hs : s.WellFormed) (ht : t.WellFormed)
    (wins : Array UInt8) :
    SameResult (fun x y => x.1.Same y.1 ∧ x.2 = y.2) (s.reproduce wins) (t.reproduce wins) := by
  have hcopies := SameResult.foldlM
    (R := fun s t : Store => s.Same t ∧ s.WellFormed ∧ t.WellFormed)
    (f := fun s (pair : Nat × Nat) => s.copyProgram pair.1 pair.2)
    (g := fun s (pair : Nat × Nat) => s.copyProgram pair.1 pair.2)
    (fun s t pair hst => hst.1.copyProgram hst.2.1 hst.2.2 pair.1 pair.2) (offspring wins)
    ⟨h, hs, ht⟩
  rw [reproduce_eq, reproduce_eq, h.programCount_eq]
  split
  · exact .error _
  · exact hcopies.bind fun s t hst => .ok ⟨hst.1, rfl⟩

end Store

/-! ## Mutation -/

section Mutation

variable {σ : Type} [DrawSource σ] {catalog : Catalog}

/-- Opcodes that are drawn for a catalog belong to it. -/
theorem drawOpcode_lt {opcode : Opcode} {s s' : σ}
    (h : drawOpcode Opcode.first catalog.endOpcode s = .ok opcode s') :
    opcode.toNat < catalog.opcodeCount := by
  unfold drawOpcode at h
  split at h
  · next hrange =>
    have hdrawn := (DrawSource.opcode_mem Opcode.first catalog.endOpcode s hrange).2
    injection h with hopcode
    rw [← catalog.toNat_endOpcode, ← hopcode]
    exact UInt16.lt_iff_toNat_lt.mp hdrawn
  · simp at h

/-- Mutation of an instruction stays within the catalog. -/
theorem mutateInstruction_lt {rate : Binary64} {opcode new : Opcode} {s s' : Nat × σ}
    (hopcode : opcode.toNat < catalog.opcodeCount)
    (h : mutateInstruction Opcode.first catalog.endOpcode rate opcode s = .ok new s') :
    new.toNat < catalog.opcodeCount := by
  obtain ⟨count, source⟩ := s
  simp only [mutateInstruction] at h
  split at h
  · cases h
  · injection h with hnew
    exact hnew ▸ hopcode
  · split at h
    · cases h
    · next hdraw =>
      injection h with hnew
      exact hnew ▸ drawOpcode_lt hdraw

/-- A mutation at a sensible rate leaves a regular opcode. -/
theorem exists_mutateInstruction {rate : Binary64} (hrate : rate.isChance = true) {opcode : Opcode}
    (hopcode : opcode.isSentinel = false) (state : Nat × σ) :
    ∃ new state', mutateInstruction Opcode.first catalog.endOpcode rate opcode state =
      .ok new state' ∧ new.isSentinel = false := by
  obtain ⟨count, source⟩ := state
  have hrange := catalog.first_lt_endOpcode
  unfold mutateInstruction tossCoin
  simp only [hrate, if_true]
  cases (DrawSource.coin rate source).1 with
  | false => exact ⟨opcode, _, rfl, hopcode⟩
  | true =>
      have hlow := (DrawSource.opcode_mem Opcode.first catalog.endOpcode
        (DrawSource.coin rate source).2 hrange).1
      unfold drawOpcode
      simp only [hrange, if_true]
      refine ⟨_, _, rfl, ?_⟩
      exact Opcode.isSentinel_eq_false hlow

/-- Mutation ends where its pass does, whether or not that fails. -/
theorem endState_mutate (low high : Opcode) (rate : Binary64) (s : Store) (source : σ) :
    endState (mutate low high rate (s, source)) =
      ((endState (Store.transform (fun _ => mutateInstruction low high rate) (s, 0, source))).1,
        (endState (Store.transform (fun _ => mutateInstruction low high rate)
          (s, 0, source))).2.2) := by
  unfold mutate
  cases hpass : Store.transform (fun _ => mutateInstruction low high rate) (s, 0, source) with
  | ok a state => simp only [hpass, endState]
  | error failure state => simp only [hpass, endState]

namespace Store

/-- Randomisation leaves a store that may be run, of the same shape. -/
theorem Runnable.randomize {s : Store} (h : s.Runnable catalog.opcodeCount) (source : σ) :
    (endState (LinearGP.randomize Opcode.first catalog.endOpcode (s, source))).1.Runnable
        catalog.opcodeCount ∧
      (endState (LinearGP.randomize Opcode.first catalog.endOpcode (s, source))).1.SameShape s := by
  refine h.transform _ ?_ source
  intro place opcode state new state' _ hnew
  exact drawOpcode_lt hnew

/-- Mutation leaves a store that may be run, of the same shape. -/
theorem Runnable.mutate {s : Store} (h : s.Runnable catalog.opcodeCount) (rate : Binary64)
    (source : σ) :
    (endState (LinearGP.mutate Opcode.first catalog.endOpcode rate (s, source))).1.Runnable
        catalog.opcodeCount ∧
      (endState (LinearGP.mutate Opcode.first catalog.endOpcode rate (s, source))).1.SameShape
        s := by
  rw [endState_mutate]
  refine h.transform _ ?_ (0, source)
  intro place opcode state new state' hopcode hnew
  exact mutateInstruction_lt hopcode hnew

variable (catalog) in
/-- Mutation at a sensible rate succeeds. -/
theorem WellFormed.exists_mutate {s : Store} (h : s.WellFormed) {rate : Binary64}
    (hrate : rate.isChance = true) (source : σ) :
    ∃ mutations result, LinearGP.mutate Opcode.first catalog.endOpcode rate (s, source) =
      .ok mutations result := by
  obtain ⟨⟨t, count, source'⟩, hpass⟩ := h.exists_transform
    (f := fun _ => mutateInstruction Opcode.first catalog.endOpcode rate)
    (fun _ _ state hopcode => exists_mutateInstruction hrate hopcode state) (0, source)
  refine ⟨count, (t, source'), ?_⟩
  unfold LinearGP.mutate
  simp only [hpass]

/-- Mutation of stores with the same programs makes the same draws. -/
theorem Same.mutate {s t : Store} (h : s.Same t) (hs : s.WellFormed) (ht : t.WellFormed)
    (low high : Opcode) (rate : Binary64) (source : σ) :
    SameEnd (fun x y => x.1.Same y.1 ∧ x.2 = y.2) (LinearGP.mutate low high rate (s, source))
      (LinearGP.mutate low high rate (t, source)) := by
  have hpass := h.transform hs ht (mutateInstruction low high rate) (0, source)
  unfold LinearGP.mutate
  simp only
  generalize Store.transform (fun _ => mutateInstruction low high rate) (s, 0, source) = first
    at hpass ⊢
  generalize Store.transform (fun _ => mutateInstruction low high rate) (t, 0, source) = second
    at hpass ⊢
  cases hpass with
  | @ok a x y hend =>
      obtain ⟨x, count, source⟩ := x
      obtain ⟨y, count', source'⟩ := y
      obtain ⟨hsame, heq⟩ := hend
      injection heq with hcount hsource
      subst hcount hsource
      exact .ok count ⟨hsame, rfl⟩
  | @error failure x y hend =>
      obtain ⟨x, count, source⟩ := x
      obtain ⟨y, count', source'⟩ := y
      obtain ⟨hsame, heq⟩ := hend
      injection heq with hcount hsource
      exact .error failure ⟨hsame, hsource⟩

end Store

end Mutation

end LinearGP
