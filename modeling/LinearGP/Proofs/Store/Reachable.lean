import Mathlib
import LinearGP.Proofs.Store.Shape

/-!
# Reachable stores

A store is reached by preparing it and then changing it through its operations, some of which may
fail half way.  Whatever the operations do, sentinels stay in their places.
-/

set_option autoImplicit false

namespace LinearGP

namespace Store

/-- The instruction that is set is one of the store, and it is set to a regular opcode. -/
theorem set_eq_ok {s t : Store} {program instruction : Nat} {opcode : Opcode}
    (hset : s.set program instruction opcode = .ok t) (h : s.WellFormed) :
    (program < s.programCount ∧ instruction < s.programSize) ∧ opcode.isSentinel = false ∧
      t = { s with slots := s.slots.setIfInBounds (s.slotAt program instruction) opcode } := by
  unfold set at hset
  cases hi : s.offset program instruction with
  | error failure => simp [hi, bind, Except.bind] at hset
  | ok i =>
      obtain ⟨hin, rfl⟩ := (offset_eq_ok_iff h _ _ _).mp hi
      cases hopcode : opcode.isSentinel with
      | true => simp [hi, hopcode, refuse, bind, Except.bind] at hset
      | false =>
          simp only [hi, hopcode, bind, Except.bind, pure, Except.pure, Bool.false_eq_true,
            if_false, Except.ok.injEq] at hset
          exact ⟨hin, rfl, hset.symm⟩

/-- A store stays well formed when a slot is set. -/
theorem WellFormed.set {s t : Store} (h : s.WellFormed) {program instruction : Nat}
    {opcode : Opcode} (hset : s.set program instruction opcode = .ok t) : t.WellFormed := by
  obtain ⟨⟨hprogram, hinstruction⟩, hopcode, rfl⟩ := set_eq_ok hset h
  apply h.withSlots
  apply h.fits.set
  rw [role_slotAt hprogram hinstruction.le, if_neg hinstruction.ne]
  exact hopcode

/-- The steps that copy a program through a function. -/
def copySteps (s : Store) (source target : Nat) : List (SlotStep Nat) :=
  (List.range s.programSize).map fun instruction =>
    { source := s.slotAt source 0 + instruction, target := s.slotAt target 0 + instruction
      key := instruction }

/-- The `END` of one program can be copied over that of another. -/
theorem WellFormed.copyEnd {s : Store} (h : s.WellFormed) {source target : Nat}
    (hsource : source < s.programCount) (htarget : target < s.programCount) :
    ({ s with
      slots := s.slots.setIfInBounds (s.slotAt target s.programSize)
        (s.slots.getD (s.slotAt source s.programSize) Opcode.END) } : Store).WellFormed := by
  have hrole : s.role (s.slotAt target s.programSize) = s.role (s.slotAt source s.programSize) :=
    (role_slotAt htarget le_rfl).trans (role_slotAt hsource le_rfl).symm
  apply h.withSlots
  apply h.fits.set
  rw [hrole]
  exact h.admits _ (h.slotAt_lt_size hsource le_rfl)

/-- A store stays well formed when a program is copied through a function, also when that fails. -/
theorem WellFormed.copyProgramWith {σ : Type} {s : Store} (h : s.WellFormed) (source target : Nat)
    (f : Nat → Opcode → EStateM Failure σ Opcode) (state : σ) :
    (endState (Store.copyProgramWith source target f (s, state))).1.WellFormed := by
  unfold Store.copyProgramWith
  simp only
  cases hi : s.offset source 0 with
  | error failure => exact h
  | ok i =>
    cases hj : s.offset target 0 with
    | error failure => exact h
    | ok j =>
      obtain ⟨⟨hsource, -⟩, rfl⟩ := (offset_eq_ok_iff h _ _ _).mp hi
      obtain ⟨⟨htarget, -⟩, rfl⟩ := (offset_eq_ok_iff h _ _ _).mp hj
      have hend := endState_withSlots (transformSlots f (s.copySteps source target)) s state
      have hpass : (endState (Store.withSlots (transformSlots f (s.copySteps source target))
          (s, state))).1.WellFormed := by
        rw [hend]
        apply h.withSlots
        refine h.fits.transformSlots f _ ?_ s.slots state
        intro step hstep
        obtain ⟨instruction, hinstruction, rfl⟩ := List.mem_map.mp hstep
        have hlt := List.mem_range.mp hinstruction
        exact (role_slotAt htarget hlt.le).trans (if_neg hlt.ne)
      simp only
      split
      · next hfailed =>
        exact hfailed ▸ hpass
      · next copied _ hcopied =>
        rw [show transformSlots f (List.map _ (List.range s.programSize)) =
          transformSlots f (s.copySteps source target) from rfl] at hcopied
        rw [hcopied] at hpass hend
        -- The pass has only changed the buffer.
        obtain ⟨slots, rfl⟩ : ∃ slots, copied = { s with slots } := ⟨_, congrArg Prod.fst hend⟩
        exact WellFormed.copyEnd hpass hsource htarget

/-- A prepared store, changed by operations one after the other. -/
inductive Reachable : Store → Prop
  | prepare {threads programs programSize : Nat} {s t : Store} :
      create threads programs programSize = .ok s → s.prepare = .ok t → Reachable t
  | set {s t : Store} {program instruction : Nat} {opcode : Opcode} :
      Reachable s → s.set program instruction opcode = .ok t → Reachable t
  | copyProgram {s t : Store} {source target : Nat} :
      Reachable s → s.copyProgram source target = .ok t → Reachable t
  | copyProgramWith {σ : Type} {s : Store} (source target : Nat)
      (f : Nat → Opcode → EStateM Failure σ Opcode) (state : σ) :
      Reachable s → Reachable (endState (Store.copyProgramWith source target f (s, state))).1
  | transform {σ : Type} {s : Store} (f : Place → Opcode → EStateM Failure σ Opcode) (state : σ) :
      Reachable s → Reachable (endState (Store.transform f (s, state))).1

/-- Reachable stores are well formed. -/
theorem Reachable.wellFormed {s : Store} (h : s.Reachable) : s.WellFormed := by
  induction h with
  | prepare hcreate hprepare => exact (wellFormed_of_prepare hcreate hprepare).1
  | set _ hset ih => exact ih.set hset
  | copyProgram _ hcopy ih => exact ih.copyProgram hcopy
  | copyProgramWith source target f state _ ih => exact ih.copyProgramWith source target f state
  | transform f state _ ih => exact ih.transform f state

end Store

end LinearGP
