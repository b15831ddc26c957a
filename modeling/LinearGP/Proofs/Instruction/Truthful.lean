import Mathlib
import LinearGP.Proofs.Evaluation
import LinearGP.Proofs.Instruction.Effects

/-!
# Which instructions can be told by their accesses

Analyses never run an instruction, they believe its accesses.  `Truthful` says what they believe: the
instruction keeps to the writes that it lists, and two runs that start alike in the listed reads end
alike in the listed writes.

All instructions but one kind are truthful.  A packed move of the lowest number lists the whole of
both registers, but moves the lower half only, and the upper half of its destination is neither read
nor written.  `truthful_iff` says that this is the only exception.
-/

set_option autoImplicit false

namespace LinearGP

namespace Instruction

/-- Two register files have the same bits wherever an instruction lists a read. -/
def ReadsAgree (i : Instruction) (s t : Registers) : Prop :=
  ∀ r range, .read r range ∈ i.accesses → s.AgreeAt t r range

/-- Agreement on what is read goes both ways. -/
theorem ReadsAgree.symm {i : Instruction} {s t : Registers} (h : i.ReadsAgree s t) :
    i.ReadsAgree t s :=
  fun r range hread b hb => (h r range hread b hb).symm

/-- What the accesses of an instruction promise about running it. -/
structure Truthful (i : Instruction) : Prop where
  /-- No bit changes outside of the listed writes. -/
  frame : ∀ s s', i.exec s = some s' → ∀ r b,
    (∀ range always, .write r range always ∈ i.accesses → ¬ range.Holds b) → s'.bit r b = s.bit r b
  /-- Whether the machine stops depends on the listed reads. -/
  stops : ∀ s t, i.ReadsAgree s t → (i.exec s = none ↔ i.exec t = none)
  /-- A write that is always made depends on the listed reads. -/
  always : ∀ s t s' t', i.ReadsAgree s t → i.exec s = some s' → i.exec t = some t' →
    ∀ r range, .write r range true ∈ i.accesses → s'.AgreeAt t' r range
  /-- Any other write is made alike, or not made at all. -/
  conditional : ∀ s t s' t', i.ReadsAgree s t → i.exec s = some s' → i.exec t = some t' →
    ∀ r range, .write r range false ∈ i.accesses →
      s'.AgreeAt t' r range ∨ s'.AgreeAt s r range ∧ t'.AgreeAt t r range

/-- An instruction is truthful when runs that start alike end alike. -/
theorem truthful_of_writes_agree {i : Instruction}
    (h : ∀ s s' t, i.exec s = some s' → i.ReadsAgree s t → ∃ t', i.exec t = some t' ∧
      ∀ r range always, .write r range always ∈ i.accesses → s'.AgreeAt t' r range) :
    i.Truthful := by
  have hstops : ∀ s t, i.ReadsAgree s t → i.exec t = none → i.exec s = none := by
    intro s t hreads hnone
    cases hs : i.exec s with
    | none => rfl
    | some s' =>
        obtain ⟨t', ht, -⟩ := h s s' t hs hreads
        rw [hnone] at ht
        cases ht
  have hwrites : ∀ s t s' t', i.ReadsAgree s t → i.exec s = some s' → i.exec t = some t' →
      ∀ r range always, .write r range always ∈ i.accesses → s'.AgreeAt t' r range := by
    intro s t s' t' hreads hs ht
    obtain ⟨found, hfound, hagree⟩ := h s s' t hs hreads
    rw [ht, Option.some.injEq] at hfound
    exact hfound ▸ hagree
  exact {
    frame := fun s s' hs r b hout => bit_eq_of_exec hs hout
    stops := fun s t hreads => ⟨hstops t s hreads.symm, hstops s t hreads⟩
    always := fun s t s' t' hreads hs ht r range => hwrites s t s' t' hreads hs ht r range true
    conditional := fun s t s' t' hreads hs ht r range hwrite =>
      .inl (hwrites s t s' t' hreads hs ht r range false hwrite) }

/-- The accesses of an instruction can be trusted unless it is a packed move of the lowest
number. -/
theorem truthful_of_movesScalar {i : Instruction} (h : i.MovesScalar) : i.Truthful :=
  truthful_of_writes_agree fun _ _ _ hs hreads => exec_eq_of_agree h hs hreads

/-! ## Packed moves of the lowest number -/

/-- A lane that is set to what it holds changes nothing. -/
theorem setLane_lane_zero {w : Nat} (x : BitVec 128) : setLane x 0 (lane w x 0) = x := by
  apply BitVec.eq_of_getLsbD_eq
  intro j hj
  rw [getLsbD_setLane _ _ _ _ hj, getLsbD_lane]
  split
  · next hin =>
    have hplace : w * 0 + (j - w * 0) = j := by omega
    rw [hplace, decide_eq_true (by omega), Bool.true_and]
  · rfl

/-- A move of the lowest number of a register to itself changes nothing. -/
theorem exec_moveLow_self (form : FloatForm) (r : Xmm) (s : Registers) :
    (moveLow form r r).exec s = some (s.setXmm r (s.xmm r)) := by
  rw [exec, setLane_lane_zero]

/-- A move from a register to itself writes what it reads. -/
theorem truthful_moveLow_self (form : FloatForm) (r : Xmm) : (moveLow form r r).Truthful := by
  apply truthful_of_writes_agree
  intro s s' t hs hreads
  refine ⟨_, exec_moveLow_self form r t, ?_⟩
  rw [exec_moveLow_self, Option.some.injEq] at hs
  subst hs
  intro q range always hwrite b hb
  obtain ⟨rfl, rfl⟩ : q = .xmm r ∧ range = form.range := by
    simp [accesses] at hwrite
    exact ⟨hwrite.1, hwrite.2.1⟩
  rw [Registers.bit_setXmm, Registers.bit_setXmm, if_pos rfl, if_pos rfl]
  exact hreads (.xmm r) form.range (by simp [accesses]) b hb

/-- The highest bit of a destination stays, whatever the form of the move. -/
theorem bit_of_exec_moveLow {form : FloatForm} {dst src : Xmm} {s s' : Registers}
    (h : (moveLow form dst src).exec s = some s') : s'.bit (.xmm dst) 127 = s.bit (.xmm dst) 127 := by
  have hwidth : moveLowBits form ≤ 64 := by
    unfold moveLowBits
    split <;> omega
  rw [exec, Option.some.injEq] at h
  subst h
  rw [Registers.bit_setXmm, if_pos rfl, getLsbD_setLane _ _ _ _ (by omega), if_neg (by omega)]
  rfl

/-- A packed move between two registers lists a write of bits that it leaves alone. -/
theorem not_truthful_moveLow {form : FloatForm} (hpacked : form.packed = true) {dst src : Xmm}
    (hne : dst ≠ src) : ¬ (moveLow form dst src).Truthful := by
  intro h
  have hrange : form.range = .low128 := by
    obtain ⟨precision, packed⟩ := form
    simp only at hpacked
    subst hpacked
    cases precision <;> rfl
  -- The two register files differ in the upper half of the destination, which is not a source.
  set t : Registers := Registers.cleared.setXmm dst (BitVec.allOnes 128) with ht
  have hreads : (moveLow form dst src).ReadsAgree .cleared t := by
    intro r range hread b _
    obtain rfl : r = .xmm src := by
      simp [accesses] at hread
      exact hread.1
    rw [ht, Registers.bit_setXmm, if_neg (by simpa using hne.symm)]
  have hagree := h.always .cleared t _ _ hreads rfl rfl (.xmm dst) .low128
    (by simp [accesses, hrange]) 127 ⟨by decide, by decide⟩
  rw [bit_of_exec_moveLow rfl, bit_of_exec_moveLow rfl, ht, Registers.bit_setXmm, if_pos rfl] at hagree
  cases dst <;> exact absurd hagree (by decide)

/-! ## All instructions -/

/-- An instruction is truthful unless it is a packed move of the lowest number between two
registers. -/
theorem truthful_iff (i : Instruction) :
    i.Truthful ↔ ∀ form dst src, i = moveLow form dst src → form.packed = true → dst = src := by
  constructor
  · rintro h form dst src rfl hpacked
    by_contra hne
    exact not_truthful_moveLow hpacked hne h
  · intro h
    cases i with
    | moveLow form dst src =>
        cases hpacked : form.packed with
        | false => exact truthful_of_movesScalar hpacked
        | true =>
            obtain rfl := h form dst src rfl hpacked
            exact truthful_moveLow_self form dst
    | nop | int | unary | bitCount | div | float | moveAll => exact truthful_of_movesScalar trivial

/-- Moving the lower half of one register to another is listed as a write of all of it. -/
theorem not_truthful_moveLow_double : ¬ (moveLow ⟨.double, true⟩ .xmm0 .xmm1).Truthful :=
  not_truthful_moveLow rfl (by decide)

end Instruction

end LinearGP
