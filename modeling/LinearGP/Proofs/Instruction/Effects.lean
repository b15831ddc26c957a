import Mathlib
import LinearGP.Instruction.Accesses
import LinearGP.Instruction.Exec

/-!
# Accesses tell the truth

What `Instruction.accesses` says of an instruction is all that analyses know about it.
`bit_eq_of_exec` says that an instruction leaves every bit it does not list as written, and
`exec_eq_of_agree` that the bits it writes depend on no bits but those it lists as read.  The second
holds of moves of a single number only: `moveLow` in a packed form leaves the upper half of its
destination, which it does not read.
-/

set_option autoImplicit false

namespace LinearGP

/-! ## Lanes -/

/-- Setting the lowest lanes changes their bits and no others. -/
theorem getLsbD_setLanes {w : Nat} (hw : 0 < w) (x : BitVec 128) (n : Nat) (f : Nat → BitVec w)
    (j : Nat) (hj : j < 128) :
    (setLanes x n f).getLsbD j =
      if j < w * n then (f (j / w)).getLsbD (j % w) else x.getLsbD j := by
  unfold setLanes
  induction n with
  | zero => simp
  | succ n ih =>
      rw [List.range_succ, List.foldl_append, List.foldl_cons, List.foldl_nil,
        getLsbD_setLane _ _ _ _ hj, ih, Nat.mul_succ]
      by_cases hlast : w * n ≤ j ∧ j < w * n + w
      · have hplace : j / w = n := Nat.div_eq_of_lt_le (by rw [Nat.mul_comm]; exact hlast.1)
          (by rw [Nat.mul_comm, Nat.mul_succ]; exact hlast.2)
        have hrest : j - w * n = j % w := by
          have := Nat.div_add_mod j w
          rw [hplace] at this
          omega
        rw [if_pos hlast, if_pos hlast.2, hplace, hrest]
      · rw [if_neg hlast]
        by_cases hbefore : j < w * n
        · rw [if_pos hbefore, if_pos (by omega)]
        · rw [if_neg hbefore, if_neg (by omega)]

/-- Registers that have the same bits at a lane have the same lane. -/
theorem lane_eq_of_bits {w : Nat} {x y : BitVec 128} {i : Nat}
    (h : ∀ j, w * i ≤ j → j < w * i + w → x.getLsbD j = y.getLsbD j) : lane w x i = lane w y i := by
  apply BitVec.eq_of_getLsbD_eq
  intro j hj
  rw [getLsbD_lane, getLsbD_lane, h (w * i + j) (by omega) (by omega)]

namespace Registers

/-! ## Bits of the register file -/

/-- Setting a general purpose register changes its bits and no others. -/
theorem bit_setGpr (s : Registers) (r : Gpr) (v : BitVec 64) (q : Register) (i : Nat) :
    (s.setGpr r v).bit q i = if q = .gpr r then v.getLsbD i else s.bit q i := by
  cases q with
  | gpr q =>
      unfold bit value
      simp only [gpr_setGpr, Register.gpr.injEq]
      split <;> rfl
  | xmm q =>
      unfold bit value
      simp only [xmm_setGpr, reduceCtorEq, if_false]

/-- The bits of all registers after a vector register was set. -/
theorem bit_setXmm (s : Registers) (r : Xmm) (v : BitVec 128) (q : Register) (i : Nat) :
    (s.setXmm r v).bit q i = if q = .xmm r then v.getLsbD i else s.bit q i := by
  cases q with
  | gpr q =>
      unfold bit value
      simp only [gpr_setXmm, reduceCtorEq, if_false]
  | xmm q =>
      unfold bit value
      simp only [xmm_setXmm, Register.xmm.injEq]
      split <;> rfl

/-- Two register files have the same bits in a span of a register. -/
def AgreeAt (s t : Registers) (r : Register) (range : BitRange) : Prop :=
  ∀ i, range.Holds i → s.bit r i = t.bit r i

/-- Files that agree on all bits of a general purpose register hold the same value in it. -/
theorem AgreeAt.gpr_eq {s t : Registers} {r : Gpr} (h : s.AgreeAt t (.gpr r) .low64) :
    s.gpr r = t.gpr r :=
  BitVec.eq_of_getLsbD_eq fun i hi => h i ⟨Nat.zero_le i, hi⟩

/-- Files that agree on all bits of a vector register hold the same value in it. -/
theorem AgreeAt.xmm_eq {s t : Registers} {r : Xmm} (h : s.AgreeAt t (.xmm r) .low128) :
    s.xmm r = t.xmm r :=
  BitVec.eq_of_getLsbD_eq fun i hi => h i ⟨Nat.zero_le i, hi⟩

end Registers

/-! ## Forms of floating point instructions -/

namespace FloatForm

/-- The bits of a form are those of its lanes. -/
theorem holds_range_iff (form : FloatForm) (i : Nat) :
    form.range.Holds i ↔ i < form.precision.bits * form.lanes := by
  obtain ⟨precision, packed⟩ := form
  cases precision <;> cases packed <;>
    simp [range, lanes, Precision.bits, BitRange.Holds, BitRange.low32, BitRange.low64,
      BitRange.low128]

/-- The numbers that a form works on fit a vector register. -/
theorem bits_mul_lanes_le (form : FloatForm) : form.precision.bits * form.lanes ≤ 128 := by
  obtain ⟨precision, packed⟩ := form
  cases precision <;> cases packed <;> decide

end FloatForm

/-- A number has bits. -/
theorem Precision.bits_pos (p : Precision) : 0 < p.bits := by cases p <;> decide

/-- Files that agree on the range of a form agree on each of its lanes. -/
theorem Registers.AgreeAt.lane_eq {s t : Registers} {form : FloatForm} {r : Xmm}
    (h : s.AgreeAt t (.xmm r) form.range) {i : Nat} (hi : i < form.lanes) :
    lane form.precision.bits (s.xmm r) i = lane form.precision.bits (t.xmm r) i := by
  apply lane_eq_of_bits
  intro j _ hj
  apply h j
  rw [FloatForm.holds_range_iff]
  calc j < form.precision.bits * i + form.precision.bits := hj
    _ = form.precision.bits * (i + 1) := (Nat.mul_succ _ _).symm
    _ ≤ form.precision.bits * form.lanes := Nat.mul_le_mul_left _ hi

/-- Arithmetic sets the bits of the lanes of its form and keeps the others of its target. -/
theorem Registers.getLsbD_floatLanes (s : Registers) (op : FloatOp) (form : FloatForm)
    (dst src : Xmm) (j : Nat) (hj : j < 128) :
    (s.floatLanes op form dst src).getLsbD j =
      if form.range.Holds j then
        (op.apply form.precision
          (lane form.precision.bits (s.xmm dst) (j / form.precision.bits))
          (lane form.precision.bits (s.xmm src) (j / form.precision.bits))).getLsbD
            (j % form.precision.bits)
      else (s.xmm dst).getLsbD j := by
  unfold floatLanes
  rw [getLsbD_setLanes form.precision.bits_pos _ _ _ _ hj]
  simp only [FloatForm.holds_range_iff]

namespace Instruction

/-- The instruction moves single numbers only, if it moves the lowest number of a register. -/
def MovesScalar : Instruction → Prop
  | moveLow form _ _ => form.packed = false
  | _ => True

/-- The bits that a scalar move copies are those it lists. -/
theorem holds_range_of_scalar {form : FloatForm} (h : form.packed = false) (i : Nat) :
    form.range.Holds i ↔ i < moveLowBits form := by
  obtain ⟨precision, packed⟩ := form
  simp only at h
  subst h
  cases precision <;>
    simp [FloatForm.range, moveLowBits, BitRange.Holds, BitRange.low32, BitRange.low64]

/-! ## What is not written stays -/

/-- A write to a general purpose register is not noticed anywhere else. -/
theorem bit_setGpr_of_not_holds {s : Registers} {r : Gpr} {v : BitVec 64} {q : Register} {b : Nat}
    (h : q = .gpr r → ¬ BitRange.low64.Holds b) : (s.setGpr r v).bit q b = s.bit q b := by
  rw [Registers.bit_setGpr]
  by_cases hq : q = .gpr r
  · have hbeyond : 64 ≤ b := by
      have hout := h hq
      simp only [BitRange.Holds, BitRange.low64] at hout
      omega
    rw [if_pos hq, BitVec.getLsbD_of_ge v b hbeyond]
    subst hq
    exact (BitVec.getLsbD_of_ge (s.gpr r) b hbeyond).symm
  · rw [if_neg hq]

/-- Bits of a vector register that is set stay where the new value has the old bits. -/
theorem bit_setXmm_of_same {s : Registers} {r : Xmm} {v : BitVec 128} {q : Register} {b : Nat}
    (h : q = .xmm r → b < 128 → v.getLsbD b = (s.xmm r).getLsbD b) :
    (s.setXmm r v).bit q b = s.bit q b := by
  rw [Registers.bit_setXmm]
  by_cases hq : q = .xmm r
  · rw [if_pos hq]
    subst hq
    by_cases hb : b < 128
    · exact h rfl hb
    · rw [BitVec.getLsbD_of_ge v b (by omega)]
      exact (BitVec.getLsbD_of_ge (s.xmm r) b (by omega)).symm
  · rw [if_neg hq]

/-- A division writes the registers of the dividend and no others. -/
theorem divide_eq {s t : Registers} {divisor : BitVec 64} (h : s.divide divisor = some t) :
    ∃ quotient rest, t = (s.setGpr .rax quotient).setGpr .rdx rest := by
  unfold Registers.divide at h
  simp only at h
  split at h
  · simp at h
  · injection h with h
    exact ⟨_, _, h.symm⟩

/-- An instruction leaves the bits that it does not list as written. -/
theorem bit_eq_of_exec {i : Instruction} {s s' : Registers} (h : i.exec s = some s') {r : Register}
    {b : Nat} (hout : ∀ range always, .write r range always ∈ i.accesses → ¬ range.Holds b) :
    s'.bit r b = s.bit r b := by
  cases i with
  | nop =>
      injection h with h
      rw [h]
  | int op dst src =>
      injection h with h
      subst h
      apply bit_setGpr_of_not_holds
      rintro rfl
      exact hout _ true (by cases op <;> simp [accesses, writeGpr])
  | unary op reg =>
      injection h with h
      subst h
      apply bit_setGpr_of_not_holds
      rintro rfl
      exact hout _ true (by simp [accesses, writeGpr])
  | bitCount op dst src =>
      injection h with h
      subst h
      apply bit_setGpr_of_not_holds
      rintro rfl
      exact hout _ true (by simp [accesses, writeGpr])
  | div src guarded =>
      have hrax : r = .gpr .rax → ¬ BitRange.low64.Holds b := by
        rintro rfl
        exact hout _ (!guarded) (by simp [accesses, writeGpr])
      have hrdx : r = .gpr .rdx → ¬ BitRange.low64.Holds b := by
        rintro rfl
        exact hout _ true (by simp [accesses, writeGpr])
      -- a guard clears the upper half first, and that is all when the divisor is zero
      cases guarded with
      | false =>
          obtain ⟨quotient, rest, rfl⟩ := divide_eq h
          rw [bit_setGpr_of_not_holds hrdx, bit_setGpr_of_not_holds hrax]
      | true =>
          simp only [exec] at h
          split at h
          · injection h with h
            subst h
            exact bit_setGpr_of_not_holds hrdx
          · obtain ⟨quotient, rest, rfl⟩ := divide_eq h
            rw [bit_setGpr_of_not_holds hrdx, bit_setGpr_of_not_holds hrax,
              bit_setGpr_of_not_holds hrdx]
  | float op form dst src =>
      injection h with h
      subst h
      apply bit_setXmm_of_same
      rintro rfl hb
      rw [Registers.getLsbD_floatLanes _ _ _ _ _ _ hb,
        if_neg (hout _ true (by simp [accesses]))]
  | moveAll dst src =>
      injection h with h
      subst h
      apply bit_setXmm_of_same
      rintro rfl hb
      exact absurd ⟨Nat.zero_le b, hb⟩ (hout .low128 true (by simp [accesses]))
  | moveLow form dst src =>
      injection h with h
      subst h
      apply bit_setXmm_of_same
      rintro rfl hb
      have hrange := hout form.range true (by simp [accesses])
      -- no more bits are copied than are listed
      have hbits : ¬ b < moveLowBits form := by
        intro hlt
        apply hrange
        obtain ⟨precision, packed⟩ := form
        cases precision <;> cases packed <;>
          simp [FloatForm.range, moveLowBits, BitRange.Holds, BitRange.low32, BitRange.low64,
            BitRange.low128] at hlt ⊢ <;> omega
      rw [getLsbD_setLane _ _ _ _ hb, Nat.mul_zero, Nat.zero_add, if_neg (by omega)]

/-! ## What is written depends on what is read -/

/-- Files that have the same value written to a register agree there. -/
theorem agreeAt_setGpr (s t : Registers) (r : Gpr) (v : BitVec 64) (range : BitRange) :
    (s.setGpr r v).AgreeAt (t.setGpr r v) (.gpr r) range := by
  intro b _
  rw [Registers.bit_setGpr, Registers.bit_setGpr, if_pos rfl, if_pos rfl]

/-- Integer arithmetic computes the same from registers that agree on what it reads. -/
theorem int_apply_eq {op : IntOp} {dst src : Gpr} {s t : Registers}
    (hreads : ∀ r range, .read r range ∈ (int op dst src).accesses → s.AgreeAt t r range) :
    op.apply (s.gpr dst) (s.gpr src) = op.apply (t.gpr dst) (t.gpr src) := by
  by_cases hzero : isZeroing op dst src = true
  · simp only [isZeroing, Bool.and_eq_true, decide_eq_true_eq, Bool.or_eq_true] at hzero
    obtain ⟨rfl, rfl | rfl⟩ := hzero <;> simp [IntOp.apply]
  · have hsrc : s.gpr src = t.gpr src := (hreads (.gpr src) .low64 (by
      cases op <;> simp [accesses, readGpr] <;> simp_all)).gpr_eq
    by_cases hmov : op = .mov
    · subst hmov
      exact hsrc
    · have hdst : s.gpr dst = t.gpr dst := (hreads (.gpr dst) .low64 (by
        cases op <;> simp [accesses, readGpr] <;> simp_all)).gpr_eq
      rw [hdst, hsrc]

/-- Divisions of the same dividend by the same divisor end alike. -/
theorem divide_eq_of_eq {s t : Registers} {divisor : BitVec 64} (hrax : s.rax = t.rax)
    (hrdx : s.rdx = t.rdx) {s' : Registers} (h : s.divide divisor = some s') :
    ∃ t', t.divide divisor = some t' ∧ s'.rax = t'.rax ∧ s'.rdx = t'.rdx := by
  unfold Registers.divide at h ⊢
  simp only [hrax, hrdx] at h
  simp only
  split at h
  · simp at h
  · next hok =>
    injection h with h
    rw [if_neg hok]
    refine ⟨_, rfl, ?_, ?_⟩ <;> rw [← h]

/-- Division computes the same from registers that agree on what it reads, if it succeeds. -/
theorem exec_div_eq {src : Gpr} {guarded : Bool} {s s' t : Registers}
    (h : (div src guarded).exec s = some s')
    (hreads : ∀ r range, .read r range ∈ (div src guarded).accesses → s.AgreeAt t r range) :
    ∃ t', (div src guarded).exec t = some t' ∧ s'.rax = t'.rax ∧ s'.rdx = t'.rdx := by
  have hrax : s.rax = t.rax := (hreads (.gpr .rax) .low64 (by simp [accesses, readGpr])).gpr_eq
  have hsrc : s.gpr src = t.gpr src :=
    (hreads (.gpr src) .low64 (by simp [accesses, readGpr])).gpr_eq
  cases guarded with
  | false =>
      have hrdx : s.rdx = t.rdx :=
        (hreads (.gpr .rdx) .low64 (by simp [accesses, readGpr])).gpr_eq
      simp only [exec, hsrc] at h ⊢
      exact divide_eq_of_eq hrax hrdx h
  | true =>
      -- The divisor is taken after `rdx` was cleared, and may be `rdx` itself.
      have hdivisor : (s.setGpr .rdx 0).gpr src = (t.setGpr .rdx 0).gpr src := by
        rw [Registers.gpr_setGpr, Registers.gpr_setGpr, hsrc]
      simp only [exec, hdivisor] at h ⊢
      split at h
      · next hzero =>
        injection h with h
        subst h
        exact ⟨_, if_pos hzero, hrax, rfl⟩
      · next hzero =>
        rw [if_neg hzero]
        exact divide_eq_of_eq (s := s.setGpr .rdx 0) (t := t.setGpr .rdx 0) hrax rfl h

/-- Floating point arithmetic computes the same from registers that agree on what it reads. -/
theorem agreeAt_floatLanes {op : FloatOp} {form : FloatForm} {dst src : Xmm} {s t : Registers}
    (hreads : ∀ r range, .read r range ∈ (float op form dst src).accesses → s.AgreeAt t r range) :
    (s.setXmm dst (s.floatLanes op form dst src)).AgreeAt
      (t.setXmm dst (t.floatLanes op form dst src)) (.xmm dst) form.range := by
  have hsrc : s.AgreeAt t (.xmm src) form.range :=
    hreads (.xmm src) form.range (by simp [accesses])
  have hresult : ∀ i < form.lanes,
      op.apply form.precision (lane form.precision.bits (s.xmm dst) i)
        (lane form.precision.bits (s.xmm src) i) =
      op.apply form.precision (lane form.precision.bits (t.xmm dst) i)
        (lane form.precision.bits (t.xmm src) i) := by
    intro i hi
    by_cases hsqrt : op = .sqrt
    · subst hsqrt
      simp only [FloatOp.apply, hsrc.lane_eq hi]
    · have hdst : s.AgreeAt t (.xmm dst) form.range :=
        hreads (.xmm dst) form.range (by simp [accesses, hsqrt])
      rw [hsrc.lane_eq hi, hdst.lane_eq hi]
  intro b hb
  have hbits := (FloatForm.holds_range_iff form b).mp hb
  have hin : b < 128 := lt_of_lt_of_le hbits form.bits_mul_lanes_le
  have hlane : b / form.precision.bits < form.lanes := Nat.div_lt_of_lt_mul hbits
  rw [Registers.bit_setXmm, Registers.bit_setXmm, if_pos rfl, if_pos rfl,
    Registers.getLsbD_floatLanes _ _ _ _ _ _ hin, Registers.getLsbD_floatLanes _ _ _ _ _ _ hin,
    if_pos hb, if_pos hb, hresult _ hlane]

/-- A scalar move copies the same number from registers that agree on it. -/
theorem agreeAt_moveLow {form : FloatForm} (hscalar : form.packed = false) {dst src : Xmm}
    {s t : Registers} (hsrc : s.AgreeAt t (.xmm src) form.range) :
    (s.setXmm dst (setLane (s.xmm dst) 0 (lane (moveLowBits form) (s.xmm src) 0))).AgreeAt
      (t.setXmm dst (setLane (t.xmm dst) 0 (lane (moveLowBits form) (t.xmm src) 0)))
      (.xmm dst) form.range := by
  intro b hb
  have hbits := (holds_range_of_scalar hscalar b).mp hb
  have hin : b < 128 := by
    have : moveLowBits form ≤ 64 := by unfold moveLowBits; split <;> omega
    omega
  have hbit : (s.xmm src).getLsbD b = (t.xmm src).getLsbD b := hsrc b hb
  rw [Registers.bit_setXmm, Registers.bit_setXmm, if_pos rfl, if_pos rfl,
    getLsbD_setLane _ _ _ _ hin, getLsbD_setLane _ _ _ _ hin, if_pos (by omega),
    if_pos (by omega), getLsbD_lane, getLsbD_lane]
  simp only [Nat.mul_zero, Nat.zero_add, Nat.sub_zero, hbit]

/-- The bits that an instruction writes depend on the bits that it lists as read, and so does
whether it stops the machine. -/
theorem exec_eq_of_agree {i : Instruction} (hscalar : i.MovesScalar) {s s' t : Registers}
    (h : i.exec s = some s')
    (hreads : ∀ r range, .read r range ∈ i.accesses → s.AgreeAt t r range) :
    ∃ t', i.exec t = some t' ∧
      ∀ r range always, .write r range always ∈ i.accesses → s'.AgreeAt t' r range := by
  cases i with
  | nop => exact ⟨t, rfl, by simp [accesses]⟩
  | int op dst src =>
      refine ⟨_, rfl, ?_⟩
      injection h with h
      subst h
      intro r range always hwrite
      have hr : r = .gpr dst := by
        cases op <;> simp [accesses, readGpr, writeGpr] at hwrite <;> grind
      subst hr
      rw [int_apply_eq hreads]
      exact agreeAt_setGpr s t dst _ range
  | unary op reg =>
      refine ⟨_, rfl, ?_⟩
      injection h with h
      subst h
      have hreg : s.gpr reg = t.gpr reg :=
        (hreads (.gpr reg) .low64 (by simp [accesses, readGpr])).gpr_eq
      intro r range always hwrite
      have hr : r = .gpr reg := by
        cases op <;> simp [accesses, readGpr, writeGpr] at hwrite <;> exact hwrite.1
      subst hr
      rw [hreg]
      exact agreeAt_setGpr s t reg _ range
  | bitCount op dst src =>
      refine ⟨_, rfl, ?_⟩
      injection h with h
      subst h
      have hsrc : s.gpr src = t.gpr src :=
        (hreads (.gpr src) .low64 (by simp [accesses, readGpr])).gpr_eq
      intro r range always hwrite
      have hr : r = .gpr dst := by
        simp [accesses, readGpr, writeGpr] at hwrite
        exact hwrite.1
      subst hr
      rw [hsrc]
      exact agreeAt_setGpr s t dst _ range
  | div src guarded =>
      -- the only instruction that may stop, so that the other run has to be found as well
      obtain ⟨t', ht, hquotient, hrest⟩ := exec_div_eq h hreads
      refine ⟨t', ht, ?_⟩
      intro r range always hwrite b _
      have hr : r = .gpr .rax ∨ r = .gpr .rdx := by
        cases guarded <;> simp [accesses, readGpr, writeGpr] at hwrite <;> tauto
      rcases hr with rfl | rfl
      · exact congrArg (·.getLsbD b) hquotient
      · exact congrArg (·.getLsbD b) hrest
  | float op form dst src =>
      refine ⟨_, rfl, ?_⟩
      injection h with h
      subst h
      intro r range always hwrite
      obtain ⟨rfl, rfl⟩ : r = .xmm dst ∧ range = form.range := by
        simp [accesses] at hwrite
        exact ⟨hwrite.1, hwrite.2.1⟩
      exact agreeAt_floatLanes hreads
  | moveAll dst src =>
      refine ⟨_, rfl, ?_⟩
      injection h with h
      subst h
      have hsrc : s.xmm src = t.xmm src :=
        (hreads (.xmm src) .low128 (by simp [accesses])).xmm_eq
      intro r range always hwrite b _
      have hr : r = .xmm dst := by
        simp [accesses] at hwrite
        exact hwrite.1
      rw [Registers.bit_setXmm, Registers.bit_setXmm, if_pos hr, if_pos hr, hsrc]
  | moveLow form dst src =>
      refine ⟨_, rfl, ?_⟩
      injection h with h
      subst h
      intro r range always hwrite
      obtain ⟨rfl, rfl⟩ : r = .xmm dst ∧ range = form.range := by
        simp [accesses] at hwrite
        exact ⟨hwrite.1, hwrite.2.1⟩
      -- a packed move would keep bits of its destination that it does not list as read
      exact agreeAt_moveLow hscalar (hreads (.xmm src) form.range (by simp [accesses]))

end Instruction

end LinearGP
