import Mathlib
import LinearGP.Ieee.Binary64

/-!
# The order of numbers

Comparisons of double precision numbers are comparisons of their keys, and false as soon as one side is
not a number.  Among numbers without a sign the numeric order and the total order of patterns are the
same, and infinity is the greatest one.
-/

set_option autoImplicit false

namespace LinearGP

namespace Binary64

variable {x y z : Binary64}

/-- The place of a number in the numeric order.  Both zeros have the same one. -/
def key (x : Binary64) : Int := Precision.double.key x.bits

/-- One number is less than another when it comes earlier in the numeric order. -/
theorem less_iff : x.less y = true ↔ x.isNaN = false ∧ y.isNaN = false ∧ x.key < y.key := by
  unfold less Precision.less isNaN key
  simp [and_assoc]

/-- Nothing is less than itself. -/
theorem less_irrefl (x : Binary64) : x.less x = false := by
  rw [← Bool.not_eq_true, less_iff]
  rintro ⟨-, -, hlt⟩
  exact lt_irrefl _ hlt

/-- One number is at most another when it does not come later in the numeric order. -/
theorem atMost_iff : x.atMost y = true ↔ x.isNaN = false ∧ y.isNaN = false ∧ x.key ≤ y.key := by
  unfold atMost
  cases hx : x.isNaN <;> cases hy : y.isNaN <;> simp [← Bool.not_eq_true, less_iff, hx, hy]

/-- A number is at most itself. -/
theorem atMost_refl (hx : x.isNaN = false) : x.atMost x = true :=
  atMost_iff.mpr ⟨hx, hx, le_rfl⟩

/-- Being at most passes on. -/
theorem atMost_trans (hxy : x.atMost y = true) (hyz : y.atMost z = true) : x.atMost z = true := by
  obtain ⟨hx, -, hle⟩ := atMost_iff.mp hxy
  obtain ⟨-, hz, hle'⟩ := atMost_iff.mp hyz
  exact atMost_iff.mpr ⟨hx, hz, hle.trans hle'⟩

/-- What is less is at most. -/
theorem atMost_of_less (h : x.less y = true) : x.atMost y = true := by
  obtain ⟨hx, hy, hlt⟩ := less_iff.mp h
  exact atMost_iff.mpr ⟨hx, hy, hlt.le⟩

/-- Any two numbers compare one way or the other. -/
theorem atMost_of_not_less (hx : x.isNaN = false) (hy : y.isNaN = false) (h : y.less x = false) :
    x.atMost y = true := by
  refine atMost_iff.mpr ⟨hx, hy, not_lt.mp fun hlt => ?_⟩
  rw [less_iff.mpr ⟨hy, hx, hlt⟩] at h
  cases h

/-- What is less than a number is less than all that this is at most. -/
theorem less_of_less_of_atMost (hxy : x.less y = true) (hyz : y.atMost z = true) :
    x.less z = true := by
  obtain ⟨hx, -, hlt⟩ := less_iff.mp hxy
  obtain ⟨-, hz, hle⟩ := atMost_iff.mp hyz
  exact less_iff.mpr ⟨hx, hz, hlt.trans_le hle⟩

/-- Nothing is above infinity. -/
theorem infinity_less (x : Binary64) : infinity.less x = false := by
  rw [← Bool.not_eq_true, less_iff]
  rintro ⟨-, hx, hlt⟩
  have hmagnitude : Precision.double.magnitude x.bits ≤ 0x7ff0000000000000 :=
    Nat.le_of_not_lt (of_decide_eq_false hx)
  have hinfinity : infinity.key = 0x7ff0000000000000 := by decide
  rw [hinfinity] at hlt
  unfold key Precision.key at hlt
  split at hlt <;> omega

/-! ## Numbers without a sign -/

/-- A number, and neither a negative one nor negative zero. -/
structure Unsigned (x : Binary64) : Prop where
  isNaN_eq : x.isNaN = false
  msb_eq : x.bits.msb = false

/-- Infinity is positive. -/
theorem unsigned_infinity : infinity.Unsigned := ⟨by decide, by decide⟩

namespace Unsigned

/-- Numbers without a sign are ordered as their patterns are. -/
theorem key_eq (h : x.Unsigned) : x.key = x.bits.toNat := by
  have hlt := BitVec.msb_eq_false_iff_two_mul_lt.mp h.msb_eq
  rw [key, Precision.key, h.msb_eq]
  show (((x.bits.setWidth 63).toNat : Nat) : Int) = _
  rw [BitVec.toNat_setWidth]
  omega

/-- Without signs, the total order of patterns is the numeric order. -/
theorem totalKey_eq (h : x.Unsigned) : x.totalKey = x.key := by
  rw [totalKey, key, Precision.key, h.msb_eq]
  rfl

/-- The total order is the numeric one. -/
theorem totalKey_lt_iff (hx : x.Unsigned) (hy : y.Unsigned) :
    x.totalKey < y.totalKey ↔ x.less y = true := by
  rw [hx.totalKey_eq, hy.totalKey_eq, less_iff]
  exact ⟨fun h => ⟨hx.isNaN_eq, hy.isNaN_eq, h⟩, fun h => h.2.2⟩

/-- Without signs, a number that comes no later in the total order is at most the other. -/
theorem totalKey_le_iff (hx : x.Unsigned) (hy : y.Unsigned) :
    x.totalKey ≤ y.totalKey ↔ x.atMost y = true := by
  rw [hx.totalKey_eq, hy.totalKey_eq, atMost_iff]
  exact ⟨fun h => ⟨hx.isNaN_eq, hy.isNaN_eq, h⟩, fun h => h.2.2⟩

/-- A pattern without a sign is its own magnitude. -/
theorem magnitude_eq (h : x.Unsigned) : Precision.double.magnitude x.bits = x.bits.toNat := by
  have hlt := BitVec.msb_eq_false_iff_two_mul_lt.mp h.msb_eq
  show (x.bits.setWidth 63).toNat = _
  rw [BitVec.toNat_setWidth]
  omega

/-- Every number is finite or infinite. -/
theorem isFinite_or_eq (h : x.Unsigned) : x.isFinite = true ∨ x = infinity := by
  have hnumber : ¬ Precision.double.infinity < Precision.double.magnitude x.bits :=
    of_decide_eq_false h.isNaN_eq
  rw [h.magnitude_eq] at hnumber
  rcases Nat.lt_or_eq_of_le (Nat.le_of_not_lt hnumber) with hlt | heq
  · left
    rw [isFinite, Precision.isFinite, h.magnitude_eq]
    exact decide_eq_true hlt
  · exact .inr (Binary64.ext (BitVec.eq_of_toNat_eq heq))

/-- Only a finite number is below another one. -/
theorem isFinite_of_less (h : x.Unsigned) (hless : x.less y = true) : x.isFinite = true := by
  rcases h.isFinite_or_eq with hfinite | rfl
  · exact hfinite
  · rw [infinity_less] at hless
    cases hless

/-- No number exceeds infinity. -/
theorem atMost_infinity (h : x.Unsigned) : x.atMost infinity = true := by
  rcases h.isFinite_or_eq with hfinite | rfl
  · have hlt : Precision.double.magnitude x.bits < Precision.double.infinity :=
      of_decide_eq_true hfinite
    rw [h.magnitude_eq] at hlt
    refine atMost_iff.mpr ⟨h.isNaN_eq, unsigned_infinity.isNaN_eq, ?_⟩
    rw [h.key_eq, unsigned_infinity.key_eq]
    exact Nat.cast_le.mpr hlt.le
  · exact atMost_refl h.isNaN_eq

end Unsigned

end Binary64

end LinearGP
