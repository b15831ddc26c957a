import Mathlib
import LinearGP.Ieee.Binary64

/-!
# Products of numbers

Rounded arithmetic yields no number only where it has to.  For a product that means an infinity times
a zero, so a positive finite number times a whole number is always a number: `isNaN_mul_ofNat`.  The
machine works on unpacked numbers and packs the result again, and so do the proofs.
-/

set_option autoImplicit false

namespace LinearGP

open Float.Model (Format UnpackedFloat)

open Float.Model.UnpackedFloat

/-! ## Fields of a pattern -/

/-- The magnitude of a pattern is its exponent and its mantissa, one after the other. -/
theorem magnitude_packComponents (sign : Sign) (exponent : BitVec 11) (mantissa : BitVec 52) :
    Precision.double.magnitude (packComponents .binary64 sign exponent mantissa) =
      exponent.toNat * 2 ^ 52 + mantissa.toNat := by
  have hexponent := exponent.isLt
  have hmantissa := mantissa.isLt
  show ((sign.toBitVec ++ exponent ++ mantissa).setWidth 63).toNat = _
  rw [BitVec.toNat_setWidth, BitVec.toNat_append, BitVec.toNat_append,
    ← Nat.shiftLeft_add_eq_or_of_lt hexponent, ← Nat.shiftLeft_add_eq_or_of_lt hmantissa,
    Nat.shiftLeft_eq, Nat.shiftLeft_eq]
  omega

/-- Nothing but the pattern for it stands for what is not a number. -/
theorem exists_pack_eq {f : UnpackedFloat} (hf : f ≠ .notANumber) :
    ∃ sign exponent mantissa,
      pack .binary64 f = packComponents .binary64 sign exponent mantissa ∧
        (exponent = -1#11 → mantissa = 0) := by
  cases f with
  | notANumber => exact absurd rfl hf
  | infinity sign => exact ⟨sign, -1#11, 0, rfl, fun _ => rfl⟩
  | zero sign => exact ⟨sign, 0, 0, rfl, fun _ => rfl⟩
  | finite sign m e hm =>
      unfold pack
      simp only
      split
      · exact ⟨sign, -1#11, 0, rfl, fun _ => rfl⟩
      · next hfits =>
        split
        · refine ⟨sign, _, _, rfl, fun hexponent => ?_⟩
          have hnat := congrArg BitVec.toNat hexponent
          rw [BitVec.toNat_ofNat] at hnat
          have hlarge : (e + 1023 + 52).toNat % 2048 = 2047 := hnat
          have hsmall : ¬ 2048 ≤ (e + 1023 + 52).toNat + 1 := hfits
          omega
        · exact ⟨sign, 0, _, rfl, fun hexponent => absurd hexponent (by decide)⟩

/-- Packing makes a number out of a number. -/
theorem isNaN_pack {f : UnpackedFloat} (hf : f ≠ .notANumber) :
    Precision.double.isNaN (pack .binary64 f) = false := by
  obtain ⟨sign, exponent, mantissa, hpack, hinfinite⟩ := exists_pack_eq hf
  have hexponent : exponent.toNat < 2 ^ 11 := exponent.isLt
  have hmantissa : mantissa.toNat < 2 ^ 52 := mantissa.isLt
  have hsmall : exponent.toNat * 2 ^ 52 + mantissa.toNat ≤ 0x7ff0000000000000 := by
    by_cases hlast : exponent = -1#11
    · rw [hinfinite hlast, hlast]
      decide
    · have hne : exponent.toNat ≠ 2047 := fun h => hlast (BitVec.eq_of_toNat_eq h)
      omega
  rw [Precision.isNaN, hpack, magnitude_packComponents]
  exact decide_eq_false (Nat.not_lt.mpr hsmall)

/-- A number that was packed is still one when it is unpacked. -/
theorem unpack_pack_ne {f : UnpackedFloat} (hf : f ≠ .notANumber) :
    unpack .binary64 (pack .binary64 f) ≠ .notANumber := by
  obtain ⟨sign, exponent, mantissa, hpack, hinfinite⟩ := exists_pack_eq hf
  rw [hpack, unpack]
  simp only [unpackMantissa_packComponents, unpackExponent_packComponents]
  split
  · next hlast => simp [hinfinite hlast]
  · split
    · split <;> simp
    · simp

/-! ## Positive finite numbers -/

/-- Neither zero nor infinite, as the machine sees it. -/
def IsProper (f : UnpackedFloat) : Prop := ∃ sign m e hm, f = .finite sign m e hm

/-- A pattern is a proper number when its exponent is not the last one and it is not zero. -/
theorem isProper_unpack (sign : Sign) {exponent : BitVec 11} {mantissa : BitVec 52}
    (hlast : exponent ≠ -1#11) (hpos : exponent ≠ 0 ∨ mantissa ≠ 0) :
    IsProper (unpack .binary64 (packComponents .binary64 sign exponent mantissa)) := by
  unfold unpack
  simp only [unpackMantissa_packComponents, unpackExponent_packComponents]
  rw [if_neg hlast]
  split
  · next hzero =>
    have hmantissa : mantissa ≠ 0 := hpos.resolve_left (not_not.mpr hzero)
    split
    · next hempty => exact absurd hempty hmantissa
    · exact ⟨_, _, _, _, rfl⟩
  · exact ⟨_, _, _, _, rfl⟩

/-- The magnitude of a pattern has the exponent above the mantissa. -/
theorem magnitude_eq (x : BitVec 64) : Precision.double.magnitude x =
    (@unpackExponent .binary64 x).toNat * 2 ^ 52 + (@unpackMantissa .binary64 x).toNat := by
  have hexponent : (@unpackExponent .binary64 x).toNat = x.toNat / 2 ^ 52 % 2 ^ 11 := by
    simp [unpackExponent, BitVec.extractLsb_toNat, Nat.shiftRight_eq_div_pow]
  have hmantissa : (@unpackMantissa .binary64 x).toNat = x.toNat % 2 ^ 52 := by
    simp [unpackMantissa, BitVec.extractLsb_toNat]
  have hmagnitude : Precision.double.magnitude x = x.toNat % 2 ^ 63 := by
    show (x.setWidth 63).toNat = _
    rw [BitVec.toNat_setWidth]
  rw [hexponent, hmantissa, hmagnitude]
  omega

/-- A number too small for the mantissa to start with a one is packed with exponent zero. -/
theorem pack_subnormal (sign : Sign) {m : Nat} {e : Int} (hm : 0 < m) (he : e + 1023 + 52 = 1)
    (hsmall : m < 2 ^ 52) : pack .binary64 (.finite sign m e hm) =
      packComponents .binary64 sign 0#11 (BitVec.ofNat 52 m) := by
  have hlog : m.log2 < 52 := (Nat.log2_lt hm.ne').mpr hsmall
  have hfits : ¬ 2048 ≤ (e + 1023 + 52).toNat + 1 := by omega
  have hbits : ¬ m.log2 + 1 = 53 := by omega
  unfold pack
  exact (if_neg hfits).trans (if_neg hbits)

/-- A number whose mantissa starts with a one is packed with its exponent, when this is in range. -/
theorem pack_normal (sign : Sign) {m exponent : Nat} {e : Int} (hm : 0 < m)
    (he : e + 1023 + 52 = exponent) (hexponent : exponent < 2047) (hlow : 2 ^ 52 ≤ m)
    (hhigh : m < 2 ^ 53) : pack .binary64 (.finite sign m e hm) =
      packComponents .binary64 sign (BitVec.ofNat 11 exponent) (BitVec.ofNat 52 m) := by
  have hlog : m.log2 = 52 := (Nat.log2_eq_iff hm.ne').mpr ⟨hlow, hhigh⟩
  have hfits : ¬ 2048 ≤ (e + 1023 + 52).toNat + 1 := by omega
  have hbits : m.log2 + 1 = 53 := by omega
  have hbiased : (e + 1023 + 52).toNat = exponent := by omega
  rw [← hbiased]
  unfold pack
  exact (if_neg hfits).trans (if_pos hbits)

/-- A positive finite number stays one when it is unpacked, packed and unpacked. -/
theorem isProper_repack {x : BitVec 64} (hfinite : Precision.double.isFinite x = true)
    (hpos : 0 < Precision.double.magnitude x) :
    IsProper (unpack .binary64 (pack .binary64 (unpack .binary64 x))) := by
  have hlt : Precision.double.magnitude x < 0x7ff0000000000000 := of_decide_eq_true hfinite
  rw [magnitude_eq] at hlt hpos
  have hexponent : (@unpackExponent .binary64 x).toNat < 2 ^ 11 := (@unpackExponent .binary64 x).isLt
  have hmantissa : (@unpackMantissa .binary64 x).toNat < 2 ^ 52 := (@unpackMantissa .binary64 x).isLt
  have hlast : @unpackExponent .binary64 x ≠ -1#11 := by
    intro h
    have hnat : (@unpackExponent .binary64 x).toNat = 2047 := congrArg BitVec.toNat h
    omega
  -- subnormal numbers have no leading one, and all others do
  by_cases hzero : @unpackExponent .binary64 x = 0#11
  · have hexponent0 : (@unpackExponent .binary64 x).toNat = 0 := congrArg BitVec.toNat hzero
    have hnonzero : @unpackMantissa .binary64 x ≠ 0#52 := by
      intro h
      have hmantissa0 : (@unpackMantissa .binary64 x).toNat = 0 := congrArg BitVec.toNat h
      omega
    have hunpack : ∃ sign e hm, unpack .binary64 x =
        .finite sign (@unpackMantissa .binary64 x).toNat e hm ∧ e + 1023 + 52 = 1 := by
      refine ⟨_, _, _, (if_neg hlast).trans ((if_pos hzero).trans (dif_neg hnonzero)), ?_⟩
      rw [hexponent0]
      rfl
    obtain ⟨sign, e, hm, hx, he⟩ := hunpack
    rw [hx, pack_subnormal sign hm he hmantissa]
    refine isProper_unpack sign (by decide) (.inr ?_)
    rwa [BitVec.ofNat_toNat, BitVec.setWidth_eq]
  · have hvalue : (1#1 ++ @unpackMantissa .binary64 x).toNat =
        2 ^ 52 + (@unpackMantissa .binary64 x).toNat := by
      rw [BitVec.toNat_append, ← Nat.shiftLeft_add_eq_or_of_lt (@unpackMantissa .binary64 x).isLt]
      rfl
    have hnonzero : (@unpackExponent .binary64 x).toNat ≠ 0 :=
      fun h => hzero (BitVec.eq_of_toNat_eq h)
    have hunpack : ∃ sign e hm, unpack .binary64 x =
        .finite sign (1#1 ++ @unpackMantissa .binary64 x).toNat e hm ∧
          e + 1023 + 52 = (@unpackExponent .binary64 x).toNat := by
      refine ⟨_, _, _, (if_neg hlast).trans (if_neg hzero), ?_⟩
      show ((@unpackExponent .binary64 x).toNat : Int) - (1023 + 52) + 1023 + 52 = _
      omega
    obtain ⟨sign, e, hm, hx, he⟩ := hunpack
    rw [hx, pack_normal sign hm he (by omega) (by omega) (by omega), BitVec.ofNat_toNat,
      BitVec.setWidth_eq]
    exact isProper_unpack sign hlast (.inl hzero)

/-! ## Rounding -/

/-- Rounding yields a number. -/
theorem roundWithAccuracy_ne (sign : Sign) (m : Nat) (e : Int) (accuracy : Accuracy) :
    roundWithAccuracy .binary64 sign m e accuracy ≠ .notANumber := by
  unfold roundWithAccuracy
  simp only
  split <;> exact UnpackedFloat.noConfusion

/-- A natural number is converted to a number. -/
theorem ofUInt64_ne (n : UInt64) : ofUInt64 .binary64 n ≠ .notANumber := by
  unfold ofUInt64 ofNat ofInt UnpackedFloat.normalize
  split
  · exact roundWithAccuracy_ne _ _ _ _
  · exact UnpackedFloat.noConfusion
  · exact roundWithAccuracy_ne _ _ _ _

/-- A number other than zero and infinity times any number is a number. -/
theorem mul_ne {f g : UnpackedFloat} (hf : IsProper f) (hg : g ≠ .notANumber) :
    mul .binary64 f g ≠ .notANumber := by
  obtain ⟨sign, m, e, hm, rfl⟩ := hf
  cases g with
  | notANumber => exact absurd rfl hg
  | infinity sign' => exact UnpackedFloat.noConfusion
  | zero sign' => exact UnpackedFloat.noConfusion
  | finite sign' m' e' hm' => exact roundWithAccuracy_ne _ _ _ _

/-- A positive finite number times a whole number is a number. -/
theorem Binary64.isNaN_mul_ofNat {x : Binary64} (hfinite : x.isFinite = true)
    (hpos : Binary64.zero.less x = true) (n : Nat) : (x.mul (.ofNat n)).isNaN = false := by
  have hmagnitude : 0 < Precision.double.magnitude x.bits := by
    have hkey : Precision.double.key 0#64 < Precision.double.key x.bits := by
      unfold Binary64.less Precision.less at hpos
      simp only [Bool.and_eq_true, decide_eq_true_eq] at hpos
      exact hpos.2
    have hzero : Precision.double.key 0#64 = 0 := by decide
    rw [hzero] at hkey
    unfold Precision.key at hkey
    split at hkey <;> omega
  have hx : Precision.double.isNaN x.bits = false := by
    have hlt : Precision.double.magnitude x.bits < Precision.double.infinity :=
      of_decide_eq_true hfinite
    exact decide_eq_false (Nat.not_lt.mpr hlt.le)
  have hn : Precision.double.isNaN (Binary64.ofNat n).bits = false :=
    isNaN_pack (ofUInt64_ne (UInt64.ofNat n))
  have hproduct : Precision.double.isNaN
      (Precision.machine Float32.mul Float.mul .double x.bits (Binary64.ofNat n).bits) = false :=
    isNaN_pack (mul_ne (isProper_repack hfinite hmagnitude)
      (unpack_pack_ne (unpack_pack_ne (ofUInt64_ne (UInt64.ofNat n)))))
  unfold Binary64.isNaN Binary64.mul Precision.mul Precision.arithmetic
  simp only [hx, hn, hproduct, Bool.false_eq_true, if_false]

/-! ## Small numbers -/

namespace Binary64

/-- The key of a number above one and up to 255 is its pattern. -/
theorem toNat_bits_mem {x : Binary64} (hlow : one.less x = true)
    (hhigh : (Binary64.ofNat 255).less x = false) :
    0x3ff0000000000000 ≤ x.bits.toNat ∧ x.bits.toNat ≤ 0x406fe00000000000 := by
  have hone : Precision.double.key one.bits = 0x3ff0000000000000 := by decide
  have hbyte : Precision.double.key (Binary64.ofNat 255).bits = 0x406fe00000000000 := by
    decide +kernel
  have hnumber : Precision.double.isNaN (Binary64.ofNat 255).bits = false := by decide +kernel
  unfold less Precision.less at hlow hhigh
  simp only [Bool.and_eq_true, decide_eq_true_eq, Bool.not_eq_true', hone] at hlow
  obtain ⟨⟨-, hx⟩, hlow⟩ := hlow
  simp only [hnumber, hx, hbyte, Bool.not_false, Bool.and_self, Bool.true_and,
    decide_eq_false_iff_not, not_lt] at hhigh
  have hsign : x.bits.msb = false := by
    unfold Precision.key at hlow
    by_contra hne
    rw [if_pos (by simpa using hne)] at hlow
    omega
  have hkey : Precision.double.key x.bits = x.bits.toNat := by
    have hlt := BitVec.msb_eq_false_iff_two_mul_lt.mp hsign
    rw [Precision.key, hsign]
    show (((x.bits.setWidth 63).toNat : Nat) : Int) = _
    rw [BitVec.toNat_setWidth]
    omega
  rw [hkey] at hlow hhigh
  omega

/-- A number above one and up to 255 is rounded up to a positive number of one byte. -/
theorem ceil_mem {x : Binary64} (hlow : one.less x = true)
    (hhigh : (Binary64.ofNat 255).less x = false) : 1 ≤ x.ceil ∧ x.ceil ≤ 255 := by
  obtain ⟨hleast, hmost⟩ := toNat_bits_mem hlow hhigh
  have hexponent : x.biasedExponent = x.bits.toNat / 2 ^ 52 := by
    unfold biasedExponent
    rw [BitVec.extractLsb'_toNat, Nat.shiftRight_eq_div_pow]
    omega
  have hsignificand : x.significand = x.bits.toNat % 2 ^ 52 + 2 ^ 52 := by
    unfold significand
    rw [BitVec.toNat_setWidth, hexponent, if_neg (by omega)]
    rfl
  obtain ⟨k, hk, hmin, hmax⟩ : ∃ k, x.bits.toNat / 2 ^ 52 + k = 1075 ∧ 45 ≤ k ∧ k ≤ 52 :=
    ⟨1075 - x.bits.toNat / 2 ^ 52, by omega, by omega, by omega⟩
  have hscale : x.exponent = -(k : Int) := by
    unfold exponent
    rw [hexponent]
    omega
  have hceil : x.ceil = (x.bits.toNat % 2 ^ 52 + 2 ^ 52 + (2 ^ k - 1)) / 2 ^ k := by
    unfold ceil
    rw [hscale, hsignificand]
    simp only
    rw [if_neg (by omega), Int.neg_neg, Int.toNat_natCast, Nat.shiftRight_eq_div_pow,
      Nat.shiftLeft_eq, Nat.one_mul]
  rw [hceil]
  interval_cases k <;> omega

end Binary64

end LinearGP
