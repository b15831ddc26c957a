import LinearGP.Loss
import LinearGP.Proofs.Ieee.Order
import LinearGP.Proofs.Ieee.Product

/-!
# Sums of distances

Distances have no sign, and adding numbers without a sign yields no sign.  So a loss is a number without
a sign, infinity included: `SampleSet.unsigned_loss`.  A sum that is no number at all stays none.
-/

set_option autoImplicit false

namespace LinearGP

open Float.Model (Format UnpackedFloat)

open Float.Model.UnpackedFloat

/-! ## Signs of unpacked numbers -/

/-- The sign, if there is one, is clear. -/
def IsUnsigned : UnpackedFloat → Prop
  | .notANumber => True
  | .infinity sign => sign = .positive
  | .zero sign => sign = .positive
  | .finite sign _ _ _ => sign = .positive

/-- A pattern without its sign bit unpacks without a sign. -/
theorem isUnsigned_unpack {x : BitVec 64} (h : x.msb = false) :
    IsUnsigned (unpack .binary64 x) := by
  have hsign : Sign.ofBitVec (@unpackSign .binary64 x) = .positive := by
    have hzero : @unpackSign .binary64 x = 0#1 := by
      apply BitVec.eq_of_getLsbD_eq
      intro i hi
      obtain rfl : i = 0 := by omega
      rw [BitVec.msb_eq_getLsbD_last] at h
      simp [unpackSign]
      exact h
    rw [hzero]
    rfl
  unfold unpack
  simp only
  split
  · split
    · exact hsign
    · trivial
  · split
    · split <;> exact hsign
    · exact hsign

/-- Components that are put together without a sign have no sign bit. -/
theorem msb_packComponents (exponent : BitVec 11) (mantissa : BitVec 52) :
    (packComponents .binary64 .positive exponent mantissa).msb = false := by
  show (0#1 ++ exponent ++ mantissa : BitVec (1 + 11 + 52)).msb = false
  rw [BitVec.msb_append, BitVec.msb_append]
  rfl

/-- A number without a sign packs without a sign bit. -/
theorem msb_pack {f : UnpackedFloat} (h : IsUnsigned f) (hf : f ≠ .notANumber) :
    (pack .binary64 f).msb = false := by
  cases f with
  | notANumber => exact absurd rfl hf
  | infinity sign =>
      obtain rfl : sign = .positive := h
      exact msb_packComponents _ _
  | zero sign =>
      obtain rfl : sign = .positive := h
      exact msb_packComponents _ _
  | finite sign m e hm =>
      obtain rfl : sign = .positive := h
      unfold pack
      simp only
      split
      · exact msb_packComponents _ _
      · split <;> exact msb_packComponents _ _

/-- Packing and unpacking gives no sign to what has none. -/
theorem isUnsigned_repack {f : UnpackedFloat} (h : IsUnsigned f) :
    IsUnsigned (unpack .binary64 (pack .binary64 f)) := by
  by_cases hf : f = .notANumber
  · subst hf
    exact trivial
  · exact isUnsigned_unpack (msb_pack h hf)

/-- A mantissa that is not negative is normalised without a sign. -/
theorem isUnsigned_normalize {m : Int} (hm : 0 ≤ m) (e : Int) :
    IsUnsigned (normalize .binary64 m e .positive) := by
  unfold UnpackedFloat.normalize
  split
  · next hlt =>
    rw [compare_lt_iff_lt] at hlt
    omega
  · rfl
  · unfold UnpackedFloat.round roundWithAccuracy
    simp only
    split <;> rfl

/-- The sum of two numbers without a sign has none. -/
theorem isUnsigned_add {f g : UnpackedFloat} (hf : IsUnsigned f) (hg : IsUnsigned g) :
    IsUnsigned (add .binary64 f g) := by
  unfold add
  split
  · trivial
  · trivial
  · split
    · exact hf
    · trivial
  · exact hf
  · exact hg
  · split
    · exact hf
    · rfl
  · exact hg
  · exact hf
  · obtain rfl : _ = Sign.positive := hf
    obtain rfl : _ = Sign.positive := hg
    apply isUnsigned_normalize
    exact Int.add_nonneg (Int.natCast_nonneg _) (Int.natCast_nonneg _)

/-! ## Sums -/

namespace Binary64

variable {x y : Binary64}

/-- What is not a number stays none when it is made quiet. -/
theorem isNaN_quiet {x : BitVec 64} (h : Precision.double.isNaN x = true) :
    Precision.double.isNaN (Precision.double.quiet x) = true := by
  have hlt : Precision.double.infinity < Precision.double.magnitude x := of_decide_eq_true h
  refine decide_eq_true (hlt.trans_le ?_)
  unfold Precision.magnitude Precision.quiet
  rw [BitVec.setWidth_or, BitVec.toNat_or]
  exact Nat.left_le_or

/-- Adding numbers without a sign yields no sign. -/
theorem Unsigned.msb_add (hx : x.Unsigned) (hy : y.Unsigned) (hsum : (x.add y).isNaN = false) :
    (x.add y).bits.msb = false := by
  obtain ⟨f, hunsigned, hmachine⟩ : ∃ f, IsUnsigned f ∧
      Precision.machine Float32.add Float.add .double x.bits y.bits = pack .binary64 f :=
    ⟨_, isUnsigned_add (isUnsigned_repack (isUnsigned_unpack hx.msb_eq))
      (isUnsigned_repack (isUnsigned_unpack hy.msb_eq)), rfl⟩
  have hbits : (x.add y).bits = if Precision.double.isNaN (pack .binary64 f) = true
      then Precision.double.defaultNaN else pack .binary64 f := by
    have hxnumber : Precision.double.isNaN x.bits = false := hx.isNaN_eq
    have hynumber : Precision.double.isNaN y.bits = false := hy.isNaN_eq
    unfold add Precision.add Precision.arithmetic
    simp only [hxnumber, hynumber, hmachine, Bool.false_eq_true, if_false]
  have hnumber : Precision.double.isNaN (x.add y).bits = false := hsum
  rw [hbits] at hnumber ⊢
  split at hnumber
  · exact absurd hnumber (by decide)
  · next hpacked =>
    rw [if_neg hpacked]
    refine msb_pack hunsigned fun hf => hpacked ?_
    rw [hf]
    decide

/-- A distance, or a sum of distances: no number at all, or one without a sign. -/
def IsSum (x : Binary64) : Prop := x.isNaN = true ∨ x.Unsigned

/-- Whatever has no sign bit can be a sum of distances. -/
theorem IsSum.of_msb_eq (h : x.bits.msb = false) : x.IsSum := by
  cases hx : x.isNaN with
  | true => exact .inl hx
  | false => exact .inr ⟨hx, h⟩

/-- What is not a number makes the sum none, on either side. -/
theorem isNaN_add (h : x.isNaN = true ∨ y.isNaN = true) : (x.add y).isNaN = true := by
  have hbits : (x.add y).bits = Precision.double.add x.bits y.bits := rfl
  unfold Precision.add Precision.arithmetic at hbits
  show Precision.double.isNaN (x.add y).bits = true
  rw [hbits]
  by_cases hx : Precision.double.isNaN x.bits = true
  · rw [if_pos hx]
    exact isNaN_quiet hx
  · have hy : Precision.double.isNaN y.bits = true := h.resolve_left hx
    rw [if_neg hx, if_pos hy]
    exact isNaN_quiet hy

/-- Sums of distances add up to sums of distances. -/
theorem IsSum.add (hx : x.IsSum) (hy : y.IsSum) : (x.add y).IsSum := by
  rcases hx with hx | hx
  · exact .inl (isNaN_add (.inl hx))
  · rcases hy with hy | hy
    · exact .inl (isNaN_add (.inr hy))
    · cases hsum : (x.add y).isNaN with
      | true => exact .inl hsum
      | false => exact .inr ⟨hsum, hx.msb_add hy hsum⟩

/-- A natural number is converted without a sign bit. -/
theorem msb_ofNat (n : Nat) : (ofNat n).bits.msb = false := by
  refine msb_pack (f := ofUInt64 .binary64 (UInt64.ofNat n)) ?_ (ofUInt64_ne _)
  exact isUnsigned_normalize (Int.natCast_nonneg _) 0

/-- Absolute values have no sign bit. -/
theorem msb_abs (x : Binary64) : x.abs.bits.msb = false := by
  rw [BitVec.msb_eq_false_iff_two_mul_lt]
  have hlt : Precision.double.magnitude x.bits < 2 ^ 63 := (x.bits.setWidth 63).isLt
  show 2 * (BitVec.ofNat 64 (Precision.double.magnitude x.bits)).toNat < 2 ^ 64
  rw [BitVec.toNat_ofNat]
  omega

/-- A loss is a number without a sign when the sum that it is made of is one. -/
theorem IsSum.unsigned_orInfinity (h : x.IsSum) : x.orInfinity.Unsigned := by
  unfold orInfinity
  split
  · next hfinite =>
    refine h.resolve_left fun hnan => ?_
    have hlt : Precision.double.magnitude x.bits < Precision.double.infinity :=
      of_decide_eq_true hfinite
    have hgt : Precision.double.infinity < Precision.double.magnitude x.bits :=
      of_decide_eq_true hnan
    omega
  · exact unsigned_infinity

end Binary64

/-- One distance is a sum of distances. -/
theorem ElementKind.isSum_distance (k : ElementKind) (a b : k.Value) : (k.distance a b).IsSum := by
  apply Binary64.IsSum.of_msb_eq
  cases k with
  | f32 | f64 => exact Binary64.msb_abs _
  | i32 | i64 => exact Binary64.msb_ofNat _

/-- The total distance is a sum of distances. -/
theorem isSum_totalDistance (k : ElementKind) (outputs expected : List k.Value) :
    (totalDistance k outputs expected).IsSum := by
  unfold totalDistance
  refine List.foldlRecOn (motive := Binary64.IsSum) _ Binary64.add (.inr ⟨by decide, by decide⟩) ?_
  intro sum hsum distance hmem
  obtain ⟨i, hi, rfl⟩ := List.mem_iff_getElem.mp hmem
  rw [List.getElem_zipWith]
  exact hsum.add (k.isSum_distance _ _)

/-- A loss is a number without a sign, infinity included. -/
theorem SampleSet.unsigned_loss {k : ElementKind} (s : SampleSet k) (outputs : Array k.Value) :
    (s.loss outputs).Unsigned :=
  (isSum_totalDistance k outputs.toList s.outputs.toList).unsigned_orInfinity

end LinearGP
