import Mathlib
import LinearGP.Proofs.Layout.Dimensions

/-!
# Sizes of regions in machine words

The sizes that decide about a layout are themselves computed in machine words.  A row of inputs is always
small, and all inputs are only counted once the outputs of a program are known to be addressable, so it
is the bytes of these outputs that may not fit a word: `ofDimensions_sizes` says what becomes of
dimensions in each case.  The number of programs is not looked at, so the length of the output region may
leave a word as well.
-/

set_option autoImplicit false

namespace LinearGP

namespace ElementKind

/-- Values that fill a vector register fill its bytes. -/
theorem lanes_mul_size (k : ElementKind) : k.lanes * k.size = 16 := by
  cases k <;> rfl

/-- An element takes at most eight bytes. -/
theorem size_le (k : ElementKind) : k.size ≤ 8 := by
  cases k <;> decide

end ElementKind

namespace Layout

variable {l : Layout}

/-! ## Bounds between sizes -/

/-- The outputs of a program fit where their bytes do. -/
theorem outputsPerProgram_le (l : Layout) : l.outputsPerProgram ≤ l.outputProgramStride := by
  unfold outputsPerProgram outputProgramStride outputRowStride
  exact Nat.mul_le_mul_left _ (Nat.le_mul_of_pos_right _ l.element.size_pos)

/-- All inputs fit where their bytes do. -/
theorem inputLength_le (l : Layout) : l.inputLength ≤ l.rows * l.inputRowStride := by
  have hbytes : l.rows * l.inputRowStride = l.inputLength * l.element.size := by
    unfold inputLength inputRowStride columnStride
    ring
  rw [hbytes]
  exact Nat.le_mul_of_pos_right _ l.element.size_pos

namespace Shaped

/-- A column of a row fills a vector register at most. -/
theorem columnStride_le (h : l.Shaped) : l.columnStride ≤ 16 := by
  unfold columnStride
  rcases h.lanes_eq with hlanes | ⟨hlanes, -⟩
  · have hsize := l.element.size_le
    rw [hlanes]
    omega
  · rw [hlanes, l.element.lanes_mul_size]

/-- A row of inputs takes at most sixty-four bytes, four full vectors. -/
theorem inputRowStride_le (h : l.Shaped) : l.inputRowStride ≤ 64 :=
  Nat.mul_le_mul h.arity_le h.columnStride_le

/-- All inputs are at most four times the outputs of a program. -/
theorem inputs_le (h : l.Shaped) : l.rows * l.inputRowStride ≤ 4 * l.outputProgramStride := by
  have hinputs : l.rows * l.inputRowStride = l.arity * l.outputProgramStride := by
    unfold inputRowStride columnStride outputProgramStride outputRowStride
    ring
  rw [hinputs]
  exact Nat.mul_le_mul_right _ h.arity_le

end Shaped

/-! ## Answers to dimensions -/

/-- The sizes of the regions of a layout are machine words, but for one that has no bound. -/
structure Sized (l : Layout) : Prop where
  inputLength_lt : l.inputLength < 0x10000000000000000
  outputsPerProgram_lt : l.outputsPerProgram < 0x10000000000000000
  /-- All programs together can have more outputs than a word counts. -/
  outputLength_eq : l.outputLength =
    if l.programs * (l.rows * l.lanes) < 0x10000000000000000 then
      .ok (l.programs * (l.rows * l.lanes))
    else breach .overflow

/-- The sizes of accepted dimensions are as `Sized` says. -/
theorem Accepted.sized (h : l.Accepted) : l.Sized where
  inputLength_lt := by
    have hle := l.inputLength_le
    have hlt := h.inputs_lt
    omega
  outputsPerProgram_lt := by
    have hle := l.outputsPerProgram_le
    have hlt := h.outputProgram_lt
    omega
  outputLength_eq := rfl

/-- The answer to dimensions that pass the checks which come before those of sizes.  They are turned down
when a size is no displacement, provided that the bytes of the outputs of a program can be counted in a
word at all; otherwise counting them overflows. -/
theorem ofDimensions_sizes (h : l.Shaped) :
    (ofDimensions l.element l.rows l.arity l.lanes l.programs =
      if 0x10000000000000000 ≤ l.outputProgramStride then breach .overflow
      else if 0x80000000 ≤ l.inputRowStride ∨ 0x80000000 ≤ l.outputProgramStride ∨
          0x80000000 ≤ l.rows * l.inputRowStride then refuse .regionTooLarge
      else .ok l) ∧
    (ofDimensions l.element l.rows l.arity l.lanes l.programs = .ok l → l.Sized) := by
  refine ⟨?_, fun hl => ((ofDimensions_eq_ok_iff _ _ _ _ _ _).mp hl).2.sized⟩
  have hrow := h.inputRowStride_le
  have hinputs := h.inputs_le
  rw [ofDimensions_of_shaped h]
  unfold checkSize
  -- no row of inputs is large, and all inputs are no word only when the outputs of a program are large
  rw [if_neg (by omega), if_neg (by omega)]
  split
  · rfl
  · by_cases hlarge : 0x80000000 ≤ l.outputProgramStride
    · rw [if_pos hlarge, if_pos (.inr (.inl hlarge))]
    · rw [if_neg hlarge, if_neg (by omega)]
      by_cases hwide : 0x80000000 ≤ l.rows * l.inputRowStride
      · rw [if_pos hwide, if_pos (.inr (.inr hwide))]
      · rw [if_neg hwide, if_neg (by omega)]

/-- So many rows that their outputs are too large, but can still be counted. -/
theorem ofDimensions_sizes_large : (Layout.mk .i32 0x2000000000000000 1 1 1).Shaped ∧
    ofDimensions .i32 0x2000000000000000 1 1 1 = refuse .regionTooLarge := by
  have hshaped : (Layout.mk .i32 0x2000000000000000 1 1 1).Shaped :=
    ⟨by decide, by decide, by decide, by decide, .inl rfl⟩
  refine ⟨hshaped, ?_⟩
  have hanswer := (ofDimensions_sizes hshaped).1
  rwa [if_neg (by decide), if_pos (by decide)] at hanswer

/-- So many rows that their outputs are counted as none in a word, and so many programs that all their
outputs are. -/
theorem ofDimensions_overflow :
    (0x80000000 ≤ (Layout.mk .f64 0x2000000000000000 1 1 1).outputProgramStride ∧
      ofDimensions .f64 0x2000000000000000 1 1 1 ≠ refuse .regionTooLarge ∧
      ofDimensions .f64 0x2000000000000000 1 1 1 = breach .overflow) ∧
    ofDimensions .f64 2 1 1 0x8000000000000000 = .ok (Layout.mk .f64 2 1 1 0x8000000000000000) ∧
      (Layout.mk .f64 2 1 1 0x8000000000000000).outputLength = breach .overflow := by
  decide

end Layout

end LinearGP
