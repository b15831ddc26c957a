import Mathlib
import LinearGP.Layout.Regions
import LinearGP.Proofs.Indexing

/-!
# Dimensions that make a layout

`Layout.ofDimensions` turns down dimensions that machine code cannot address.  `Layout.Accepted`
lists what the others promise, and `ofDimensions_eq_ok_iff` says that these promises are exactly
what is asked for: all of the arithmetic on addresses rests on them.
-/

set_option autoImplicit false

namespace LinearGP

/-- An element takes at least one byte. -/
theorem ElementKind.size_pos (k : ElementKind) : 0 < k.size := by
  cases k <;> decide

/-- A size passes the check when it fits a machine word. -/
theorem fitsWord_eq_ok_iff (n m : Nat) :
    fitsWord n = .ok m ↔ n < 0x10000000000000000 ∧ n = m := by
  unfold fitsWord breach
  split <;> simp_all

namespace Layout

/-- What the dimensions of a layout promise once they have been accepted. -/
structure Accepted (l : Layout) : Prop where
  rows_pos : 0 < l.rows
  arity_pos : 0 < l.arity
  programs_pos : 0 < l.programs
  arity_le : l.arity ≤ 4
  lanes_eq : l.lanes = 1 ∨ l.lanes = l.element.lanes ∧ l.element.isFloat = true
  inputRow_lt : l.inputRowStride < 0x80000000
  outputProgram_lt : l.outputProgramStride < 0x80000000
  inputs_lt : l.rows * l.inputRowStride < 0x80000000

/-- Dimensions that are neither zero nor too many inputs, with lanes that the element type can have. -/
structure Shaped (l : Layout) : Prop where
  rows_pos : 0 < l.rows
  arity_pos : 0 < l.arity
  programs_pos : 0 < l.programs
  arity_le : l.arity ≤ 4
  lanes_eq : l.lanes = 1 ∨ l.lanes = l.element.lanes ∧ l.element.isFloat = true

/-- Accepted dimensions are neither zero nor too many. -/
theorem Accepted.shaped {l : Layout} (h : l.Accepted) : l.Shaped :=
  ⟨h.rows_pos, h.arity_pos, h.programs_pos, h.arity_le, h.lanes_eq⟩

/-- A size has to be a machine word, and then a displacement. -/
def checkSize {α : Type} (bytes : Nat) (rest : Except Failure α) : Except Failure α :=
  if 0x10000000000000000 ≤ bytes then breach .overflow
  else if 0x80000000 ≤ bytes then refuse .regionTooLarge
  else rest

/-- Both checks, one after the other. -/
theorem checkSize_eq {α : Type} (bytes : Nat) (rest : Except Failure α) :
    ((fitsWord bytes) >>= fun n =>
      if (!fitsDisplacement n) = true then refuse .regionTooLarge else rest) =
      checkSize bytes rest := by
  unfold fitsWord fitsDisplacement checkSize refuse breach
  by_cases hword : 0x10000000000000000 ≤ bytes
  · simp [hword, Nat.not_lt.mpr hword, bind, Except.bind]
  · by_cases hlarge : 0x80000000 ≤ bytes <;>
      simp [Nat.lt_of_not_le hword, hlarge, bind, Except.bind]

/-- A size passes its two checks exactly when it is a displacement; it is then a machine word as
well. -/
theorem checkSize_eq_ok_iff {α : Type} (bytes : Nat) (rest : Except Failure α) (a : α) :
    checkSize bytes rest = .ok a ↔ bytes < 0x80000000 ∧ rest = .ok a := by
  unfold checkSize refuse breach
  by_cases hsmall : bytes < 0x80000000
  · have hword : ¬ 0x10000000000000000 ≤ bytes := by omega
    rw [if_neg hword, if_neg (Nat.not_le.mpr hsmall)]
    simp [hsmall]
  · by_cases hword : 0x10000000000000000 ≤ bytes <;>
      simp [hsmall, hword, Nat.le_of_not_lt hsmall]

/-- Three sizes decide about dimensions that are not turned down before. -/
theorem ofDimensions_of_shaped {l : Layout} (h : l.Shaped) :
    ofDimensions l.element l.rows l.arity l.lanes l.programs =
      checkSize l.inputRowStride (checkSize l.outputProgramStride
        (checkSize (l.rows * l.inputRowStride) (.ok l))) := by
  have hfile : Gpr.all.length = 4 := rfl
  have hlanes : ¬ (l.lanes ≠ 1 ∧ (l.lanes ≠ l.element.lanes ∨ (!l.element.isFloat) = true)) := by
    rintro ⟨hone, hother⟩
    obtain ⟨hfull, hfloat⟩ := h.lanes_eq.resolve_left hone
    rw [hfloat] at hother
    exact hother.elim (· hfull) Bool.false_ne_true
  unfold ofDimensions
  rw [if_neg h.rows_pos.ne', if_neg h.arity_pos.ne', if_neg h.programs_pos.ne',
    if_neg (by rw [hfile]; exact h.arity_le.not_gt), if_neg hlanes]
  simp only [checkSize_eq]
  rfl

/-- Dimensions are only accepted when they pass the checks that come before those of sizes. -/
theorem shaped_of_ofDimensions {element : ElementKind} {rows arity lanes programs : Nat} {l : Layout}
    (h : ofDimensions element rows arity lanes programs = .ok l) :
    (Layout.mk element rows arity lanes programs).Shaped := by
  have hfile : Gpr.all.length = 4 := rfl
  unfold ofDimensions at h
  split at h
  · simp [refuse] at h
  split at h
  · simp [refuse] at h
  split at h
  · simp [refuse] at h
  split at h
  · simp [refuse] at h
  split at h
  · simp [refuse] at h
  rename_i hrows harity hprograms hfits hvector
  exact {
    rows_pos := Nat.pos_of_ne_zero hrows
    arity_pos := Nat.pos_of_ne_zero harity
    programs_pos := Nat.pos_of_ne_zero hprograms
    arity_le := by rw [hfile] at hfits; exact Nat.le_of_not_lt hfits
    lanes_eq := by
      by_contra hneither
      simp only [not_or, not_and, Bool.not_eq_true] at hneither
      refine hvector ⟨hneither.1, ?_⟩
      by_cases hfull : lanes = element.lanes
      · exact .inr (by rw [hneither.2 hfull]; rfl)
      · exact .inl hfull }

/-- Dimensions make a layout exactly when it keeps the promises of `Accepted`. -/
theorem ofDimensions_eq_ok_iff (element : ElementKind) (rows arity lanes programs : Nat)
    (l : Layout) :
    ofDimensions element rows arity lanes programs = .ok l ↔
      l = { element, rows, arity, lanes, programs } ∧ l.Accepted := by
  constructor
  · intro h
    have hshaped := shaped_of_ofDimensions h
    rw [ofDimensions_of_shaped hshaped, checkSize_eq_ok_iff, checkSize_eq_ok_iff,
      checkSize_eq_ok_iff] at h
    obtain ⟨hinput, houtput, hinputs, hl⟩ := h
    injection hl with hl
    subst hl
    exact ⟨rfl, { hshaped with
      inputRow_lt := hinput
      outputProgram_lt := houtput
      inputs_lt := hinputs }⟩
  · rintro ⟨rfl, h⟩
    rw [ofDimensions_of_shaped h.shaped, checkSize_eq_ok_iff, checkSize_eq_ok_iff,
      checkSize_eq_ok_iff]
    exact ⟨h.inputRow_lt, h.outputProgram_lt, h.inputs_lt, rfl⟩

namespace Accepted

variable {l : Layout}

/-- An accepted layout has a lane. -/
theorem lanes_pos (h : l.Accepted) : 0 < l.lanes := by
  rcases h.lanes_eq with hl | ⟨hl, -⟩
  · omega
  · rw [hl]
    cases l.element <;> decide

/-- Values that do not live in vector registers come one at a time. -/
theorem lanes_eq_one (h : l.Accepted) (hx : l.usesXmm = false) : l.lanes = 1 := by
  rcases h.lanes_eq with hl | ⟨-, hfloat⟩
  · exact hl
  · simp [usesXmm, hfloat] at hx

/-- The lanes of an accepted layout fit a vector register. -/
theorem lanes_mul_bits_le (h : l.Accepted) : l.element.bits * l.lanes ≤ 128 := by
  rcases h.lanes_eq with hl | ⟨hl, -⟩
  · rw [hl]
    cases l.element <;> decide
  · rw [hl, Nat.mul_comm]
    exact l.element.lanes_mul_bits.le

/-- The inputs of every row start within the reach of a signed displacement. -/
theorem row_mul_inputRowStride_lt (h : l.Accepted) {row : Nat} (hrow : row < l.rows) :
    row * l.inputRowStride < 0x80000000 := by
  have hle : row * l.inputRowStride ≤ l.rows * l.inputRowStride :=
    Nat.mul_le_mul_right _ hrow.le
  have := h.inputs_lt
  omega

/-- Every place of an input lies within the inputs. -/
theorem index_lt (row column lane : Nat) (hrow : row < l.rows) (hcolumn : column < l.arity)
    (hlane : lane < l.lanes) :
    (row * l.arity + column) * l.lanes + lane < l.inputLength := by
  exact mul_add_lt_mul (mul_add_lt_mul hrow hcolumn) hlane

end Accepted

variable {l : Layout}

/-- A row of outputs takes at least one byte. -/
theorem outputRowStride_pos (h : l.Accepted) : 0 < l.outputRowStride :=
  Nat.mul_pos h.lanes_pos l.element.size_pos

/-- An accepted layout has fewer rows than a signed displacement can count. -/
theorem Accepted.rows_lt (h : l.Accepted) : l.rows < 0x80000000 := by
  have hle : l.rows ≤ l.outputProgramStride := Nat.le_mul_of_pos_right _ (outputRowStride_pos h)
  exact lt_of_le_of_lt hle h.outputProgram_lt

end Layout

end LinearGP
