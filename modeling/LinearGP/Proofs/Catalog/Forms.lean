import Mathlib
import LinearGP.Catalog.Build
import LinearGP.Proofs.Instruction.Lanes
import LinearGP.Proofs.Liveness

/-!
# Scalar and packed catalogs

Catalogs for single and for vectorized samples are built by the same choice of mnemonics.  Without
moves of the lowest number, which have no packed form, the instructions at each position are the same
but for their form: `Catalog.instructions_inForm`.  All of them work lane by lane.
-/

set_option autoImplicit false

namespace LinearGP

/-! ## Expansion -/

namespace Mnemonic

/-- A family in another form is the family with every instruction in that form. -/
theorem expand_inForm (form : FloatForm) (packed safeDivision : Bool) {m : Mnemonic}
    (hm : m ≠ .movLow) : m.expand { form with packed } safeDivision =
      (m.expand form safeDivision).map (Instruction.inForm packed) := by
  cases m with
  | movLow => exact absurd rfl hm
  | _ => rfl

/-- The families that a catalog for floating point samples is made of work lane by lane. -/
theorem lanewise_of_mem_expand {form : FloatForm} {safeDivision : Bool} {m : Mnemonic}
    (hfloat : m = .nop ∨ m.isFloat = true) (hlow : m ≠ .movLow ∨ form.packed = true)
    {i : Instruction} (hi : i ∈ m.expand form safeDivision) :
    i.Lanewise form.precision ∧ i.inForm form.packed = i := by
  cases m with
  | nop =>
      cases List.mem_singleton.mp hi
      exact ⟨trivial, rfl⟩
  | movaps =>
      obtain ⟨⟨dst, src⟩, -, rfl⟩ := List.mem_map.mp hi
      exact ⟨trivial, rfl⟩
  | movLow =>
      rcases hlow with hlow | hpacked
      · exact absurd rfl hlow
      · rw [expand, if_pos hpacked] at hi
        cases hi
  | fadd | fsub | fmul | fdiv | fmin | fmax | fsqrt =>
      obtain ⟨⟨dst, src⟩, -, rfl⟩ := List.mem_map.mp hi
      exact ⟨rfl, rfl⟩
  | _ => simp [isFloat] at hfloat

end Mnemonic

namespace CatalogOptions

variable {host : Host} {o : CatalogOptions}

/-- Listed moves are selected only if they are listed. -/
theorem movLow_not_mem_selected {moves : List Mnemonic} (hmoves : o.moves = some moves)
    (hlow : Mnemonic.movLow ∉ moves) : Mnemonic.movLow ∉ o.selected := by
  rw [mem_selected_iff]
  simp [Asks, Listed, Mnemonic.isMove, hmoves, hlow]

/-- Options for a floating point type choose floating point mnemonics, apart from doing nothing. -/
theorem fits_of_mem_selected (hfloat : o.element.isFloat = true) {m : Mnemonic}
    (hm : m ∈ o.selected) : m = .nop ∨ m.isFloat = true := by
  have hfits := (mem_selected_iff.mp hm).1
  simpa only [Mnemonic.fits, Bool.or_eq_true, decide_eq_true_eq, hfloat] using hfits

/-- The filters of a catalog do not look at the form of an instruction. -/
theorem admits_inForm (host : Host) (o : CatalogOptions) (packed : Bool) (i : Instruction) :
    o.admits host (i.inForm packed) = o.admits host i := by
  cases i <;> rfl

/-- The choice of a form changes nothing but the form. -/
theorem instructionList_inForm (hlow : Mnemonic.movLow ∉ o.selected) (packed : Bool) :
    { o with vectorized := packed }.instructionList host =
      (o.instructionList host).map (Instruction.inForm packed) := by
  have hexpand : ∀ m ∈ o.selected, m.expand { o.floatForm with packed } o.safeDivision =
      (m.expand o.floatForm o.safeDivision).map (Instruction.inForm packed) := by
    intro m hm
    exact Mnemonic.expand_inForm _ _ _ fun h => hlow (h ▸ hm)
  have hadmits : o.admits host ∘ Instruction.inForm packed = o.admits host :=
    funext (o.admits_inForm host packed)
  unfold instructionList
  show List.filter (o.admits host) (o.selected.flatMap
    (Mnemonic.expand { o.floatForm with packed } o.safeDivision)) = _
  rw [List.flatMap_congr hexpand, ← List.map_flatMap, List.filter_map, hadmits]

/-- All that options for a floating point type list works lane by lane and is in their form, unless
a scalar catalog is asked for moves of the lowest number. -/
theorem lanewise_of_mem_instructionList (hfloat : o.element.isFloat = true)
    (hlow : Mnemonic.movLow ∉ o.selected ∨ o.vectorized = true) {i : Instruction}
    (hi : i ∈ o.instructionList host) :
    i.Lanewise o.element.precision ∧ i.inForm o.vectorized = i := by
  obtain ⟨m, hm, hexpand⟩ := List.mem_flatMap.mp (List.mem_of_mem_filter hi)
  have hform : i.Lanewise o.floatForm.precision ∧ i.inForm o.floatForm.packed = i :=
    Mnemonic.lanewise_of_mem_expand (fits_of_mem_selected hfloat hm)
      (hlow.imp_left fun hlow h => hlow (h ▸ hm)) hexpand
  exact hform

end CatalogOptions

/-! ## Catalogs -/

namespace Catalog

variable {host : Host} {o : CatalogOptions} {scalar packed catalog : Catalog}

/-- All instructions of a catalog for a floating point type work lane by lane and are in its form,
unless it is scalar and was asked for moves of the lowest number. -/
theorem lanewise_of_build (h : build host o = .ok catalog) (hfloat : o.element.isFloat = true)
    (hlow : Mnemonic.movLow ∉ o.selected ∨ o.vectorized = true) {i : Instruction}
    (hi : i ∈ catalog.instructions) :
    i.Lanewise o.element.precision ∧ i.inForm o.vectorized = i := by
  rw [(build_eq_ok h).1, List.mem_toArray] at hi
  exact CatalogOptions.lanewise_of_mem_instructionList hfloat hlow hi

/-- An opcode names the same instruction in both catalogs, but for its form. -/
theorem instruction?_inForm (hlow : Mnemonic.movLow ∉ o.selected) {vectorized : Bool}
    (hscalar : build host o = .ok scalar)
    (hpacked : build host { o with vectorized } = .ok packed) (opcode : Opcode) :
    packed.instruction? opcode = (scalar.instruction? opcode).map (Instruction.inForm vectorized) := by
  unfold instruction?
  split
  · rfl
  · rw [(build_eq_ok hpacked).1, (build_eq_ok hscalar).1,
      CatalogOptions.instructionList_inForm hlow, List.getElem?_toArray, List.getElem?_map,
      List.getElem?_toArray]

/-- A catalog has as many opcodes in one form as in the other, unless it was asked for moves of the
lowest number. -/
theorem opcodeCount_inForm (hlow : Mnemonic.movLow ∉ o.selected) {vectorized : Bool}
    (hscalar : build host o = .ok scalar) (hpacked : build host { o with vectorized } = .ok packed) :
    packed.opcodeCount = scalar.opcodeCount := by
  rw [opcodeCount, opcodeCount, size, size, (build_eq_ok hpacked).1, (build_eq_ok hscalar).1,
    CatalogOptions.instructionList_inForm hlow, List.size_toArray, List.size_toArray,
    List.length_map]

end Catalog

namespace Program

variable {host : Host} {o : CatalogOptions} {scalar packed : Catalog}

/-- A program has the same instructions in both catalogs, but for their form. -/
theorem instructions_inForm (hlow : Mnemonic.movLow ∉ o.selected) {vectorized : Bool}
    (hscalar : Catalog.build host o = .ok scalar)
    (hpacked : Catalog.build host { o with vectorized } = .ok packed) (program : Program) :
    program.instructions packed =
      (program.instructions scalar).map (List.map (Instruction.inForm vectorized)) := by
  unfold instructions
  rw [← mapM_except_map]
  apply mapM_congr_left
  intro opcode _
  rw [Catalog.instruction?_inForm hlow hscalar hpacked]
  cases scalar.instruction? opcode <;> rfl

end Program

end LinearGP
