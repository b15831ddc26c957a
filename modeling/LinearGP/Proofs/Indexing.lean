import Mathlib

/-!
# Positions in blocks of equal width

Regions, stores and partitions are all made of blocks of equal width, one after the other.  Position
`i` of block `b` is `b * width + i`, and this file has the arithmetic that goes with it.
-/

set_option autoImplicit false

namespace LinearGP

variable {blocks width b i : Nat}

/-- A position in a block is before the end of the last block. -/
theorem mul_add_lt_mul (hb : b < blocks) (hi : i < width) : b * width + i < blocks * width :=
  calc b * width + i < b * width + width := by omega
    _ = (b + 1) * width := by ring
    _ ≤ blocks * width := Nat.mul_le_mul_right _ hb

/-- The block of a position is found by division. -/
theorem mul_add_div_width (hi : i < width) : (b * width + i) / width = b := by
  rw [Nat.add_comm, Nat.add_mul_div_right _ _ (by omega), Nat.div_eq_of_lt hi, Nat.zero_add]

/-- The place within a block is found by the remainder. -/
theorem mul_add_mod_width (hi : i < width) : (b * width + i) % width = i := by
  rw [Nat.mul_add_mod', Nat.mod_eq_of_lt hi]

/-- A position tells its block, and the place in it. -/
theorem mul_add_inj {b' i' : Nat} (hi : i < width) (hi' : i' < width) :
    b * width + i = b' * width + i' ↔ b = b' ∧ i = i' := by
  constructor
  · intro heq
    refine ⟨?_, ?_⟩
    · rw [← mul_add_div_width hi (b := b), heq, mul_add_div_width hi']
    · rw [← mul_add_mod_width hi (b := b), heq, mul_add_mod_width hi']
  · rintro ⟨rfl, rfl⟩
    rfl

/-- The positions of all blocks, block by block. -/
theorem range_mul (blocks width : Nat) :
    List.range (blocks * width) =
      (List.range blocks).flatMap fun b => (List.range width).map fun i => b * width + i := by
  induction blocks with
  | zero => simp
  | succ blocks ih =>
      rw [Nat.succ_mul, List.range_add, ih, List.range_succ, List.flatMap_append]
      simp

/-- An element of a row of blocks is found through its block. -/
theorem getElem?_flatten {α : Type} {rows : List (List α)}
    (hrows : ∀ row ∈ rows, row.length = width) (hi : i < width) :
    rows.flatten[b * width + i]? = rows[b]?.bind (·[i]?) := by
  induction rows generalizing b with
  | nil => simp
  | cons row rest ih =>
      have hrow : row.length = width := hrows row (by simp)
      rw [List.flatten_cons]
      cases b with
      | zero =>
          rw [List.getElem?_append_left (by omega)]
          simp
      | succ b =>
          have hplace : (b + 1) * width + i = row.length + (b * width + i) := by
            rw [hrow]
            ring
          rw [hplace, List.getElem?_append_right (by omega), Nat.add_sub_cancel_left,
            ih (fun l hl => hrows l (List.mem_cons_of_mem _ hl)), List.getElem?_cons_succ]

/-- Blocks of equal width make up a multiple of it. -/
theorem length_flatten_of_width {α : Type} {rows : List (List α)}
    (hrows : ∀ row ∈ rows, row.length = width) : rows.flatten.length = rows.length * width := by
  induction rows with
  | nil => simp
  | cons row rest ih =>
      rw [List.flatten_cons, List.length_append, hrows row (by simp),
        ih fun l hl => hrows l (List.mem_cons_of_mem _ hl), List.length_cons]
      ring

/-- Blocks may be made from their number. -/
theorem length_of_mem_map_range {α : Type} {f : Nat → List α}
    (hf : ∀ b < blocks, (f b).length = width) :
    ∀ row ∈ (List.range blocks).map f, row.length = width := by
  intro row hrow
  obtain ⟨b, hb, rfl⟩ := List.mem_map.mp hrow
  exact hf b (List.mem_range.mp hb)

/-- Blocks of one width take as many places as there are blocks times the width. -/
theorem length_flatMap_range {α : Type} {f : Nat → List α}
    (hf : ∀ b < blocks, (f b).length = width) :
    ((List.range blocks).flatMap f).length = blocks * width := by
  rw [List.flatMap_def, length_flatten_of_width (length_of_mem_map_range hf), List.length_map,
    List.length_range]

/-- A position among blocks of one width is read from its block. -/
theorem getElem?_flatMap_range {α : Type} {f : Nat → List α}
    (hf : ∀ b < blocks, (f b).length = width) (hb : b < blocks) (hi : i < width) :
    ((List.range blocks).flatMap f)[b * width + i]? = (f b)[i]? := by
  rw [List.flatMap_def, getElem?_flatten (length_of_mem_map_range hf) hi, List.getElem?_map,
    List.getElem?_range hb, Option.map_some, Option.bind_some]

/-- A block is cut out again. -/
theorem extract_flatten {α : Type} {rows : List (List α)} (hrows : ∀ row ∈ rows, row.length = width)
    {row : List α} (hrow : rows[b]? = some row) :
    rows.flatten.toArray.extract (b * width) (b * width + width) = row.toArray := by
  have hlength : row.length = width := hrows row (List.mem_of_getElem? hrow)
  have hin : b * width + width ≤ rows.flatten.length := by
    rw [length_flatten_of_width hrows, ← Nat.succ_mul]
    exact Nat.mul_le_mul_right _ (List.getElem?_eq_some_iff.mp hrow).1
  apply Array.ext_getElem?
  intro i
  rw [Array.getElem?_extract, List.size_toArray, List.getElem?_toArray, List.getElem?_toArray]
  by_cases hi : i < width
  · rw [if_pos (by omega), getElem?_flatten hrows hi, hrow, Option.bind_some]
  · rw [if_neg (by omega), List.getElem?_eq_none (by omega)]

end LinearGP
