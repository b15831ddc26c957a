import Mathlib
import LinearGP.Proofs.Layout.Dimensions
import LinearGP.Proofs.Results

/-!
# The output region and its slices

Threads write slices of equal width, and outputs are read from the whole region.  A write to one slice
is read back at the programs of its thread, and `get_ofSlices_set` says where.
-/

set_option autoImplicit false

namespace LinearGP

namespace OutputRegion

variable {k : ElementKind}

/-- The dimensions of an output region that was made for a layout. -/
theorem zeroed_eq_ok {l : Layout} {r : OutputRegion k} (h : zeroed k l = .ok r) :
    r.values.size = l.programs * l.outputsPerProgram ∧ r.perProgram = l.outputsPerProgram ∧
      r.lanes = l.lanes ∧ r.values.size * k.size < 0x8000000000000000 := by
  unfold zeroed at h
  split at h
  · simp [breach] at h
  · obtain ⟨length, hlength, hr⟩ := bind_eq_ok_iff.mp h
    obtain ⟨-, rfl⟩ := (fitsWord_eq_ok_iff _ _).mp hlength
    split at hr
    · simp [breach] at hr
    · injection hr with hr
      subst hr
      simp only [Array.size_replicate, true_and]
      omega

/-- The slice of a thread, when the slices have a given width. -/
def slice (r : OutputRegion k) (width thread : Nat) : Array k.Value :=
  r.values.extract (thread * width) ((thread + 1) * width)

variable {r : OutputRegion k} {threads width : Nat}

/-- The part of a thread has the width of all parts. -/
theorem size_slice (hsize : r.values.size = threads * width) {thread : Nat}
    (hthread : thread < threads) : (r.slice width thread).size = width := by
  have hend : (thread + 1) * width ≤ r.values.size := by
    rw [hsize]
    exact Nat.mul_le_mul_right _ hthread
  rw [Nat.succ_mul] at hend
  unfold slice
  rw [Array.size_extract, Nat.succ_mul]
  omega

/-- Outputs that divide evenly are cut into one part for every thread. -/
theorem slices_eq (hsize : r.values.size = threads * width) (hthreads : 0 < threads)
    (hwidth : 0 < width) : r.slices threads = .ok ((List.range threads).map (r.slice width)) := by
  have hdiv : r.values.size / threads = width := by
    rw [hsize, Nat.mul_div_cancel_left _ hthreads]
  unfold slices
  rw [hdiv, hsize, Nat.mul_mod_right, if_neg (by omega)]
  rfl

/-- A place of the region that is in range is read. -/
theorem get_eq {program row lane : Nat} (hprogram : (program + 1) * r.perProgram ≤ r.values.size)
    (hlane : lane < r.lanes) (hrow : row * r.lanes + lane < r.perProgram) {value : k.Value}
    (hvalue : r.values[program * r.perProgram + (row * r.lanes + lane)]? = some value) :
    r.get program row lane = .ok value := by
  rw [Nat.succ_mul] at hprogram
  unfold get OutputRegion.program
  simp only [if_neg (Nat.not_le.mpr hlane), if_pos hprogram, bind, Except.bind]
  rw [Array.getElem?_extract, if_pos (by omega), hvalue]
  rfl

/-- Once the slice of a thread is replaced, the outputs of its programs are read from there. -/
theorem get_ofSlices_set {perThread rows : Nat} (hrows : r.perProgram = rows * r.lanes)
    (hsize : r.values.size = threads * (perThread * r.perProgram)) {thread : Nat}
    (hthread : thread < threads) {written : Array k.Value}
    (hwritten : written.size = perThread * r.perProgram) {p row lane : Nat} (hp : p < perThread)
    (hrow : row < rows) (hlane : lane < r.lanes) {value : k.Value}
    (hvalue : written[(p * rows + row) * r.lanes + lane]? = some value) :
    (r.ofSlices (((List.range threads).map (r.slice (perThread * r.perProgram))).set thread
      written)).get (thread * perThread + p) row lane = .ok value := by
  let slices := ((List.range threads).map (r.slice (perThread * r.perProgram))).set thread written
  have hcount : (slices.map (·.toList)).length = threads := by simp [slices]
  have hwidth : ∀ values ∈ slices.map (·.toList), values.length = perThread * r.perProgram := by
    intro values hvalues
    obtain ⟨slice, hslice, rfl⟩ := List.mem_map.mp hvalues
    rw [Array.length_toList]
    rcases List.mem_or_eq_of_mem_set hslice with hold | rfl
    · obtain ⟨other, hother, rfl⟩ := List.mem_map.mp hold
      exact size_slice hsize (List.mem_range.mp hother)
    · exact hwritten
  have hread : (slices.map (·.toList))[thread]? = some written.toList := by
    rw [List.getElem?_map, List.getElem?_set_self (by simpa using hthread), Option.map_some]
  have hcell : row * r.lanes + lane < r.perProgram := hrows ▸ mul_add_lt_mul hrow hlane
  have hall : (slices.map (·.toList)).flatten.length = threads * perThread * r.perProgram := by
    rw [length_flatten_of_width hwidth, hcount, Nat.mul_assoc]
  have hplace : (thread * perThread + p) * r.perProgram + (row * r.lanes + lane) =
      thread * (perThread * r.perProgram) + (p * r.perProgram + (row * r.lanes + lane)) := by ring
  have hlocal : p * r.perProgram + (row * r.lanes + lane) = (p * rows + row) * r.lanes + lane := by
    rw [hrows]
    ring
  apply get_eq
  · show _ ≤ (slices.map (·.toList)).flatten.toArray.size
    rw [List.size_toArray, hall]
    exact Nat.mul_le_mul_right _ (mul_add_lt_mul hthread hp)
  · exact hlane
  · exact hcell
  · show (slices.map (·.toList)).flatten.toArray[(thread * perThread + p) * r.perProgram +
      (row * r.lanes + lane)]? = _
    rw [List.getElem?_toArray, hplace, getElem?_flatten hwidth (mul_add_lt_mul hp hcell), hread,
      Option.bind_some, Array.getElem?_toList, hlocal]
    exact hvalue

end OutputRegion

end LinearGP
