import Mathlib
import LinearGP.Proofs.Selection.Reproduction

/-!
# Offspring

Reproduction goes through two lists at once: the programs to copy, each as often as it has wins beyond
its first, and the places of programs without wins.  This file counts both lists and says what the
copies write.  No copy reads a program that another one overwrites, as parents have wins and the
programs that are overwritten have none, so all of them read programs as they were at the start.
-/

set_option autoImplicit false

namespace LinearGP

/-! ## The lists that reproduction goes through -/

section Lists

variable (wins : Array UInt8)

/-- Programs with wins. -/
def winners : List Nat := (List.range wins.size).filter fun p => wins.getD p 0 ≠ 0

/-- The numbers of wins with their programs, read by program. -/
theorem zipIdx_eq_map_range :
    wins.toList.zipIdx = (List.range wins.size).map fun p => (wins.getD p 0, p) := by
  apply List.ext_getElem?
  intro p
  rw [List.getElem?_zipIdx, List.getElem?_map, Array.getElem?_toList]
  by_cases hp : p < wins.size
  · rw [List.getElem?_range hp, Array.getElem?_eq_getElem hp]
    simp [Array.getD_eq_getD_getElem?, Array.getElem?_eq_getElem hp]
  · rw [List.getElem?_eq_none (by simpa using hp), Array.getElem?_eq_none (by omega)]
    rfl

/-- The programs to copy, read by program. -/
theorem parents_eq : parents wins =
    (List.range wins.size).flatMap fun p => List.replicate ((wins.getD p 0).toNat - 1) p := by
  rw [parents, zipIdx_eq_map_range, List.flatMap_map]

/-- The places without wins, read by program. -/
theorem vacancies_eq :
    vacancies wins = (List.range wins.size).filter fun p => wins.getD p 0 = 0 := by
  rw [vacancies, zipIdx_eq_map_range, List.filter_map, List.map_map]
  exact List.map_id _

/-- Places are used from the first one on. -/
theorem places_sublist_vacancies :
    ((offspring wins).map (·.2)).Sublist (vacancies wins) := by
  unfold offspring
  rw [List.zip_eq_zip_take_min, List.map_snd_zip (by simp)]
  exact List.take_sublist _ _

/-- A program either has wins or is a vacancy. -/
theorem countP_range (f : Nat → Bool) :
    (List.range wins.size).countP f = (winners wins).countP f + (vacancies wins).countP f := by
  rw [List.countP_eq_countP_filter_add _ f fun p => decide (wins.getD p 0 ≠ 0), winners,
    vacancies_eq]
  simp only [ne_eq, decide_not, Bool.not_not]

/-- Winners and vacancies are all programs together. -/
theorem length_winners_add_length_vacancies :
    (winners wins).length + (vacancies wins).length = wins.size := by
  have hcount := countP_range wins fun _ => true
  simpa using hcount.symm

/-- Wins are first wins and wins beyond the first. -/
theorem sum_wins_eq : ∑ p ∈ Finset.range wins.size, (wins.getD p 0).toNat =
    (parents wins).length + (winners wins).length := by
  rw [parents_eq, winners, ← List.toFinset_range, List.sum_toFinset _ List.nodup_range]
  induction List.range wins.size with
  | nil => rfl
  | cons p rest ih =>
      rw [List.map_cons, List.sum_cons, ih, List.flatMap_cons, List.length_append,
        List.length_replicate, List.filter_cons]
      by_cases hp : wins.getD p 0 = 0
      · simp [hp]
      · have hpos : (wins.getD p 0).toNat ≠ 0 := fun h => hp (UInt8.toNat_inj.mp h)
        simp only [ne_eq, hp, not_false_eq_true, decide_true, if_true, List.length_cons]
        omega

variable {wins}

/-- A vacancy is a program without wins. -/
theorem mem_vacancies {q : Nat} : q ∈ vacancies wins ↔ q < wins.size ∧ wins.getD q 0 = 0 := by
  simp [vacancies_eq]

/-- No place is vacant twice. -/
theorem nodup_vacancies : (vacancies wins).Nodup := by
  rw [vacancies_eq]
  exact List.nodup_range.filter _

/-- Only a program with wins is copied. -/
theorem mem_parents {p : Nat} (h : p ∈ parents wins) : p < wins.size ∧ wins.getD p 0 ≠ 0 := by
  rw [parents_eq] at h
  obtain ⟨q, hq, hreplicate⟩ := List.mem_flatMap.mp h
  obtain ⟨hne, rfl⟩ := List.mem_replicate.mp hreplicate
  refine ⟨List.mem_range.mp hq, ?_⟩
  rintro hzero
  rw [hzero] at hne
  exact hne rfl

/-- A program is copied once for every win beyond its first. -/
theorem count_parents {p : Nat} (hp : p < wins.size) :
    (parents wins).count p = (wins.getD p 0).toNat - 1 := by
  rw [parents_eq, List.count_flatMap]
  have hcounts : (List.count p ∘ fun q => List.replicate ((wins.getD q 0).toNat - 1) q) =
      fun q => if q = p then (wins.getD p 0).toNat - 1 else 0 := by
    funext q
    rw [Function.comp_apply, List.count_replicate]
    by_cases hq : q = p
    · subst hq
      simp
    · simp [hq]
  rw [hcounts, ← List.sum_toFinset _ List.nodup_range, List.toFinset_range, Finset.sum_ite_eq',
    if_pos (Finset.mem_range.mpr hp)]

end Lists

/-! ## What copies write -/

namespace Store

/-- After a copy the target holds what the source did, and all others what they did. -/
theorem programAt_copyProgram {s t : Store} (h : s.WellFormed) {source target : Nat}
    (hcopy : s.copyProgram source target = .ok t) {q : Nat} (hq : q < s.programCount) :
    t.programAt q = s.programAt (if q = target then source else q) := by
  have hsize : t.programSize = s.programSize := by
    obtain ⟨-, rfl⟩ := copyProgram_eq_ok hcopy h
    rfl
  unfold programAt
  rw [hsize]
  apply List.map_congr_left
  intro i hi
  exact opcodeAt_copyProgram h hcopy hq (List.mem_range.mp hi)

/-- Copies that read no place of one another leave in every place what its parent was at the start. -/
theorem WellFormed.programAt_copies {s t : Store} (h : s.WellFormed) {pairs : List (Nat × Nat)}
    (hplaces : (pairs.map (·.2)).Nodup)
    (hsources : ∀ pair ∈ pairs, pair.1 < s.programCount ∧ pair.1 ∉ pairs.map (·.2))
    (hcopies : pairs.foldlM (fun s pair => s.copyProgram pair.1 pair.2) s = .ok t) :
    t.WellFormed ∧ t.SameShape s ∧
      (∀ pair ∈ pairs, t.programAt pair.2 = s.programAt pair.1) ∧
      ∀ q < s.programCount, q ∉ pairs.map (·.2) → t.programAt q = s.programAt q := by
  induction pairs generalizing s with
  | nil =>
      injection hcopies with hcopies
      subst hcopies
      exact ⟨h, ⟨rfl, rfl, rfl⟩, by simp, fun _ _ _ => rfl⟩
  | cons pair rest ih =>
      obtain ⟨parent, place⟩ := pair
      rw [List.foldlM_cons] at hcopies
      obtain ⟨u, hcopy, hrest⟩ := bind_eq_ok_iff.mp hcopies
      obtain ⟨hin, hu⟩ := copyProgram_eq_ok hcopy h
      have hshape : u.SameShape s := by
        rw [hu]
        exact ⟨rfl, rfl, rfl⟩
      have hcount := hshape.programCount_eq
      rw [List.map_cons, List.nodup_cons] at hplaces
      have hlater : ∀ pair ∈ rest, pair.1 < s.programCount ∧ pair.1 ≠ place ∧
          pair.1 ∉ rest.map (·.2) := by
        intro pair hpair
        obtain ⟨hlt, hnot⟩ := hsources pair (List.mem_cons_of_mem _ hpair)
        rw [List.map_cons, List.mem_cons, not_or] at hnot
        exact ⟨hlt, hnot⟩
      obtain ⟨ht, htu, hcopied, hkept⟩ := ih (h.copyProgram hcopy) hplaces.2
        (fun pair hpair => ⟨hcount ▸ (hlater pair hpair).1, (hlater pair hpair).2.2⟩) hrest
      refine ⟨ht, htu.trans hshape, ?_, ?_⟩
      · intro pair hpair
        rcases List.mem_cons.mp hpair with rfl | hpair
        · -- no later copy writes here
          rw [hkept place (hcount ▸ hin.2) hplaces.1, programAt_copyProgram h hcopy hin.2,
            if_pos rfl]
        · -- the first copy did not write where this one reads
          obtain ⟨hlt, hne, -⟩ := hlater pair hpair
          rw [hcopied pair hpair, programAt_copyProgram h hcopy hlt, if_neg hne]
      · intro q hq hnot
        rw [List.map_cons, List.mem_cons, not_or] at hnot
        rw [hkept q (hcount ▸ hq) hnot.2, programAt_copyProgram h hcopy hq, if_neg hnot.1]

/-- Reproduction fills places without wins from parents that it leaves alone, and keeps everything
else. -/
theorem WellFormed.programAt_reproduce {s t : Store} (h : s.WellFormed) {wins : Array UInt8}
    {copies : Nat} (hreproduce : s.reproduce wins = .ok (t, copies)) :
    copies = (offspring wins).length ∧ t.WellFormed ∧ t.SameShape s ∧
      (∀ pair ∈ offspring wins, t.programAt pair.2 = s.programAt pair.1) ∧
      ∀ q < s.programCount, q ∉ (offspring wins).map (·.2) → t.programAt q = s.programAt q := by
  rw [reproduce_eq] at hreproduce
  split at hreproduce
  · simp [breach] at hreproduce
  · next hsize =>
    rw [ne_eq, not_not] at hsize
    obtain ⟨u, hfold, hpair⟩ := bind_eq_ok_iff.mp hreproduce
    cases hpair
    have hplaces := places_sublist_vacancies wins
    refine ⟨rfl, h.programAt_copies (hplaces.nodup nodup_vacancies) ?_ hfold⟩
    intro pair hpair
    obtain ⟨hparent, hwins⟩ := mem_parents (List.of_mem_zip hpair).1
    exact ⟨hsize ▸ hparent, fun hplace => hwins (mem_vacancies.mp (hplaces.mem hplace)).2⟩

end Store

end LinearGP
