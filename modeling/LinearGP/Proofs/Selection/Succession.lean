import Mathlib
import LinearGP.Proofs.Selection.Offspring
import LinearGP.Proofs.Selection.Tournament
import LinearGP.Proofs.Store.Reachable
import LinearGP.Random.Pcg

/-!
# Succession

A selection and the reproduction after it conserve offspring: a program with `w` wins is there `w`
times afterwards.  A selection hands out no more wins than there are programs, so the wins beyond the
first of each program never outnumber the programs without wins, and no copy is left out.

`ancestor` tells what every place holds afterwards, and `Tournament.Succession` is what there is to
know about it.
-/

set_option autoImplicit false

namespace LinearGP

/-! ## What every place holds -/

/-- The program that a place holds after reproduction, as itself or as a copy.  Some places without wins are
not filled. -/
def ancestor (wins : Array UInt8) (q : Nat) : Option Nat :=
  if wins.getD q 0 = 0 then (parents wins)[(vacancies wins).idxOf q]? else some q

section Ancestor

variable {wins : Array UInt8} {p q : Nat}

/-- A program with wins keeps its place. -/
theorem ancestor_of_wins (hq : wins.getD q 0 ≠ 0) : ancestor wins q = some q := if_neg hq

/-- A place without wins is filled by the parent at the same position of its list. -/
theorem ancestor_vacancy {i : Nat} (hi : i < (vacancies wins).length) :
    ancestor wins (vacancies wins)[i] = (parents wins)[i]? := by
  have hmem : (vacancies wins)[i] ∈ vacancies wins := List.getElem_mem hi
  rw [ancestor, if_pos (mem_vacancies.mp hmem).2, nodup_vacancies.idxOf_getElem]

/-- The copies are those that `ancestor` tells of. -/
theorem mem_offspring (hq : q < wins.size) (hwins : wins.getD q 0 = 0) :
    (p, q) ∈ offspring wins ↔ ancestor wins q = some p := by
  obtain ⟨i, hi, rfl⟩ := List.mem_iff_getElem.mp (mem_vacancies.mpr ⟨hq, hwins⟩)
  rw [ancestor_vacancy hi, offspring, List.mem_iff_getElem?]
  simp only [List.getElem?_zip_eq_some]
  constructor
  · rintro ⟨j, hparent, hplace⟩
    obtain ⟨hj, hplace⟩ := List.getElem?_eq_some_iff.mp hplace
    rwa [nodup_vacancies.getElem_inj_iff.mp hplace] at hparent
  · exact fun hparent => ⟨i, hparent, List.getElem?_eq_getElem hi⟩

/-- What an ancestor is has wins. -/
theorem wins_of_ancestor (h : ancestor wins q = some p) (hq : q < wins.size) :
    p < wins.size ∧ wins.getD p 0 ≠ 0 := by
  by_cases hwins : wins.getD q 0 = 0
  · exact mem_parents (List.of_mem_zip ((mem_offspring hq hwins).mpr h)).1
  · rw [ancestor_of_wins hwins, Option.some.injEq] at h
    exact h ▸ ⟨hq, hwins⟩

/-- When no copy is left out, the places without wins are filled in order. -/
theorem map_ancestor_vacancies (hlength : (parents wins).length ≤ (vacancies wins).length) :
    (vacancies wins).map (ancestor wins) = (parents wins).map some ++
      List.replicate ((vacancies wins).length - (parents wins).length) none := by
  apply List.ext_getElem?
  intro i
  rw [List.getElem?_map]
  by_cases hi : i < (vacancies wins).length
  · rw [List.getElem?_eq_getElem hi, Option.map_some, ancestor_vacancy hi]
    by_cases hparent : i < (parents wins).length
    · rw [List.getElem?_append_left (by simpa using hparent), List.getElem?_map,
        List.getElem?_eq_getElem hparent, Option.map_some]
    · rw [List.getElem?_append_right (by simpa using hparent), List.getElem?_replicate,
        List.length_map, if_pos (by omega), List.getElem?_eq_none (by omega)]
  · rw [List.getElem?_eq_none (by omega), Option.map_none, List.getElem?_eq_none]
    simp only [List.length_append, List.length_map, List.length_replicate]
    omega

/-- A program is there as often as it has wins. -/
theorem countP_ancestor (hlength : (parents wins).length ≤ (vacancies wins).length)
    (hp : p < wins.size) :
    (List.range wins.size).countP (ancestor wins · = some p) = (wins.getD p 0).toNat := by
  -- the program itself, if it has wins
  have hown : (winners wins).countP (ancestor wins · = some p) =
      if wins.getD p 0 = 0 then 0 else 1 := by
    have hself : ∀ q ∈ winners wins, (decide (ancestor wins q = some p) = true ↔
        (q == p) = true) := by
      intro q hq
      have hwins : wins.getD q 0 ≠ 0 := by simpa using (List.mem_filter.mp hq).2
      simp [ancestor_of_wins hwins]
    have hnodup : (winners wins).Nodup := List.nodup_range.filter _
    have hcount : (winners wins).countP (· == p) = (winners wins).count p := rfl
    rw [List.countP_congr hself, hcount, hnodup.count]
    simp [winners, hp]
  -- its copies
  have hcopies : (vacancies wins).countP (ancestor wins · = some p) =
      (wins.getD p 0).toNat - 1 := by
    have hmap : (vacancies wins).countP (ancestor wins · = some p) =
        ((vacancies wins).map (ancestor wins)).countP (· = some p) := by
      rw [List.countP_map]
      rfl
    have hparents : ((parents wins).map some).countP (· = some p) = (parents wins).count p := by
      rw [List.countP_map]
      apply List.countP_congr
      simp
    rw [hmap, map_ancestor_vacancies hlength, List.countP_append, hparents, count_parents hp]
    simp [List.countP_replicate]
  rw [countP_range, hown, hcopies]
  by_cases hwins : wins.getD p 0 = 0
  · simp [hwins]
  · have hpos : (wins.getD p 0).toNat ≠ 0 := fun h => hwins (UInt8.toNat_inj.mp h)
    rw [if_neg hwins]
    omega

/-- The places that are not filled are the last ones without wins. -/
theorem filter_ancestor_eq_none :
    (List.range wins.size).filter (fun q => ancestor wins q = none) =
      (vacancies wins).drop (parents wins).length := by
  have hvacant : (List.range wins.size).filter (fun q => ancestor wins q = none) =
      (vacancies wins).filter fun q => ancestor wins q = none := by
    rw [vacancies_eq, List.filter_filter]
    apply List.filter_congr
    intro q _
    by_cases hwins : wins.getD q 0 = 0
    · simp [hwins]
    · simp [ancestor_of_wins hwins]
  have hfilled : ∀ q ∈ (vacancies wins).take (parents wins).length,
      ¬ decide (ancestor wins q = none) = true := by
    intro q hq
    obtain ⟨i, hi, rfl⟩ := List.mem_take_iff_getElem.mp hq
    rw [Nat.lt_min] at hi
    rw [ancestor_vacancy hi.2, List.getElem?_eq_getElem hi.1]
    simp
  have hleft : ∀ q ∈ (vacancies wins).drop (parents wins).length,
      decide (ancestor wins q = none) = true := by
    intro q hq
    obtain ⟨i, hi, rfl⟩ := List.mem_drop_iff_getElem.mp hq
    rw [ancestor_vacancy (by omega), List.getElem?_eq_none (Nat.le_add_right _ _),
      decide_eq_true_eq]
  rw [hvacant]
  conv_lhs => rw [← List.take_append_drop (parents wins).length (vacancies wins)]
  rw [List.filter_append, List.filter_eq_nil_iff.mpr hfilled, List.filter_eq_self.mpr hleft,
    List.nil_append]

end Ancestor

/-! ## From one generation to the next -/

namespace Tournament

/-- What a selection that hands out `selected` wins and the reproduction after it do to the programs
of a store, when `ancestor` is the program that a place holds afterwards, as itself or as a copy. -/
structure Succession (t : Tournament) (wins : Array UInt8) (selected copies : Nat)
    (before after : Store) (ancestor : Nat → Option Nat) : Prop where
  /-- One copy is made for every win beyond the first of its program. -/
  copies_eq : copies + (List.range t.population).countP (wins.getD · 0 ≠ 0) = selected
  own : ∀ p < t.population, wins.getD p 0 ≠ 0 → ancestor p = some p
  heirs : ∀ p < t.population,
    (List.range t.population).countP (ancestor · = some p) = (wins.getD p 0).toNat
  wins_le : ∀ p < t.population, wins.getD p 0 ≤ t.cap
  inherits : ∀ q < t.population, ∀ p, ancestor q = some p → p < t.population ∧
    ∃ program, before.program p = .ok program ∧ after.program q = .ok program
  /-- The places that are left are the last ones without wins. -/
  left_suffix : (List.range t.population).filter (ancestor · = none) <:+
    (List.range t.population).filter (wins.getD · 0 = 0)
  length_left :
    ((List.range t.population).filter (ancestor · = none)).length + selected = t.population
  unchanged : ∀ q < t.population, ancestor q = none →
    ∃ program, before.program q = .ok program ∧ after.program q = .ok program
  isFinite : ∀ q < t.population, ∀ p, ancestor q = some p → (t.loss p).isFinite = true
  complete : selected = t.population → ∀ q < t.population, ∃ p, ancestor q = some p

variable {t : Tournament}

/-- The copies that are asked for find a place, as no more wins are handed out than there are programs. -/
theorem Tally.length_parents_le {c : Contest} (h : t.Tally c) (hselected : c.selected ≤ t.population) :
    (parents c.wins).length + (winners c.wins).length = c.selected ∧
      (parents c.wins).length ≤ (vacancies c.wins).length := by
  have hsum := sum_wins_eq c.wins
  have hall := length_winners_add_length_vacancies c.wins
  rw [h.size_eq, ← h.selected_eq] at hsum
  rw [h.size_eq] at hall
  exact ⟨hsum.symm, by omega⟩

/-- Whatever was drawn, reproduction after a selection that ends well makes a generation in which
every program is there as often as it has wins. -/
theorem succession_of_select {σ : Type} [DrawSource σ] {budget selected : Nat}
    {wins wins' : Array UInt8} {s s' : σ} {before : Store} (hbefore : before.Reachable)
    (hcount : before.programCount = t.population)
    (hselect : t.select budget (wins, s) = .ok selected (wins', s')) :
    ∃ after copies ancestor, before.reproduce wins' = .ok (after, copies) ∧
      t.Succession wins' selected copies before after ancestor := by
  obtain ⟨c, htally, rfl, rfl, hselected⟩ := tally_of_select hselect
  have hsize := htally.size_eq
  have hwell := hbefore.wellFormed
  obtain ⟨hparents, hlength⟩ := htally.length_parents_le hselected
  have hplaces := length_winners_add_length_vacancies c.wins
  obtain ⟨after, copies, hreproduce⟩ := hwell.exists_reproduce (hcount.trans hsize.symm)
  obtain ⟨hcopies, hafter, hshape, hcopied, hkept⟩ := hwell.programAt_reproduce hreproduce
  have hprogram : ∀ {p q : Nat}, p < t.population → q < t.population →
      after.programAt q = before.programAt p →
      ∃ program, before.program p = .ok program ∧ after.program q = .ok program := by
    intro p q hp hq hsame
    refine ⟨_, Store.program_eq hwell (hcount ▸ hp), ?_⟩
    rw [Store.program_eq hafter (hshape.programCount_eq ▸ hcount ▸ hq), hsame]
  have hplace : ∀ {p q : Nat}, (p, q) ∈ offspring c.wins → c.wins.getD q 0 = 0 := fun hpair =>
    (mem_vacancies.mp (List.of_mem_zip hpair).2).2
  refine ⟨after, copies, ancestor c.wins, hreproduce, ?_⟩
  exact {
    copies_eq := by
      rw [hcopies, offspring, List.length_zip, Nat.min_eq_left hlength, List.countP_eq_length_filter,
        ← hsize]
      exact hparents
    own := fun p _ hp => ancestor_of_wins hp
    heirs := by
      intro p hp
      rw [← hsize] at hp ⊢
      exact countP_ancestor hlength hp
    wins_le := fun p _ => UInt8.le_iff_toNat_le.mpr ((htally.wins_le p).trans (t.quota_le p))
    inherits := by
      intro q hq p hp
      have hin : p < t.population := hsize ▸ (wins_of_ancestor hp (hsize.symm ▸ hq)).1
      refine ⟨hin, hprogram hin hq ?_⟩
      by_cases hwins : c.wins.getD q 0 = 0
      · exact hcopied (p, q) ((mem_offspring (hsize.symm ▸ hq) hwins).mpr hp)
      · rw [ancestor_of_wins hwins, Option.some.injEq] at hp
        subst hp
        refine hkept q (hcount ▸ hq) fun hmem => ?_
        obtain ⟨⟨parent, place⟩, hpair, rfl⟩ := List.mem_map.mp hmem
        exact hwins (hplace hpair)
    left_suffix := by
      rw [← hsize, filter_ancestor_eq_none, ← vacancies_eq]
      exact List.drop_suffix _ _
    length_left := by
      rw [← hsize, filter_ancestor_eq_none, List.length_drop]
      omega
    unchanged := by
      intro q hq hnone
      refine hprogram hq hq (hkept q (hcount ▸ hq) fun hmem => ?_)
      obtain ⟨⟨parent, place⟩, hpair, rfl⟩ := List.mem_map.mp hmem
      have hsome := (mem_offspring (hsize.symm ▸ hq) (hplace hpair)).mp hpair
      rw [hnone] at hsome
      cases hsome
    isFinite := by
      intro q hq p hp
      exact htally.isFinite_of_wins (wins_of_ancestor hp (hsize.symm ▸ hq)).2
    complete := by
      intro hall q hq
      by_contra hnone
      rw [not_exists, ← Option.eq_none_iff_forall_ne_some] at hnone
      have hmem : q ∈ (List.range c.wins.size).filter fun q => ancestor c.wins q = none := by
        rw [List.mem_filter, List.mem_range, decide_eq_true_eq]
        exact ⟨hsize.symm ▸ hq, hnone⟩
      -- no vacancy is left when every win was handed out
      rw [filter_ancestor_eq_none, List.drop_eq_nil_of_le (by omega)] at hmem
      cases hmem }

/-- A lone program with a finite loss may win twice: the first place gets a copy of it, and the last two
places keep the programs that they held. -/
theorem succession_of_lone_winner :
    let t : Tournament :=
      { losses := #[.infinity, .one, .infinity, .infinity], cap := 2, size := 2 }
    let before : Store := { threads := 2, perThread := 2, programSize := 1
                            slots := #[10, 0, 11, 0, 1, 12, 0, 13, 0, 1], initialized := true }
    before.Reachable ∧ before.programCount = t.population ∧
      ∃ s : Pcg64, t.select 30 (#[7, 7, 7, 7], Pcg64.ofSeed 7) = .ok 2 (#[0, 2, 0, 0], s) ∧
        ∃ after copies ancestor, before.reproduce #[0, 2, 0, 0] = .ok (after, copies) ∧
          t.Succession #[0, 2, 0, 0] 2 copies before after ancestor ∧
          (List.range 4).mapM after.program = .ok [[11], [11], [12], [13]] := by
  intro t before
  have hrun : (match t.select 30 (#[7, 7, 7, 7], Pcg64.ofSeed 7) with
      | .ok selected (wins, _) => selected == 2 && wins == #[0, 2, 0, 0]
      | .error _ _ => false) = true := by decide +kernel
  have hcreate : Store.create 2 4 1 = .ok {
      threads := 2, perThread := 2, programSize := 1, slots := Array.replicate 10 Opcode.END
      initialized := false } := rfl
  have hreachable : before.Reachable := (Store.Reachable.prepare hcreate rfl)
    |>.set (rfl : Store.set _ 0 0 10 = .ok _)
    |>.set (rfl : Store.set _ 1 0 11 = .ok _)
    |>.set (rfl : Store.set _ 2 0 12 = .ok _)
    |>.set (rfl : Store.set _ 3 0 13 = .ok _)
  have hcount : before.programCount = t.population := rfl
  split at hrun
  · next selected wins s hselect =>
    rw [Bool.and_eq_true, beq_iff_eq, beq_iff_eq] at hrun
    obtain ⟨rfl, rfl⟩ := hrun
    obtain ⟨after, copies, ancestor, hreproduce, hsuccession⟩ :=
      succession_of_select hreachable hcount hselect
    refine ⟨hreachable, hcount, s, hselect, after, copies, ancestor, hreproduce, hsuccession, ?_⟩
    have hafter : before.reproduce #[0, 2, 0, 0] =
        .ok ({ before with slots := #[11, 0, 11, 0, 1, 12, 0, 13, 0, 1] }, 1) := by cbv
    rw [hreproduce, Except.ok.injEq, Prod.mk.injEq] at hafter
    rw [hafter.1]
    cbv
  · cases hrun

end Tournament

end LinearGP
