import Mathlib
import LinearGP.Proofs.Results
import LinearGP.Selection.Tournament

/-!
# The books of a selection

A contest keeps two counts beside the wins of the programs: the wins that it has handed out, and
those that can still be taken.  `Tournament.Tally` says that both are exact and that no program is
over its quota.  Every tournament keeps this, so it holds wherever a selection ends, be it complete,
given up or out of budget.  It also says that the counts never leave the natural numbers: a win is
only taken from a positive capacity.
-/

set_option autoImplicit false

namespace LinearGP

namespace Tournament

variable {t : Tournament}

/-! ## Quotas -/

/-- The most wins that a program can take in a selection. -/
def quota (t : Tournament) (program : Nat) : Nat :=
  if (t.loss program).isFinite then t.cap.toNat else 0

/-- No quota exceeds the cap. -/
theorem quota_le (t : Tournament) (program : Nat) : t.quota program ≤ t.cap.toNat := by
  unfold quota
  split
  · exact le_rfl
  · exact Nat.zero_le _

/-- A program with a finite loss is one of the population. -/
theorem lt_of_isFinite {program : Nat} (h : (t.loss program).isFinite = true) :
    program < t.population := by
  by_contra hout
  have hloss : t.loss program = .infinity := by
    unfold loss
    rw [Array.getD_eq_getD_getElem?, Array.getElem?_eq_none (Nat.le_of_not_lt hout),
      Option.getD_none]
  rw [hloss] at h
  exact absurd h (by decide)

/-- The quotas add up to the capacity that a selection opens with. -/
theorem sum_quota (t : Tournament) :
    ∑ program ∈ Finset.range t.population, t.quota program = t.contenders * t.cap.toNat := by
  have hlosses : t.losses.toList = (List.range t.population).map t.loss := by
    apply List.ext_getElem
    · simp [population]
    · intro program hprogram _
      rw [Array.length_toList] at hprogram
      simp [loss, Array.getD_eq_getD_getElem?, Array.getElem?_eq_getElem hprogram]
  have hcount : t.contenders =
      ((Finset.range t.population).filter fun program => (t.loss program).isFinite = true).card := by
    unfold contenders
    rw [hlosses, List.countP_map, List.countP_eq_length_filter]
    simp only [Function.comp_def]
    rw [← List.toFinset_card_of_nodup (List.nodup_range.filter _), List.toFinset_filter,
      List.toFinset_range]
  unfold quota
  rw [hcount, ← Finset.sum_filter, Finset.sum_const, smul_eq_mul]

/-- There are contenders when some loss is finite. -/
theorem contenders_pos_iff : 0 < t.contenders ↔ ∃ loss ∈ t.losses, loss.isFinite = true := by
  rw [contenders, List.countP_pos_iff]
  simp only [Array.mem_toList_iff]

/-- There are no contenders when no loss is finite. -/
theorem contenders_eq_zero_iff : t.contenders = 0 ↔ ∀ loss ∈ t.losses, loss.isFinite = false := by
  rw [contenders, List.countP_eq_zero]
  simp only [Array.mem_toList_iff, Bool.not_eq_true]

/-! ## Winners -/

/-- The winner of a tournament is one of those that were drawn. -/
theorem winner_mem {drawn : List Nat} (h : drawn ≠ []) : t.winner drawn ∈ drawn := by
  cases drawn with
  | nil => exact absurd rfl h
  | cons first challengers =>
      refine List.foldlRecOn (motive := fun holder => holder ∈ first :: challengers) challengers
        t.better List.mem_cons_self ?_
      intro holder hholder challenger hchallenger
      unfold better
      split
      · exact List.mem_cons_of_mem _ hchallenger
      · exact hholder

/-- Every tournament is won by a program of the population. -/
theorem winner_lt {σ : Type} [DrawSource σ] (hpopulation : 0 < t.population) (hsize : 0 < t.size)
    (s : σ) : t.winner (drawIndices t.population t.size s).1 < t.population := by
  apply lt_of_mem_drawIndices hpopulation (s := s)
  apply winner_mem
  intro hnone
  have hlength := length_drawIndices t.population t.size s
  rw [hnone, List.length_nil] at hlength
  omega

/-- A program that meets only itself wins. -/
theorem winner_replicate {count : Nat} (hcount : 0 < count) (program : Nat) :
    t.winner (List.replicate count program) = program := by
  apply List.eq_of_mem_replicate (n := count)
  apply winner_mem
  rwa [← List.length_pos_iff_ne_nil, List.length_replicate]

/-! ## Single tournaments -/

/-- A contest is over when every place of the next generation is taken, or when some are and no more
wins can be handed out. -/
theorem isOver_iff {c : Contest} :
    t.isOver c = true ↔ t.population ≤ c.selected ∨ 0 < c.selected ∧ c.capacity = 0 := by
  rw [isOver, Bool.or_eq_true, Bool.and_eq_true, decide_eq_true_eq, decide_eq_true_eq,
    decide_eq_true_eq]

/-- As long as a contest is on, there is room for another win. -/
theorem selected_lt_of_not_isOver {c : Contest} (hon : t.isOver c = false) :
    c.selected < t.population := by
  rw [Bool.eq_false_iff, ne_eq, isOver_iff, not_or] at hon
  exact Nat.lt_of_not_le hon.1

/-- A program can take a win when its loss is finite and its wins are below the cap. -/
theorem admits_iff {c : Contest} {program : Nat} : t.admits c program = true ↔
    (t.loss program).isFinite = true ∧ c.wins.getD program 0 < t.cap := by
  rw [admits, Bool.and_eq_true, decide_eq_true_eq]

/-- A tournament whose winner can take a win hands it out. -/
theorem settle_of_admits {c : Contest} {program : Nat} (h : t.admits c program = true) :
    t.settle c program = .ok { wins := c.wins.modify program (· + 1), capacity := c.capacity - 1
                               selected := c.selected + 1, held := c.held + 1 } := by
  unfold settle
  rw [if_pos h]

/-- A tournament that does not end a contest hands out a win, or is only counted. -/
theorem settle_eq_ok {c c' : Contest} {program : Nat} (h : t.settle c program = .ok c') :
    (t.admits c program = true ∧
      c' = { wins := c.wins.modify program (· + 1), capacity := c.capacity - 1
             selected := c.selected + 1, held := c.held + 1 }) ∨
    (¬ t.admits c program = true ∧ (c.selected = 0 → c.held + 1 ≤ t.population) ∧
      c' = { c with held := c.held + 1 }) := by
  unfold settle at h
  simp only at h
  split at h
  · next hadmits =>
    injection h with h
    exact .inl ⟨hadmits, h.symm⟩
  · next hadmits =>
    split at h
    · cases h
    · next hpatience =>
      injection h with h
      exact .inr ⟨hadmits, fun hnone => Nat.le_of_not_lt fun hmany => hpatience ⟨hnone, hmany⟩, h.symm⟩

/-- A tournament ends a contest only when it brings no win, as none did before, and when there were as
many of them as there are programs. -/
theorem settle_eq_error {c : Contest} {program : Nat} {failure : Failure}
    (h : t.settle c program = .error failure) :
    ¬ t.admits c program = true ∧ c.selected = 0 ∧ t.population ≤ c.held ∧
      failure = .error (.populationCollapsed (c.held + 1)) := by
  unfold settle at h
  simp only at h
  split at h
  · cases h
  · next hadmits =>
    split at h
    · next hnone =>
      injection h with h
      exact ⟨hadmits, hnone.1, Nat.le_of_lt_succ hnone.2, h.symm⟩
    · cases h

/-! ## Counts -/

/-- The counts of a contest agree with its wins, and no program is over its quota. -/
structure Tally (t : Tournament) (c : Contest) : Prop where
  size_eq : c.wins.size = t.population
  wins_le : ∀ program, (c.wins.getD program 0).toNat ≤ t.quota program
  selected_eq : c.selected = ∑ program ∈ Finset.range t.population, (c.wins.getD program 0).toNat
  capacity_eq : c.capacity + c.selected = t.contenders * t.cap.toNat

namespace Tally

variable {c c' : Contest} {program : Nat}

/-- At the opening no wins are counted. -/
theorem opening (t : Tournament) : t.Tally t.opening := by
  have hwins : ∀ program, (t.opening.wins.getD program 0).toNat = 0 := by
    intro program
    rw [Tournament.opening, Array.getD_eq_getD_getElem?, Array.getElem?_replicate]
    split <;> rfl
  exact {
    size_eq := Array.size_replicate
    wins_le := fun program => (hwins program).trans_le (Nat.zero_le _)
    selected_eq := (Finset.sum_eq_zero fun program _ => hwins program).symm
    capacity_eq := Nat.add_zero _ }

/-- A program that can take a win is one of the population, with room in its quota. -/
theorem admitted (hadmits : t.admits c program = true) :
    program < t.population ∧ (c.wins.getD program 0).toNat < t.quota program := by
  obtain ⟨hfinite, hless⟩ := admits_iff.mp hadmits
  refine ⟨lt_of_isFinite hfinite, ?_⟩
  rw [quota, if_pos hfinite]
  exact UInt8.lt_iff_toNat_lt.mp hless

/-- A win is handed out only while the capacity is positive. -/
theorem capacity_pos (h : t.Tally c) (hadmits : t.admits c program = true) : 0 < c.capacity := by
  obtain ⟨hprogram, hless⟩ := admitted hadmits
  -- the winner is short of its quota, so all wins together are short of all quotas
  have hsum : c.selected < t.contenders * t.cap.toNat := by
    rw [h.selected_eq, ← sum_quota]
    exact Finset.sum_lt_sum (fun program _ => h.wins_le program)
      ⟨program, Finset.mem_range.mpr hprogram, hless⟩
  have hcapacity := h.capacity_eq
  omega

/-- The wins after a win: nothing wraps, as the winner was below the cap. -/
theorem toNat_modify (h : t.Tally c) (hadmits : t.admits c program = true) (other : Nat) :
    ((c.wins.modify program (· + 1)).getD other 0).toNat =
      (c.wins.getD other 0).toNat + if other = program then 1 else 0 := by
  obtain ⟨hprogram, hless⟩ := admitted hadmits
  rw [Array.getD_eq_getD_getElem?, Array.getElem?_modify, Array.getD_eq_getD_getElem?]
  by_cases hother : other = program
  · subst hother
    have hin : other < c.wins.size := h.size_eq ▸ hprogram
    -- below the cap there is room for one more in a byte
    have hbound := lt_of_lt_of_le hless (t.quota_le other)
    rw [← Array.getElem_eq_getD (h := hin)] at hbound
    have hcap := t.cap.toNat_lt
    simp only [if_true, Array.getElem?_eq_getElem hin, Option.map_some, Option.getD_some,
      UInt8.toNat_add, UInt8.reduceToNat]
    omega
  · rw [if_neg (Ne.symm hother), if_neg hother, Nat.add_zero]

/-- One tournament keeps the counts exact. -/
theorem settle (h : t.Tally c) (hsettle : t.settle c program = .ok c') : t.Tally c' := by
  obtain ⟨hadmits, rfl⟩ | ⟨-, -, rfl⟩ := settle_eq_ok hsettle
  · obtain ⟨hprogram, hless⟩ := admitted hadmits
    have hwins := h.toNat_modify hadmits
    have hpos := h.capacity_pos hadmits
    refine { size_eq := ?_, wins_le := ?_, selected_eq := ?_, capacity_eq := ?_ }
    · rw [Array.size_modify]
      exact h.size_eq
    · intro other
      rw [hwins]
      split
      · next hother =>
        subst hother
        exact hless
      · exact h.wins_le other
    · simp only [hwins]
      rw [Finset.sum_add_distrib, Finset.sum_ite_eq' _ program, if_pos (Finset.mem_range.mpr hprogram),
        h.selected_eq]
    · have hcapacity := h.capacity_eq
      show c.capacity - 1 + (c.selected + 1) = _
      omega
  · exact ⟨h.size_eq, h.wins_le, h.selected_eq, h.capacity_eq⟩

/-- The counts are exact wherever a selection ends. -/
theorem run {σ : Type} [DrawSource σ] (h : t.Tally c) (budget : Nat) (s : σ) :
    t.Tally (endState (t.run budget c s)).1 := by
  induction budget generalizing c s with
  | zero =>
      unfold Tournament.run
      split <;> exact h
  | succ budget ih =>
      unfold Tournament.run
      split
      · exact h
      · simp only
        split
        · exact h
        · next hsettle => exact ih (h.settle hsettle) _

/-- No program has more wins than the cap. -/
theorem le_cap (h : t.Tally c) {w : UInt8} (hw : w ∈ c.wins) : w ≤ t.cap := by
  obtain ⟨program, hprogram, rfl⟩ := Array.mem_iff_getElem.mp hw
  have hle := (h.wins_le program).trans (t.quota_le program)
  rw [← Array.getElem_eq_getD (h := hprogram)] at hle
  exact UInt8.le_iff_toNat_le.mpr hle

/-- Only a finite loss wins. -/
theorem isFinite_of_wins (h : t.Tally c) {p : Nat} (hp : c.wins.getD p 0 ≠ 0) :
    (t.loss p).isFinite = true := by
  by_contra hloss
  have hle := h.wins_le p
  rw [quota, if_neg hloss] at hle
  exact hp (UInt8.toNat_inj.mp (Nat.le_zero.mp hle))

/-- Before the first win no program has any. -/
theorem wins_eq_zero (h : t.Tally c) (hnone : c.selected = 0) (program : Nat) :
    c.wins.getD program 0 = 0 := by
  by_cases hin : program < t.population
  · rw [h.selected_eq, Finset.sum_eq_zero_iff] at hnone
    exact UInt8.toNat_inj.mp (hnone program (Finset.mem_range.mpr hin))
  · rw [Array.getD_eq_getD_getElem?, Array.getElem?_eq_none (by rw [h.size_eq]; omega)]
    rfl

/-- Before the first win all wins are zero. -/
theorem wins_eq_replicate (h : t.Tally c) (hnone : c.selected = 0) :
    c.wins = Array.replicate t.population 0 := by
  apply Array.ext (h.size_eq.trans Array.size_replicate.symm)
  intro program hprogram _
  have hzero := h.wins_eq_zero hnone program
  rw [← Array.getElem_eq_getD (h := hprogram)] at hzero
  rw [hzero, Array.getElem_replicate]

end Tally

/-! ## Selections -/

variable {σ : Type} [DrawSource σ]

/-- The ways in which a selection can fail: it has collapsed, as its tournaments brought no win, or its
budget is used up. -/
def GivesUp (failure : Failure) : Prop :=
  failure = .unfinished ∨ ∃ held, failure = .error (.populationCollapsed held)

/-- A run of tournaments can only fail by giving up. -/
theorem givesUp_of_run {budget : Nat} {c : Contest} {s : σ} {failure : Failure}
    (h : outcome (t.run budget c s) = .error failure) : GivesUp failure := by
  induction budget generalizing c s with
  | zero =>
      unfold run at h
      split at h
      · cases h
      · injection h with h
        exact .inl h.symm
  | succ budget ih =>
      unfold run at h
      split at h
      · cases h
      · simp only at h
        split at h
        · next hsettle =>
          injection h with h
          exact .inr ⟨_, (settle_eq_error (h ▸ hsettle)).2.2.2⟩
        · exact ih h

/-- One tournament hands out one win at most. -/
theorem selected_settle_le {c c' : Contest} {program : Nat} (h : t.settle c program = .ok c') :
    c'.selected ≤ c.selected + 1 := by
  obtain ⟨-, rfl⟩ | ⟨-, -, rfl⟩ := settle_eq_ok h
  · exact le_rfl
  · exact Nat.le_succ _

/-- A selection that ends well returns the number of wins that it has handed out.  They are no more
than there are programs. -/
theorem selected_of_run {budget : Nat} {c c' : Contest} {s s' : σ} {selected : Nat}
    (hc : c.selected ≤ t.population) (h : t.run budget c s = .ok selected (c', s')) :
    c'.selected = selected ∧ selected ≤ t.population := by
  induction budget generalizing c s with
  | zero =>
      unfold run at h
      split at h
      · injection h with hselected hend
        cases hend
        exact ⟨hselected, hselected ▸ hc⟩
      · cases h
  | succ budget ih =>
      unfold run at h
      split at h
      · injection h with hselected hend
        cases hend
        exact ⟨hselected, hselected ▸ hc⟩
      · next hon =>
        have hroom := selected_lt_of_not_isOver (Bool.eq_false_iff.mpr hon)
        simp only at h
        split at h
        · cases h
        · next hsettle => exact ih ((selected_settle_le hsettle).trans hroom) h

/-- The wins that a selection leaves are the whole of those that it returns the number of. -/
theorem tally_of_select {wins wins' : Array UInt8} {budget selected : Nat} {s s' : σ}
    (h : t.select budget (wins, s) = .ok selected (wins', s')) :
    ∃ c, t.Tally c ∧ c.wins = wins' ∧ c.selected = selected ∧ selected ≤ t.population := by
  unfold select at h
  simp only at h
  split at h
  · cases h
  · split at h
    · next hrun =>
      injection h with hselected hend
      subst hselected
      cases hend
      have htally := (Tally.opening t).run budget s
      rw [hrun] at htally
      exact ⟨_, htally, rfl, selected_of_run (Nat.zero_le _) hrun⟩
    · cases h

/-- Wins that fit the rules of a selection. -/
structure Fits (t : Tournament) (wins : Array UInt8) : Prop where
  size_eq : wins.size = t.population
  le_cap : ∀ w ∈ wins, w ≤ t.cap

/-- A selection leaves wins that fit its rules, also when it fails. -/
theorem Fits.select {wins : Array UInt8} (h : t.Fits wins) (budget : Nat) (s : σ) :
    t.Fits (endState (t.select budget (wins, s))).1 := by
  have hrun := (Tally.opening t).run budget s
  unfold Tournament.select
  simp only
  split
  · exact h
  · split
    · next hend =>
      rw [hend] at hrun
      exact ⟨hrun.size_eq, fun _ => hrun.le_cap⟩
    · next hend =>
      rw [hend] at hrun
      exact ⟨hrun.size_eq, fun _ => hrun.le_cap⟩

/-- A selection is the run of a contest, if its rules make sense. -/
theorem select_eq {wins : Array UInt8} (hwins : wins.size = t.population) (hsize : 0 < t.size)
    (hcap : 0 < t.cap) (budget : Nat) (s : σ) :
    outcome (t.select budget (wins, s)) = outcome (t.run budget t.opening s) ∧
      endState (t.select budget (wins, s)) =
        ((endState (t.run budget t.opening s)).1.wins, (endState (t.run budget t.opening s)).2) := by
  have hrules : ¬ (wins.size ≠ t.population ∨ t.size = 0 ∨ t.cap = 0) := by
    rintro (hne | hzero | hzero)
    · exact hne hwins
    · omega
    · rw [hzero] at hcap
      exact absurd hcap (by decide)
  unfold select
  simp only [if_neg hrules]
  cases t.run budget t.opening s <;> exact ⟨rfl, rfl⟩

/-- A selection with sensible rules fails only by giving up. -/
theorem givesUp_of_select {wins : Array UInt8} (hwins : wins.size = t.population)
    (hsize : 0 < t.size) (hcap : 0 < t.cap) {budget : Nat} {s : σ} {failure : Failure}
    (h : outcome (t.select budget (wins, s)) = .error failure) : GivesUp failure := by
  rw [(select_eq hwins hsize hcap budget s).1] at h
  exact givesUp_of_run h

end Tournament

end LinearGP
