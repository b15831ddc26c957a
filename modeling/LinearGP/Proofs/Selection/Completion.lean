import Mathlib
import LinearGP.Proofs.Selection.Accounting

/-!
# No selection gets stuck

Nothing bounds the number of tournaments that a selection holds, as luck may always pick programs that
cannot win.  But luck can always turn: as long as a contest is on and some loss is finite, a program can
take another win, and a tournament in which only that program is drawn hands it out.  Such tournaments
end the contest after as many of them as wins are left.  Without a finite loss, patience ends it.
`Finishable` says so of a contest that is on, and `finishable_of_run` of every one that a selection can
come to.
-/

set_option autoImplicit false

namespace LinearGP

/-! ## Scripts -/

/-- A source that replays indices which were written down before.  One that is out of bounds counts as
zero, and zeros follow the last. -/
structure Script where
  draws : List Nat

instance : DrawSource Script where
  index bound s :=
    match s.draws with
    | [] => (0, s)
    | i :: rest => (if i < bound then i else 0, ⟨rest⟩)
  opcode low _ s := (low, s)
  coin _ s := (false, s)
  index_lt := by
    rintro bound ⟨_ | ⟨i, rest⟩⟩ hbound
    · exact hbound
    · show (if i < bound then i else 0) < bound
      split <;> assumption
  opcode_mem := fun _ _ _ hlt => ⟨UInt16.le_refl _, hlt⟩

/-- Each of some programs fills a tournament of its own. -/
def Script.favouring (size : Nat) (programs : List Nat) : Script :=
  ⟨programs.flatMap (List.replicate size)⟩

/-- A script gives the indices that it was written with, in order. -/
theorem drawIndices_script {bound : Nat} {draws : List Nat} (hdraws : ∀ i ∈ draws, i < bound)
    (rest : List Nat) :
    drawIndices bound draws.length (⟨draws ++ rest⟩ : Script) = (draws, ⟨rest⟩) := by
  induction draws with
  | nil => rfl
  | cons i draws ih =>
      have hi : i < bound := hdraws i List.mem_cons_self
      rw [List.length_cons, drawIndices]
      show ((if i < bound then i else 0) ::
          (drawIndices bound draws.length (⟨draws ++ rest⟩ : Script)).1,
        (drawIndices bound draws.length (⟨draws ++ rest⟩ : Script)).2) = _
      rw [ih fun j hj => hdraws j (List.mem_cons_of_mem _ hj), if_pos hi]

/-- A tournament that follows a favouring script draws its program only. -/
theorem drawIndices_favouring {bound size program : Nat} (hprogram : program < bound)
    (programs : List Nat) :
    drawIndices bound size (Script.favouring size (program :: programs)) =
      (List.replicate size program, Script.favouring size programs) := by
  have hdraws : ∀ i ∈ List.replicate size program, i < bound := fun i hi =>
    List.eq_of_mem_replicate hi ▸ hprogram
  have hscript := drawIndices_script hdraws (programs.flatMap (List.replicate size))
  rwa [List.length_replicate] at hscript

namespace Tournament

variable {t : Tournament} {c c' : Contest} {program : Nat} {programs : List Nat}

/-! ## Wins that are left -/

/-- A contest that is on has a program that can take another win, unless nothing ever could. -/
theorem exists_admits (h : t.Tally c) (hon : t.isOver c = false) (hcap : 0 < t.cap)
    (hcontenders : 0 < t.contenders) : ∃ program, t.admits c program = true := by
  by_contra hnone
  have hfull : ∀ program, (c.wins.getD program 0).toNat = t.quota program := fun program =>
    Nat.le_antisymm (h.wins_le program)
      (quota_le_of_not_admits fun hadmits => hnone ⟨program, hadmits⟩)
  -- all quotas are used up, so the capacity is gone
  have hselected : c.selected = t.contenders * t.cap.toNat := by
    rw [h.selected_eq, ← sum_quota]
    exact Finset.sum_congr rfl fun program _ => hfull program
  have hpos : 0 < t.contenders * t.cap.toNat :=
    Nat.mul_pos hcontenders (UInt8.lt_iff_toNat_lt.mp hcap)
  have hcapacity := h.capacity_eq
  exact Bool.eq_false_iff.mp hon (isOver_iff.mpr (.inr (by omega)))

/-- A contest that something could win is over when all wins are out that can be. -/
theorem isOver_iff_selected_eq (h : t.Tally c) (hle : c.selected ≤ t.population)
    (hcap : 0 < t.cap) (hcontenders : 0 < t.contenders) :
    t.isOver c = true ↔ c.selected = min t.population (t.contenders * t.cap.toNat) := by
  have hpos : 0 < t.contenders * t.cap.toNat :=
    Nat.mul_pos hcontenders (UInt8.lt_iff_toNat_lt.mp hcap)
  have hcapacity := h.capacity_eq
  rw [isOver_iff]
  omega

/-! ## Favoured programs -/

/-- Tournaments that each draw a single program, one that can take another win, lead from one contest
to another. -/
inductive Favours (t : Tournament) : Contest → List Nat → Contest → Prop
  | nil (c : Contest) : Favours t c [] c
  | cons {c c' c'' : Contest} {program : Nat} {programs : List Nat} :
      t.isOver c = false → t.admits c program = true →
      t.settle c (t.winner (List.replicate t.size program)) = .ok c' →
      Favours t c' programs c'' → Favours t c (program :: programs) c''

namespace Favours

/-- Every favoured program wins. -/
theorem selected_eq (hsize : 0 < t.size) (h : t.Favours c programs c') :
    c'.selected = c.selected + programs.length := by
  induction h with
  | nil => rfl
  | cons _ hadmits hsettle _ ih =>
      rw [winner_replicate hsize, settle_of_admits hadmits, Except.ok.injEq] at hsettle
      subst hsettle
      rw [ih, List.length_cons]
      simp only
      omega

/-- Favoured programs keep the counts of a contest right. -/
theorem tally (h : t.Favours c programs c') (hc : t.Tally c) : t.Tally c' := by
  induction h with
  | nil => exact hc
  | cons _ _ hsettle _ ih => exact ih (hc.settle hsettle)

/-- Favoured programs win no more than there are programs. -/
theorem selected_le (h : t.Favours c programs c') (hc : c.selected ≤ t.population) :
    c'.selected ≤ t.population := by
  induction h with
  | nil => exact hc
  | cons hon _ hsettle _ ih =>
      have hroom := selected_lt_of_not_isOver hon
      exact ih ((selected_settle_le hsettle).trans hroom)

/-- A run in which these programs are drawn goes the same way. -/
theorem run_eq (h : t.Favours c programs c') :
    t.run programs.length c (Script.favouring t.size programs) =
      t.run 0 c' (Script.favouring t.size []) := by
  induction h with
  | nil => rfl
  | cons hon hadmits hsettle _ ih =>
      have hprogram := (Tally.admitted hadmits).1
      refine Eq.trans ?_ ih
      rw [List.length_cons, run, hon, drawIndices_favouring hprogram]
      simp only [Bool.false_eq_true, if_false, hsettle]

end Favours

/-- Whatever was drawn so far, the programs that can still win can be favoured until the contest is
over. -/
theorem exists_favours (hsize : 0 < t.size) (hcap : 0 < t.cap) (hcontenders : 0 < t.contenders)
    (h : t.Tally c) (hle : c.selected ≤ t.population) :
    ∃ programs c', t.Favours c programs c' ∧ t.isOver c' = true := by
  -- every favoured program takes one of the wins that are left
  induction hleft : t.population - c.selected generalizing c with
  | zero => exact ⟨[], c, .nil c, isOver_iff.mpr (.inl (by omega))⟩
  | succ left ih =>
      cases hover : t.isOver c with
      | true => exact ⟨[], c, .nil c, hover⟩
      | false =>
          obtain ⟨program, hadmits⟩ := exists_admits h hover hcap hcontenders
          have hsettle := settle_of_admits hadmits
          have hnext := h.settle hsettle
          obtain ⟨programs, c', hfavours, hend⟩ := ih hnext
            (by show c.selected + 1 ≤ _; omega) (by show _ - (c.selected + 1) = _; omega)
          refine ⟨program :: programs, c', .cons hover hadmits ?_ hfavours, hend⟩
          rw [winner_replicate hsize]
          exact hsettle

/-! ## Contests that are on -/

/-- What can still happen in a contest that is on after some tournaments. -/
structure Finishable (t : Tournament) (held : Nat) (c : Contest) : Prop where
  /-- While there is a finite loss, some program with one has not used up its wins. -/
  room : (∃ loss ∈ t.losses, loss.isFinite = true) →
    ∃ program < t.population, (t.loss program).isFinite = true ∧ c.wins.getD program 0 < t.cap
  /-- Such a program wins when nothing else is drawn. -/
  win : ∀ program, (t.loss program).isFinite = true → c.wins.getD program 0 < t.cap →
    t.settle c (t.winner (List.replicate t.size program)) =
      .ok { wins := c.wins.modify program (· + 1), capacity := c.capacity - 1
            selected := c.selected + 1, held := c.held + 1 }
  /-- However such programs are picked, the contest is over when all wins are out that can be, and not
  before. -/
  favoured : (∃ loss ∈ t.losses, loss.isFinite = true) → ∀ programs c', t.Favours c programs c' →
    c.selected + programs.length ≤ min t.population (t.contenders * t.cap.toNat) ∧
      (t.isOver c' = true ↔
        c.selected + programs.length = min t.population (t.contenders * t.cap.toNat))
  /-- So there are draws that end the contest well. -/
  finish : (∃ loss ∈ t.losses, loss.isFinite = true) → ∃ programs,
    c.selected + programs.length = min t.population (t.contenders * t.cap.toNat) ∧
      outcome (t.run programs.length c (Script.favouring t.size programs)) =
        .ok (min t.population (t.contenders * t.cap.toNat))
  /-- Without a finite loss, the contest collapses after as many tournaments as there are programs and
  one more, whatever is drawn in them. -/
  collapse : (∀ loss ∈ t.losses, loss.isFinite = false) → held ≤ t.population ∧
    ∀ {τ : Type} [DrawSource τ] (more : Nat) (u : τ), outcome (t.run more c u) =
      if held + more ≤ t.population then .error .unfinished
      else .error (.error (.populationCollapsed (t.population + 1)))

variable {σ : Type} [DrawSource σ]

/-- A contest whose budget is used up is not over. -/
theorem not_isOver_of_unfinished {budget : Nat} {s s' : σ}
    (h : t.run budget c s = .error .unfinished (c', s')) : t.isOver c' = false := by
  induction budget generalizing c s with
  | zero =>
      unfold run at h
      split at h
      · cases h
      · next hon =>
        cases h
        exact Bool.eq_false_iff.mpr hon
  | succ budget ih =>
      unfold run at h
      split at h
      · cases h
      · simp only at h
        split at h
        · next hsettle =>
          cases h
          obtain ⟨-, -, -, hfailure⟩ := settle_eq_error hsettle
          cases hfailure
        · exact ih h

/-- Whatever a selection has drawn, as long as its contest is on it can be finished. -/
theorem finishable_of_run (hsize : 0 < t.size) (hcap : 0 < t.cap) {held : Nat} {s s' : σ}
    (hrun : t.run held t.opening s = .error .unfinished (c, s')) : t.Finishable held c := by
  have hon := not_isOver_of_unfinished hrun
  have hroom := selected_lt_of_not_isOver hon
  obtain ⟨past, hlength, hprogress⟩ : ∃ past, past.length = held ∧ t.Progress past c := by
    obtain ⟨count, -, -, hspent, hending⟩ := (Progress.opening t).run held s
    rw [hrun] at hspent hending
    obtain rfl := hspent rfl
    cases hending with
    | unfinished hprogress => exact ⟨_, length_rounds count s, hprogress⟩
  have htally := hprogress.tally
  refine { room := ?_, win := ?_, favoured := ?_, finish := ?_, collapse := ?_ }
  · intro hfinite
    obtain ⟨program, hadmits⟩ := exists_admits htally hon hcap (contenders_pos_iff.mpr hfinite)
    exact ⟨program, (Tally.admitted hadmits).1, admits_iff.mp hadmits⟩
  · intro program hfinite hwins
    rw [winner_replicate hsize]
    exact settle_of_admits (admits_iff.mpr ⟨hfinite, hwins⟩)
  · intro hfinite programs c' hfavours
    have htally' := hfavours.tally htally
    have hcapacity := htally'.capacity_eq
    have hle := hfavours.selected_le hroom.le
    rw [← hfavours.selected_eq hsize]
    exact ⟨by omega, isOver_iff_selected_eq htally' hle hcap (contenders_pos_iff.mpr hfinite)⟩
  · intro hfinite
    have hcontenders := contenders_pos_iff.mpr hfinite
    obtain ⟨programs, c', hfavours, hover⟩ :=
      exists_favours hsize hcap hcontenders htally hroom.le
    have hselected := (isOver_iff_selected_eq (hfavours.tally htally)
      (hfavours.selected_le hroom.le) hcap hcontenders).mp hover
    refine ⟨programs, ?_, ?_⟩
    · rw [← hfavours.selected_eq hsize, hselected]
    · rw [hfavours.run_eq, run, if_pos hover, ← hselected]
      rfl
  · intro hinfinite
    have hbarren := contenders_eq_zero_iff.mpr hinfinite
    rw [← hlength]
    exact ⟨hprogress.length_le_of_barren hbarren, fun more u =>
      hprogress.run_of_barren hbarren (Nat.zero_lt_of_lt hroom) more u⟩

/-- The first of three programs has an infinite loss, and is alone in the first tournament, which brings
no win.  After the second one a win is out, and the other two can still follow. -/
theorem finishable_of_run_three :
    let t : Tournament := { losses := #[.infinity, .one, .zero], cap := 2, size := 2 }
    let c : Contest := { wins := #[0, 0, 1], capacity := 3, selected := 1, held := 2 }
    t.run 2 t.opening (⟨[0, 0, 2, 1]⟩ : Script) = .error .unfinished (c, ⟨[]⟩) ∧
      (∃ loss ∈ t.losses, loss.isFinite = true) ∧ t.Finishable 2 c := by
  intro t c
  have hrun : t.run 2 t.opening (⟨[0, 0, 2, 1]⟩ : Script) = .error .unfinished (c, ⟨[]⟩) := by cbv
  exact ⟨hrun, ⟨.one, by simp [t], by decide⟩, finishable_of_run (by decide) (by decide) hrun⟩

end Tournament

end LinearGP
