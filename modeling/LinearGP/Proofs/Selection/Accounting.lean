import Mathlib
import LinearGP.Proofs.Ieee.Order
import LinearGP.Proofs.Selection.Tournament
import LinearGP.Random.Pcg

/-!
# Accounts of selections

A tournament is won by the first program with the lowest loss among those drawn, and the wins of a
program are the tournaments that it has won, up to its quota.  `Progress` says so of a contest and of
all the tournaments held in it.  Every tournament keeps it, so it holds of a selection at any point, and
of every way in which one can end: `Account`.
-/

set_option autoImplicit false

namespace LinearGP

namespace Tournament

variable {t : Tournament}

/-! ## Winners -/

/-- A program is the first one with the lowest loss among those drawn: everyone drawn before it has a
higher loss, and no one drawn after it has a lower one. -/
def FirstBest (t : Tournament) (drawn : List Nat) (program : Nat) : Prop :=
  ∃ before after, drawn = before ++ program :: after ∧
    (∀ other ∈ before, (t.loss program).less (t.loss other) = true) ∧
    ∀ other ∈ after, (t.loss other).less (t.loss program) = false

/-- Every loss that a program can have is a number when all those listed are. -/
theorem isNaN_loss (hlosses : ∀ loss ∈ t.losses, loss.isNaN = false) (program : Nat) :
    (t.loss program).isNaN = false := by
  unfold loss
  rw [Array.getD_eq_getD_getElem?]
  by_cases hin : program < t.losses.size
  · rw [Array.getElem?_eq_getElem hin]
    exact hlosses _ (Array.getElem_mem hin)
  · rw [Array.getElem?_eq_none (Nat.le_of_not_lt hin)]
    exact Binary64.unsigned_infinity.isNaN_eq

/-- A challenger takes over from the holder only when its loss is lower than all before it. -/
theorem FirstBest.better (hlosses : ∀ loss ∈ t.losses, loss.isNaN = false) {drawn : List Nat}
    {holder : Nat} (h : t.FirstBest drawn holder) (challenger : Nat) :
    t.FirstBest (drawn ++ [challenger]) (t.better holder challenger) := by
  obtain ⟨before, after, rfl, hbefore, hafter⟩ := h
  unfold Tournament.better
  split
  · next hless =>
    refine ⟨before ++ holder :: after, [], rfl, ?_, by simp⟩
    -- the holder was at most as high as everyone before the challenger
    intro other hother
    refine Binary64.less_of_less_of_atMost hless ?_
    rcases List.mem_append.mp hother with hother | hother
    · exact Binary64.atMost_of_less (hbefore other hother)
    · rcases List.mem_cons.mp hother with rfl | hother
      · exact Binary64.atMost_refl (isNaN_loss hlosses _)
      · exact Binary64.atMost_of_not_less (isNaN_loss hlosses _) (isNaN_loss hlosses _)
          (hafter other hother)
  · next hless =>
    refine ⟨before, after ++ [challenger], by simp, hbefore, ?_⟩
    intro other hother
    rcases List.mem_append.mp hother with hother | hother
    · exact hafter other hother
    · obtain rfl := List.mem_singleton.mp hother
      exact Bool.not_eq_true _ ▸ hless

/-- A tournament is won by the first program with the lowest loss among those drawn. -/
theorem firstBest_winner (hlosses : ∀ loss ∈ t.losses, loss.isNaN = false) {drawn : List Nat}
    (h : drawn ≠ []) : t.FirstBest drawn (t.winner drawn) := by
  have hfold : ∀ (seen challengers : List Nat) (holder : Nat), t.FirstBest seen holder →
      t.FirstBest (seen ++ challengers) (challengers.foldl t.better holder) := by
    intro seen challengers
    induction challengers generalizing seen with
    | nil =>
        intro holder hholder
        rwa [List.append_nil]
    | cons challenger rest ih =>
        intro holder hholder
        have hnext := ih (seen ++ [challenger]) _ (hholder.better hlosses challenger)
        rwa [List.append_assoc] at hnext
  cases drawn with
  | nil => exact absurd rfl h
  | cons first challengers =>
      exact hfold [first] challengers first ⟨[], [], rfl, by simp, by simp⟩

/-! ## Wins -/

/-- Every program has won as many times as it was the best in a tournament, up to its quota. -/
def Wins (t : Tournament) (past : List (List Nat)) (wins : Array UInt8) : Prop :=
  ∀ program, (wins.getD program 0).toNat =
    min (past.countP fun drawn => t.winner drawn = program) (t.quota program)

section Wins

variable {c c' : Contest} {past : List (List Nat)} {drawn : List Nat}

/-- One more tournament counts for its winner. -/
theorem countP_append_singleton (program : Nat) :
    ((past ++ [drawn]).countP fun drawn => t.winner drawn = program) =
      (past.countP fun drawn => t.winner drawn = program) +
        if program = t.winner drawn then 1 else 0 := by
  rw [List.countP_append, List.countP_singleton]
  simp only [decide_eq_true_eq, @eq_comm _ program]

/-- A program that cannot take another win has used its quota. -/
theorem quota_le_of_not_admits {program : Nat} (h : ¬ t.admits c program = true) :
    t.quota program ≤ (c.wins.getD program 0).toNat := by
  unfold quota
  split
  · next hfinite =>
    unfold admits at h
    rw [hfinite, Bool.true_and, decide_eq_true_eq, UInt8.not_lt] at h
    exact UInt8.le_iff_toNat_le.mp h
  · exact Nat.zero_le _

/-- A win that is admitted keeps the wins in step with the tournaments held. -/
theorem Wins.admit (h : t.Wins past c.wins) (htally : t.Tally c)
    (hadmits : t.admits c (t.winner drawn) = true) :
    t.Wins (past ++ [drawn]) (c.wins.modify (t.winner drawn) (· + 1)) := by
  intro program
  rw [htally.toNat_modify hadmits, countP_append_singleton, h program]
  split
  · next hwinner =>
    have hroom := (Tally.admitted hadmits).2
    rw [← hwinner, h program] at hroom
    omega
  · rw [Nat.add_zero, Nat.add_zero]

/-- So does a tournament whose winner has used its quota, as no win is handed out. -/
theorem Wins.decline (h : t.Wins past c.wins) (hadmits : ¬ t.admits c (t.winner drawn) = true) :
    t.Wins (past ++ [drawn]) c.wins := by
  intro program
  rw [countP_append_singleton]
  split
  · next hwinner =>
    have hused := quota_le_of_not_admits hadmits
    rw [← hwinner, h program] at hused
    rw [h program]
    omega
  · exact h program

end Wins

/-! ## Contests -/

/-- A contest that is on after some tournaments. -/
structure Progress (t : Tournament) (past : List (List Nat)) (c : Contest) : Prop where
  tally : t.Tally c
  wins : t.Wins past c.wins
  held_eq : c.held = past.length
  /-- There are no more tournaments without any win than there are programs. -/
  patience : c.selected = 0 → c.held ≤ t.population

/-- How a contest stands after some tournaments when nothing more is done in it. -/
inductive Ending (t : Tournament) (past : List (List Nat)) (c : Contest) : Except Failure Nat → Prop
  | finished (progress : t.Progress past c) (isOver_eq : t.isOver c = true) :
      Ending t past c (.ok c.selected)
  | unfinished (progress : t.Progress past c) : Ending t past c (.error .unfinished)
  | collapsed (tally : t.Tally c) (wins : t.Wins past c.wins) (selected_eq : c.selected = 0)
      (length_eq : past.length = t.population + 1) :
      Ending t past c (.error (.error (.populationCollapsed (t.population + 1))))

/-- In every ending the wins are those of the tournaments held. -/
theorem Ending.wins {past : List (List Nat)} {c : Contest} {result : Except Failure Nat}
    (h : t.Ending past c result) : t.Wins past c.wins := by
  cases h with
  | finished hprogress => exact hprogress.wins
  | unfinished hprogress => exact hprogress.wins
  | collapsed _ hwins => exact hwins

namespace Progress

variable {c c' : Contest} {past : List (List Nat)} {drawn : List Nat}

/-- At the opening no tournament has been held. -/
theorem opening (t : Tournament) : t.Progress [] t.opening where
  tally := Tally.opening t
  wins := by
    intro program
    rw [List.countP_nil, Nat.zero_min, Tournament.opening, Array.getD_eq_getD_getElem?,
      Array.getElem?_replicate]
    split <;> rfl
  held_eq := rfl
  patience := fun _ => Nat.zero_le _

/-- A tournament that does not end a contest. -/
theorem settle (h : t.Progress past c) (hsettle : t.settle c (t.winner drawn) = .ok c') :
    t.Progress (past ++ [drawn]) c' := by
  have htally := h.tally.settle hsettle
  have hheld : c.held + 1 = (past ++ [drawn]).length := by
    rw [h.held_eq, List.length_append, List.length_singleton]
  obtain ⟨hadmits, rfl⟩ | ⟨hadmits, hpatience, rfl⟩ := settle_eq_ok hsettle
  · exact ⟨htally, h.wins.admit h.tally hadmits, hheld, fun hnone => absurd hnone (Nat.succ_ne_zero _)⟩
  · exact ⟨htally, h.wins.decline hadmits, hheld, hpatience⟩

/-- A tournament that ends a contest. -/
theorem collapse (h : t.Progress past c) {failure : Failure}
    (hsettle : t.settle c (t.winner drawn) = .error failure) :
    failure = .error (.populationCollapsed (t.population + 1)) ∧
      t.Ending (past ++ [drawn]) c (.error failure) := by
  obtain ⟨hadmits, hnone, hmany, rfl⟩ := settle_eq_error hsettle
  have hheld : c.held = t.population := Nat.le_antisymm (h.patience hnone) hmany
  rw [hheld]
  refine ⟨rfl, .collapsed h.tally (h.wins.decline hadmits) hnone ?_⟩
  rw [List.length_append, List.length_singleton, ← h.held_eq, hheld]

end Progress

/-! ## Runs -/

variable {σ : Type} [DrawSource σ]

/-- The programs drawn in a number of tournaments, one after the other. -/
def rounds (t : Tournament) : Nat → σ → List (List Nat) × σ
  | 0, s => ([], s)
  | count + 1, s =>
    let (drawn, s) := drawIndices t.population t.size s
    let (rest, s) := t.rounds count s
    (drawn :: rest, s)

/-- As many tournaments are drawn as were asked for. -/
theorem length_rounds (count : Nat) (s : σ) : (t.rounds count s).1.length = count := by
  induction count generalizing s with
  | zero => rfl
  | succ count ih => simp [rounds, ih]

/-- Every tournament draws someone. -/
theorem ne_nil_of_mem_rounds (hsize : 0 < t.size) {count : Nat} {s : σ} {drawn : List Nat}
    (h : drawn ∈ (t.rounds count s).1) : drawn ≠ [] := by
  induction count generalizing s with
  | zero => cases h
  | succ count ih =>
      simp only [rounds, List.mem_cons] at h
      rcases h with rfl | h
      · rw [← List.length_pos_iff_ne_nil, length_drawIndices]
        exact hsize
      · exact ih h

/-- A run holds some tournaments, all that its budget allows if it is not finished. -/
theorem Progress.run {past : List (List Nat)} {c : Contest} (h : t.Progress past c) (budget : Nat)
    (s : σ) : ∃ held ≤ budget,
      (endState (t.run budget c s)).2 = (t.rounds held s).2 ∧
      (outcome (t.run budget c s) = .error .unfinished → held = budget) ∧
      t.Ending (past ++ (t.rounds held s).1) (endState (t.run budget c s)).1
        (outcome (t.run budget c s)) := by
  induction budget generalizing past c s with
  | zero =>
      refine ⟨0, le_rfl, ?_⟩
      unfold Tournament.run rounds
      rw [List.append_nil]
      split
      · next hover => exact ⟨rfl, fun _ => rfl, .finished h hover⟩
      · exact ⟨rfl, fun _ => rfl, .unfinished h⟩
  | succ budget ih =>
      unfold Tournament.run
      split
      · next hover =>
        refine ⟨0, Nat.zero_le _, rfl, by simp [outcome], ?_⟩
        rw [rounds, List.append_nil]
        exact .finished h hover
      · simp only
        split
        · next failure hsettle =>
          -- the tournament in which a contest collapses is held, but its contest does not count it
          obtain ⟨rfl, hending⟩ := h.collapse hsettle
          exact ⟨1, by omega, rfl, by simp [outcome], hending⟩
        · next next hsettle =>
          obtain ⟨held, hle, hsource, hspent, hending⟩ :=
            ih (h.settle hsettle) (drawIndices t.population t.size s).2
          rw [List.append_assoc] at hending
          exact ⟨held + 1, by omega, hsource, fun hfailed => congrArg (· + 1) (hspent hfailed), hending⟩

/-! ## Selections -/

/-- A selection that ends well has handed out all the wins that it could. -/
theorem selected_eq_min {budget selected : Nat} {s : σ}
    (h : outcome (t.run budget t.opening s) = .ok selected) :
    selected = min t.population (t.contenders * t.cap.toNat) ∧
      selected = ∑ program ∈ Finset.range t.population,
        ((endState (t.run budget t.opening s)).1.wins.getD program 0).toNat := by
  obtain ⟨held, -, -, -, hending⟩ := (Progress.opening t).run budget s
  have hle : selected ≤ t.population := by
    cases hrun : t.run budget t.opening s with
    | ok returned state =>
        rw [hrun] at h
        injection h with h
        exact h ▸ (selected_of_run (Nat.zero_le _) hrun).2
    | error failure state =>
        rw [hrun] at h
        cases h
  rw [h] at hending
  cases hending with
  | finished hprogress hover =>
      have hcapacity := hprogress.tally.capacity_eq
      refine ⟨?_, hprogress.tally.selected_eq⟩
      rw [isOver_iff] at hover
      omega

/-- A selection fails only when its budget is used up or when more tournaments than there are programs
brought no win. -/
theorem held_of_failed {held budget : Nat} {c : Contest} {s : σ} {failure : Failure}
    (hending : t.Ending (t.rounds held s).1 c (.error failure))
    (hspent : failure = .unfinished → held = budget) :
    failure = .unfinished ∧ held = budget ∨
      failure = .error (.populationCollapsed (t.population + 1)) ∧ held = t.population + 1 ∧
        c.selected = 0 := by
  cases hending with
  | unfinished => exact .inl ⟨rfl, hspent rfl⟩
  | collapsed _ _ hnone hlength =>
      rw [length_rounds] at hlength
      exact .inr ⟨rfl, hlength, hnone⟩

/-- Without a contender no win is ever handed out. -/
theorem Tally.selected_of_barren {c : Contest} (h : t.Tally c) (hnone : t.contenders = 0) :
    c.selected = 0 := by
  have hcapacity := h.capacity_eq
  rw [hnone, Nat.zero_mul] at hcapacity
  omega

namespace Progress

variable {past : List (List Nat)} {c : Contest}

/-- Where nothing can win, there are no more tournaments than programs. -/
theorem length_le_of_barren (h : t.Progress past c) (hnone : t.contenders = 0) :
    past.length ≤ t.population :=
  h.held_eq ▸ h.patience (h.tally.selected_of_barren hnone)

/-- Programs without any contender among them collapse, after as many tournaments as there are programs
and one more. -/
theorem run_of_barren (h : t.Progress past c) (hnone : t.contenders = 0)
    (hpopulation : 0 < t.population) (more : Nat) (s : σ) :
    outcome (t.run more c s) =
      if past.length + more ≤ t.population then .error .unfinished
      else .error (.error (.populationCollapsed (t.population + 1))) := by
  obtain ⟨held, hle, -, hspent, hending⟩ := h.run more s
  generalize outcome (t.run more c s) = result at hspent hending ⊢
  cases hending with
  | finished hprogress hover =>
      rw [isOver_iff, hprogress.tally.selected_of_barren hnone] at hover
      omega
  | unfinished hprogress =>
      have hlength := hprogress.length_le_of_barren hnone
      rw [List.length_append, length_rounds, hspent rfl] at hlength
      rw [if_pos hlength]
  | collapsed _ _ _ hlength =>
      rw [List.length_append, length_rounds] at hlength
      rw [if_neg (by omega)]

end Progress

/-- Programs without any contender among them collapse. -/
theorem collapsed_of_barren {budget : Nat} {s : σ} (hnone : t.contenders = 0)
    (hpopulation : 0 < t.population) (hbudget : t.population < budget) :
    outcome (t.run budget t.opening s) =
      .error (.error (.populationCollapsed (t.population + 1))) := by
  rw [(Progress.opening t).run_of_barren hnone hpopulation, List.length_nil, Nat.zero_add,
    if_neg (Nat.not_le.mpr hbudget)]

/-- A selection that fails within its budget has collapsed: it has drawn one tournament more than there
are programs, and all wins are gone. -/
theorem collapse_of_select {wins : Array UInt8} (hwins : wins.size = t.population) (hsize : 0 < t.size)
    (hcap : 0 < t.cap) {budget : Nat} {s : σ} {failure : Failure}
    (hfailed : outcome (t.select budget (wins, s)) = .error failure) (hended : failure ≠ .unfinished) :
    failure = .error (.populationCollapsed (t.population + 1)) ∧
      endState (t.select budget (wins, s)) =
        (Array.replicate t.population 0, (t.rounds (t.population + 1) s).2) := by
  obtain ⟨held, -, hsource, hspent, hending⟩ := (Progress.opening t).run budget s
  obtain ⟨houtcome, hend⟩ := select_eq hwins hsize hcap budget s
  rw [houtcome] at hfailed
  rw [hfailed] at hspent hending
  obtain ⟨hfailure, rfl, hnone⟩ :=
    (held_of_failed hending fun h => hspent (h ▸ rfl)).resolve_left fun h => hended h.1
  refine ⟨hfailure, ?_⟩
  rw [hend, hsource, ((Tally.opening t).run budget s).wins_eq_replicate hnone]

/-- What a selection leaves after the tournaments held in it. -/
structure Account (t : Tournament) (budget held : Nat) (s : σ)
    (result : EStateM.Result Failure (Array UInt8 × σ) Nat) : Prop where
  held_le : held ≤ budget
  /-- The tournaments are all that was drawn. -/
  source_eq : (endState result).2 = (t.rounds held s).2
  firstBest : ∀ drawn ∈ (t.rounds held s).1, t.FirstBest drawn (t.winner drawn)
  wins : t.Wins (t.rounds held s).1 (endState result).1
  size_eq : (endState result).1.size = t.population
  le_cap : ∀ w ∈ (endState result).1, w ≤ t.cap
  isFinite : ∀ program, (endState result).1.getD program 0 ≠ 0 →
    (t.loss program).isFinite = true
  complete : ∀ selected, outcome result = .ok selected →
    selected = min t.population (t.contenders * t.cap.toNat) ∧
      selected = ∑ program ∈ Finset.range t.population,
        ((endState result).1.getD program 0).toNat
  failed : ∀ failure, outcome result = .error failure →
    failure = .unfinished ∧ held = budget ∨
      failure = .error (.populationCollapsed (t.population + 1)) ∧ held = t.population + 1 ∧
        ∀ program, (endState result).1.getD program 0 = 0
  barren : t.contenders = 0 → 0 < t.population → t.population < budget →
    outcome result = .error (.error (.populationCollapsed (t.population + 1)))

/-- A selection among losses that are numbers keeps exact books: wins go to the first best programs of
tournaments, up to a cap and only for finite losses, until all that can be handed out are.  It fails by
itself only in a collapse, and always does so when no loss is finite.  Whenever a win is handed out,
there is capacity for it and room for it in the count of the winner. -/
theorem account_of_select (hlosses : ∀ loss ∈ t.losses, loss.isNaN = false) {wins : Array UInt8}
    (hwins : wins.size = t.population) (hsize : 0 < t.size) (hcap : 0 < t.cap) (budget : Nat) (s : σ) :
    (∃ held, t.Account budget held s (t.select budget (wins, s))) ∧
      ∀ tournaments program, t.admits (endState (t.run tournaments t.opening s)).1 program = true →
        0 < (endState (t.run tournaments t.opening s)).1.capacity ∧
        ((endState (t.run tournaments t.opening s)).1.wins.getD program 0).toNat < 255 := by
  refine ⟨?_, ?_⟩
  · -- a selection is a run from the opening, and all is read off how that ended
    obtain ⟨held, hheld, hsource, hspent, hending⟩ := (Progress.opening t).run budget s
    rw [List.nil_append] at hending
    obtain ⟨houtcome, hend⟩ := select_eq hwins hsize hcap budget s
    have htally := (Tally.opening t).run budget s
    refine ⟨held, ?_⟩
    exact {
      held_le := hheld
      source_eq := by
        rw [hend]
        exact hsource
      firstBest := fun drawn hdrawn =>
        firstBest_winner hlosses (ne_nil_of_mem_rounds hsize hdrawn)
      wins := by
        rw [hend]
        exact hending.wins
      size_eq := by
        rw [hend]
        exact htally.size_eq
      le_cap := by
        rw [hend]
        exact fun _ => htally.le_cap
      isFinite := by
        intro program hwon
        rw [hend] at hwon
        exact htally.isFinite_of_wins hwon
      complete := by
        intro selected hselected
        rw [hend]
        exact selected_eq_min (houtcome ▸ hselected)
      failed := by
        intro failure hfailure
        rw [houtcome] at hfailure
        rw [hfailure] at hending
        rw [hend]
        refine (held_of_failed hending fun h => hspent (h ▸ hfailure)).imp_right ?_
        rintro ⟨hcollapsed, hmany, hnone⟩
        exact ⟨hcollapsed, hmany, htally.wins_eq_zero hnone⟩
      barren := by
        rw [houtcome]
        exact collapsed_of_barren }
  · intro tournaments program hadmits
    have htally := (Tally.opening t).run tournaments s
    refine ⟨htally.capacity_pos hadmits, ?_⟩
    have hroom := (Tally.admitted hadmits).2.trans_le (t.quota_le program)
    have hcapacity := t.cap.toNat_lt
    omega

/-- Two of four programs have finite losses and may win once each: both do, and the selection ends
before as many wins are out as there are programs. -/
theorem account_of_two_contenders :
    let t : Tournament :=
      { losses := #[.infinity, .one, .zero, .infinity], cap := 1, size := 2 }
    outcome (t.select 30 (#[7, 7, 7, 7], Pcg64.ofSeed 7)) = .ok 2 ∧
      ∃ held, t.Account 30 held (Pcg64.ofSeed 7) (t.select 30 (#[7, 7, 7, 7], Pcg64.ofSeed 7)) := by
  intro t
  have hrun : (match outcome (t.select 30 (#[7, 7, 7, 7], Pcg64.ofSeed 7)) with
      | .ok selected => selected == 2
      | .error _ => false) = true := by decide +kernel
  have hlosses : ∀ loss ∈ t.losses, loss.isNaN = false := by decide
  have hwins : (#[7, 7, 7, 7] : Array UInt8).size = t.population := by decide
  refine ⟨?_, (account_of_select hlosses hwins (by decide) (by decide) 30 (Pcg64.ofSeed 7)).1⟩
  split at hrun
  · next selected hselected => rw [hselected, eq_of_beq hrun]
  · cases hrun

end Tournament

end LinearGP
