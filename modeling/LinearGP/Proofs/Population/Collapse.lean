import Mathlib
import LinearGP.Proofs.Population.History
import LinearGP.Proofs.Population.Soundness
import LinearGP.Proofs.Selection.Accounting

/-!
# A collapsed generation leaves the programs alone

A generation whose selection collapses has been evaluated and has drawn, and that is all: the store and
the generation are as before, and no program has a win.  Whoever goes on from there may try again.  An
evaluation only depends on the programs, so it finds what it found before; as long as no loss is finite,
every further generation collapses in the same way and only the source of draws moves on.
-/

set_option autoImplicit false

namespace LinearGP

namespace Population

variable {k : ElementKind} {σ : Type} {host : Host} {options : Options} {samples : SampleSet k}
  {p : Population k σ}

/-! ## Evaluations that stand -/

/-- The last evaluation of a population still stands: another one would not change anything. -/
def Evaluated (p : Population k σ) : Prop := ∃ values, p.outputs = .ok values ∧ p.scored values = p

/-- A champion of an evaluation is not dethroned by another one. -/
theorem championOf_scored (p : Population k σ) (values : List (List k.Value)) :
    (p.scored values).championOf (p.lossesOf values) = p.championOf (p.lossesOf values) := by
  have hchampion : (p.scored values).champion = p.championOf (p.lossesOf values) := rfl
  unfold championOf at hchampion ⊢
  cases hleast : leastLoss? (p.lossesOf values) with
  | none =>
      rw [hleast] at hchampion
      exact hchampion
  | some least =>
      obtain ⟨program, loss⟩ := least
      rw [hleast] at hchampion
      simp only at hchampion ⊢
      by_cases hless : loss.less p.bestLoss = true
      · rw [if_pos hless] at hchampion ⊢
        have hbest : (p.scored values).bestLoss = loss := by
          unfold bestLoss
          rw [hchampion]
        rw [hbest, loss.less_irrefl, if_neg Bool.false_ne_true, hchampion]
      · rw [if_neg hless] at hchampion ⊢
        rw [bestLoss_eq hchampion, if_neg hless, hchampion]

/-- After scoring, a population is evaluated. -/
theorem evaluated_scored {values : List (List k.Value)} (hvalues : p.outputs = .ok values) :
    (p.scored values).Evaluated := by
  refine ⟨values, hvalues, ?_⟩
  show { p.scored values with
    champion := (p.scored values).championOf (p.lossesOf values) } = p.scored values
  rw [championOf_scored]
  rfl

/-- Wins and draws have no part in an evaluation. -/
theorem Evaluated.with_wins (h : p.Evaluated) (wins : Array UInt8) (source : σ) :
    ({ p with wins, source } : Population k σ).Evaluated := by
  obtain ⟨values, hvalues, hscored⟩ := h
  refine ⟨values, hvalues, ?_⟩
  show { p.scored values with wins, source } = _
  rw [hscored]

/-- To evaluate once more changes nothing. -/
theorem Evaluated.evaluate_eq (h : p.Evaluated) (hp : p.Valid host options samples) :
    evaluate p = .ok () p :=
  hp.evaluate_eq_ok_iff.mpr h

/-! ## Selections that collapse -/

/-- How a selection fails among the programs of a population. -/
def collapseFailure (p : Population k σ) : Failure :=
  .error (.populationCollapsed (p.options.populationSize + 1))

/-- The tournaments are held among all programs of the population. -/
theorem Bounded.population_eq (h : p.Bounded) : p.tournament.population = p.options.populationSize :=
  h.losses_size

variable [DrawSource σ]

/-- What a selection leaves that collapses. -/
def collapsed (p : Population k σ) : Population k σ :=
  { p with
    wins := Array.replicate p.options.populationSize 0
    source := (p.tournament.rounds (p.options.populationSize + 1) p.source).2 }

namespace Bounded

/-- A selection that fails in the end reports a collapse and leaves the collapsed population. -/
theorem select_of_failed (h : p.Bounded) {budget : Nat} {failure : Failure}
    (hfailed : outcome (select budget p) = .error failure) (hended : failure ≠ .unfinished) :
    failure = p.collapseFailure ∧ endState (select budget p) = p.collapsed := by
  rw [outcome_select] at hfailed
  obtain ⟨hfailure, hend⟩ := Tournament.collapse_of_select h.fits.size_eq
    h.consistent.tournamentSize_pos h.consistent.winCap_pos hfailed hended
  rw [h.population_eq] at hfailure hend
  refine ⟨hfailure, ?_⟩
  rw [endState_select, hend]
  rfl

/-- A selection without a finite loss collapses. -/
theorem select_of_barren (h : p.Bounded) (hinfinite : ∀ loss ∈ p.losses, loss.isFinite = false)
    {budget : Nat} (hbudget : p.options.populationSize < budget) :
    select budget p = .error p.collapseFailure p.collapsed := by
  have hnone : p.tournament.contenders = 0 :=
    Tournament.contenders_eq_zero_iff.mpr hinfinite
  have hfailed : outcome (select budget p) = .error p.collapseFailure := by
    rw [outcome_select, (Tournament.select_eq h.fits.size_eq h.consistent.tournamentSize_pos
      h.consistent.winCap_pos budget p.source).1, Tournament.collapsed_of_barren hnone
      (h.population_eq ▸ h.consistent.populationSize_pos) (h.population_eq ▸ hbudget),
      h.population_eq]
    rfl
  rw [eq_error_of_outcome hfailed, (h.select_of_failed hfailed (by simp [collapseFailure])).2]

end Bounded

/-! ## Generations that collapse -/

/-- A generation after an evaluation that stands and found no finite loss. -/
theorem Evaluated.next_of_barren (h : p.Evaluated) (hp : p.Valid host options samples)
    (hbounded : p.Bounded) (hinfinite : ∀ loss ∈ p.losses, loss.isFinite = false) {budget : Nat}
    (hbudget : p.options.populationSize < budget) :
    next budget p = .error p.collapseFailure p.collapsed := by
  unfold next
  rw [bind_of_eq_ok (h.evaluate_eq hp), bind_of_eq_error (hbounded.select_of_barren hinfinite hbudget)]

/-- Generations that follow a collapse without a finite loss collapse one after the other. -/
theorem Evaluated.run_next_of_barren (h : p.Evaluated) (hp : p.Valid host options samples)
    (hbounded : p.Bounded) (hinfinite : ∀ loss ∈ p.losses, loss.isFinite = false)
    (hwins : p.wins = Array.replicate p.options.populationSize 0) {budgets : List Nat}
    (hbudgets : ∀ budget ∈ budgets, p.options.populationSize < budget) :
    (run (budgets.map .next) p).1 = budgets.map (fun _ => .error p.collapseFailure) ∧
      ∃ source, (run (budgets.map .next) p).2 = { p with source } := by
  induction budgets generalizing p with
  | nil => exact ⟨rfl, p.source, rfl⟩
  | cons budget budgets ih =>
      have hnext := h.next_of_barren hp hbounded hinfinite (hbudgets budget List.mem_cons_self)
      have hperform : (Call.next budget).perform p = .error p.collapseFailure p.collapsed :=
        bind_of_eq_error hnext _
      -- the wins were gone before, so only the source has changed
      have hcollapsed : p.collapsed = { p with source := p.collapsed.source } := by
        unfold collapsed
        rw [← hwins]
      obtain ⟨houtcomes, source, hend⟩ := ih (p := p.collapsed) (h.with_wins _ _) { hp with }
        { hbounded with
          wins_size := Array.size_replicate
          wins_le := by
            rw [hcollapsed]
            exact hbounded.wins_le }
        hinfinite rfl fun other hother => hbudgets other (List.mem_cons_of_mem _ hother)
      rw [List.map_cons, List.map_cons, run, hperform]
      refine ⟨congrArg _ houtcomes, source, hend.trans ?_⟩
      rw [hcollapsed]

/-- What a generation leaves that failed. -/
structure Collapse (p : Population k σ) (failure : Failure) (q : Population k σ) : Prop where
  failure_eq : failure = .error (.populationCollapsed (p.options.populationSize + 1))
  store_eq : q.store = p.store
  generation_eq : q.generation = p.generation
  wins_eq : q.wins = Array.replicate p.options.populationSize 0
  /-- All but the wins and the source of draws is as an evaluation leaves it. -/
  evaluated : ∃ r, Population.evaluate p = .ok () r ∧ q.losses = r.losses ∧
    q.executed = r.executed ∧ q.champion = r.champion ∧ q = { r with wins := q.wins, source := q.source }
  /-- As many tournaments were drawn as are reported. -/
  source_eq : q.source = (q.tournament.rounds (p.options.populationSize + 1) p.source).2
  /-- Without a finite loss, the next generations fail in the same way, given the time, and change
  nothing but the source. -/
  barren : (∀ loss ∈ q.losses, loss.isFinite = false) → ∀ budgets : List Nat,
    (∀ budget ∈ budgets, p.options.populationSize < budget) →
      (run (budgets.map .next) q).1 = budgets.map (fun _ => .error failure) ∧
        ∃ source, (run (budgets.map .next) q).2 = { q with source }

/-- Whatever was called since a population was created, a generation that fails in which no program stops
the machine has collapsed, and leaves the programs alone. -/
theorem collapse_of_next {source : σ} (hcreate : create host options samples source = .ok p)
    (calls : List Call) (hdivide : (run calls p).2.DividesSafely) {budget : Nat} {failure : Failure}
    (hfailed : outcome (next budget (run calls p).2) = .error failure)
    (hended : failure ≠ .unfinished) :
    Collapse (run calls p).2 failure (endState (next budget (run calls p).2)) := by
  obtain ⟨h, hbounded⟩ :=
    stable_bounded.run ⟨valid_of_create hcreate, bounded_of_create hcreate⟩ calls
  generalize (run calls p).2 = p at *
  obtain ⟨r, hevaluate, hselect⟩ := h.next_of_failed hbounded hdivide hfailed
  obtain ⟨hr, hrbounded⟩ := stable_bounded.evaluate.of_eq_ok ⟨h, hbounded⟩ hevaluate
  obtain ⟨hfailure, hend⟩ := hrbounded.select_of_failed (congrArg outcome hselect) hended
  rw [hselect] at hend
  have hq : endState (next budget p) = r.collapsed := hend
  obtain ⟨values, hvalues, rfl⟩ := h.evaluate_eq_ok_iff.mp hevaluate
  rw [hq, hfailure]
  obtain ⟨hqvalid, hqbounded⟩ := stable_bounded.select budget _ ⟨hr, hrbounded⟩
  rw [hselect, hq] at hqvalid hqbounded
  exact {
    failure_eq := rfl
    store_eq := rfl
    generation_eq := rfl
    wins_eq := rfl
    evaluated := ⟨_, hevaluate, rfl, rfl, rfl, rfl⟩
    source_eq := rfl
    barren := by
      intro hinfinite budgets hbudgets
      exact ((evaluated_scored hvalues).with_wins _ _).run_next_of_barren hqvalid hqbounded
        hinfinite rfl hbudgets }

/-- No program can come near an output that is infinite.  The second generation of these two collapses as
the first one did. -/
theorem collapse_of_next_infinite : ∃ p : Population .f64 Pcg64,
    create .full { populationSize := 2, demeSize := 1, tournamentSize := 2, programSize := 2
                   instructions := some [.nop], moves := some [.movaps] }
      (⟨#[0x3ff0000000000000#64], #[0x7ff0000000000000#64], 1, 1, 1⟩ : SampleSet .f64)
      (.ofSeed 5) = .ok p ∧
    (run [.next 3, .mutate] p).2.DividesSafely ∧
    outcome (next 3 (run [.next 3, .mutate] p).2) = .error (.error (.populationCollapsed 3)) ∧
    (∀ loss ∈ (endState (next 3 (run [.next 3, .mutate] p).2)).losses, loss.isFinite = false) ∧
    Collapse (run [.next 3, .mutate] p).2 (.error (.populationCollapsed 3))
      (endState (next 3 (run [.next 3, .mutate] p).2)) := by
  have hrun : (match create .full { populationSize := 2, demeSize := 1, tournamentSize := 2
                                    programSize := 2, instructions := some [.nop]
                                    moves := some [.movaps] }
        (⟨#[0x3ff0000000000000#64], #[0x7ff0000000000000#64], 1, 1, 1⟩ : SampleSet .f64)
        (Pcg64.ofSeed 5) with
      | .ok p =>
        decide (outcome (next 3 (run [.next 3, .mutate] p).2) =
          .error (.error (.populationCollapsed 3))) &&
        decide (∀ loss ∈ (endState (next 3 (run [.next 3, .mutate] p).2)).losses,
          loss.isFinite = false)
      | .error _ => false) = true := by decide +kernel
  split at hrun
  · next p hcreate =>
    rw [Bool.and_eq_true, decide_eq_true_eq, decide_eq_true_eq] at hrun
    have hdivide := ((valid_of_create hcreate).run [.next 3, .mutate]).dividesSafely rfl
    exact ⟨p, hcreate, hdivide, hrun.1, hrun.2,
      collapse_of_next hcreate [.next 3, .mutate] hdivide hrun.1 (by simp)⟩
  · cases hrun

end Population

end LinearGP
