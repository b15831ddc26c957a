import LinearGP.Proofs.Ieee.Sum
import LinearGP.Proofs.Population.Calls

/-!
# What the champion remembers

`Population.evaluations` lists the populations right after each evaluation that is made in a sequence
of calls.  `Record` says how the champion compares with all that was evaluated so far: its loss is the
least of the whole history, and its program is a copy of the first one that had it.

An evaluation extends the history and everything else leaves champion and losses alone, so `Recorded`
reduces a fact about histories to what one evaluation adds.
-/

set_option autoImplicit false

namespace LinearGP

/-! ## The first place with the least loss -/

/-- A place with the least key, which no earlier place has. -/
structure FirstLeast (losses : List Binary64) (i : Nat) (loss : Binary64) : Prop where
  getElem?_eq : losses[i]? = some loss
  le : ∀ other ∈ losses, loss.totalKey ≤ other.totalKey
  lt : ∀ j < i, ∀ other, losses[j]? = some other → loss.totalKey < other.totalKey

namespace FirstLeast

variable {losses : List Binary64} {i : Nat} {loss next : Binary64}

/-- A lower loss at the end takes the place. -/
theorem take (h : FirstLeast losses i loss) (hlower : next.totalKey < loss.totalKey) :
    FirstLeast (losses ++ [next]) losses.length next where
  getElem?_eq := List.getElem?_concat_length
  le := by
    intro other hother
    rcases List.mem_append.mp hother with hother | hother
    · exact (hlower.trans_le (h.le other hother)).le
    · rw [List.mem_singleton.mp hother]
  lt := by
    intro j hj other hother
    rw [List.getElem?_append_left hj] at hother
    exact hlower.trans_le (h.le other (List.mem_of_getElem? hother))

/-- A loss at the end that is not lower leaves the place as it is. -/
theorem keep (h : FirstLeast losses i loss) (hhigher : ¬ next.totalKey < loss.totalKey) :
    FirstLeast (losses ++ [next]) i loss := by
  have hi : i < losses.length := (List.getElem?_eq_some_iff.mp h.getElem?_eq).1
  refine ⟨(List.getElem?_append_left hi).trans h.getElem?_eq, ?_, ?_⟩
  · intro other hother
    rcases List.mem_append.mp hother with hother | hother
    · exact h.le other hother
    · rw [List.mem_singleton.mp hother]
      exact Int.not_lt.mp hhigher
  · intro j hj other hother
    rw [List.getElem?_append_left (hj.trans hi)] at hother
    exact h.lt j hj other hother

end FirstLeast

/-- One more loss takes over when it is lower than the least one before. -/
theorem leastLoss?_append_singleton (losses : List Binary64) (next : Binary64) :
    leastLoss? (losses ++ [next]).toArray =
      match leastLoss? losses.toArray with
      | none => some (losses.length, next)
      | some (i, least) =>
        if next.totalKey < least.totalKey then some (losses.length, next) else some (i, least) := by
  unfold leastLoss?
  simp only [List.zipIdx_append, List.foldl_append, List.zipIdx_singleton, List.foldl_cons,
    List.foldl_nil, Nat.zero_add]
  generalize List.foldl _ none losses.zipIdx = best
  cases best <;> rfl

/-- There is a first place with the least loss unless there are no losses at all. -/
theorem firstLeast_of_leastLoss? (losses : List Binary64) :
    match leastLoss? losses.toArray with
    | none => losses = []
    | some (i, loss) => FirstLeast losses i loss := by
  induction losses using List.reverseRecOn with
  | nil => rfl
  | append_singleton losses next ih =>
      rw [leastLoss?_append_singleton]
      cases hleast : leastLoss? losses.toArray with
      | none =>
          rw [hleast] at ih
          obtain rfl : losses = [] := ih
          exact ⟨rfl, by simp, by simp⟩
      | some least =>
          obtain ⟨i, loss⟩ := least
          rw [hleast] at ih
          have hfirst : FirstLeast losses i loss := ih
          by_cases hlower : next.totalKey < loss.totalKey
          · simp only [if_pos hlower]
            exact hfirst.take hlower
          · simp only [if_neg hlower]
            exact hfirst.keep hlower

namespace Population

variable {k : ElementKind} {σ : Type}

/-! ## Histories -/

section Histories

variable [DrawSource σ]

/-- The population right after an evaluation, if that succeeds. -/
def evaluation (p : Population k σ) : List (Population k σ) :=
  match evaluate p with
  | .ok _ q => [q]
  | .error _ _ => []

/-- The populations right after the evaluations in generations that are run until they stop. -/
def evaluationsUntil (stop : Nat → Binary64 → Bool) (budget : Nat) :
    (generations : Nat) → Population k σ → List (Population k σ)
  | 0, _ => []
  | generations + 1, p =>
    if stop p.generation p.bestLoss then []
    else
      match next budget p with
      | .ok _ q => evaluation p ++ evaluationsUntil stop budget generations q
      | .error _ _ => evaluation p

/-- The populations right after the evaluations that a call makes. -/
def Call.evaluations : Call → Population k σ → List (Population k σ)
  | evaluate, p => evaluation p
  | next _, p => evaluation p
  | runUntil stop budget generations, p => evaluationsUntil stop budget generations p
  | select _, _ => []
  | reproduce, _ => []
  | mutate, _ => []

/-- The populations right after the evaluations that are made in a sequence of calls. -/
def evaluations : List Call → Population k σ → List (Population k σ)
  | [], _ => []
  | call :: calls, p => call.evaluations p ++ evaluations calls (endState (call.perform p))

/-- A fact about histories and the populations that they lead to, which evaluations carry on and
everything else keeps. -/
structure Recorded (good : List (Population k σ) → Population k σ → Prop) : Prop where
  evaluate : ∀ past p, good past p → good (past ++ evaluation p) (endState (evaluate p))
  select : ∀ past budget, Keeps (good past) (select budget)
  replace : ∀ past, Keeps (good past) replace
  mutate : ∀ past, Keeps (good past) mutate
  advance : ∀ past p, good past p → good past { p with generation := p.generation + 1 }

namespace Recorded

variable {good : List (Population k σ) → Population k σ → Prop} {past : List (Population k σ)}
  {p : Population k σ}

/-- Reproduction adds nothing to a history. -/
theorem reproduce (h : Recorded good) (past : List (Population k σ)) :
    Keeps (good past) reproduce := by
  unfold Population.reproduce
  exact (h.replace past).bind fun copies => (h.mutate past).bind fun _ => Keeps.pure copies

/-- A generation adds its evaluation to a history. -/
theorem next (h : Recorded good) (budget : Nat) (hp : good past p) :
    good (past ++ evaluation p) (endState (next budget p)) := by
  have hq := h.evaluate past p hp
  unfold Population.next
  rw [endState_bind]
  cases hevaluate : Population.evaluate p with
  | error failure q =>
      rw [hevaluate] at hq
      exact hq
  | ok _ q =>
      rw [hevaluate] at hq
      refine Keeps.bind (h.select _ budget) (fun _ => ?_) q hq
      exact Keeps.bind (h.reproduce _) fun _ => h.advance _

/-- A run of generations adds their evaluations to a history. -/
theorem runUntil (h : Recorded good) (stop : Nat → Binary64 → Bool) (budget generations : Nat)
    (hp : good past p) :
    good (past ++ evaluationsUntil stop budget generations p)
      (endState (runUntil stop budget generations p)) := by
  induction generations generalizing past p with
  | zero =>
      rw [evaluationsUntil, List.append_nil]
      show good past (endState ((if stop p.generation p.bestLoss then pure ()
        else throw .unfinished : EStateM Failure (Population k σ) Unit) p))
      split <;> exact hp
  | succ generations ih =>
      show good _ (endState ((if stop p.generation p.bestLoss then pure ()
        else Population.next budget >>= fun _ => Population.runUntil stop budget generations :
          EStateM Failure (Population k σ) Unit) p))
      unfold evaluationsUntil
      split
      · rw [List.append_nil]
        exact hp
      · have hq := h.next budget hp
        rw [endState_bind]
        cases hnext : Population.next budget p with
        | error failure q =>
            -- a generation that fails may have been evaluated before
            rw [hnext] at hq
            exact hq
        | ok _ q =>
            rw [hnext] at hq
            have hrest := ih hq
            rwa [List.append_assoc] at hrest

/-- A call adds its evaluations to a history. -/
theorem perform (h : Recorded good) (call : Call) (hp : good past p) :
    good (past ++ call.evaluations p) (endState (call.perform p)) := by
  cases call with
  | evaluate =>
      rw [Call.evaluations, Call.perform, endState_bind_pure]
      exact h.evaluate past p hp
  | next budget =>
      rw [Call.evaluations, Call.perform, endState_bind_pure]
      exact h.next budget hp
  | runUntil stop budget generations =>
      rw [Call.evaluations, Call.perform, endState_bind_pure]
      exact h.runUntil stop budget generations hp
  | select budget =>
      rw [Call.evaluations, List.append_nil]
      exact (h.select past budget).map some p hp
  | reproduce =>
      rw [Call.evaluations, List.append_nil]
      exact (h.reproduce past).map some p hp
  | mutate =>
      rw [Call.evaluations, List.append_nil]
      exact (h.mutate past).map some p hp

/-- What holds of a history goes on to hold, whatever calls are made. -/
theorem run (h : Recorded good) (calls : List Call) (hp : good past p) :
    good (past ++ evaluations calls p) (run calls p).2 := by
  induction calls generalizing past p with
  | nil =>
      rw [evaluations, List.append_nil]
      exact hp
  | cons call calls ih =>
      have hrest := ih (h.perform call hp)
      rwa [List.append_assoc] at hrest

end Recorded

end Histories

/-! ## Records -/

/-- A program was the first one with a loss in the store of the first evaluation in which some program
had that loss or a lower one. -/
def FirstWith (past : List (Population k σ)) (loss : Binary64) (program : Program) : Prop :=
  ∃ before q after i, past = before ++ q :: after ∧
    q.losses[i]? = some loss ∧ q.store.program i = .ok program ∧
    (∀ e ∈ before, ∀ other ∈ e.losses, loss.less other = true) ∧
    ∀ j < i, ∀ other, q.losses[j]? = some other → loss.less other = true

/-- How a population remembers the evaluations that led to it. -/
structure Record (past : List (Population k σ)) (p : Population k σ) : Prop where
  unsigned : ∀ q ∈ past, ∀ loss ∈ q.losses, loss.Unsigned
  unsigned_bestLoss : p.bestLoss.Unsigned
  /-- No program ever had a lower loss. -/
  least : ∀ q ∈ past, ∀ loss ∈ q.losses, p.bestLoss.atMost loss = true
  descending : past.Pairwise fun earlier later => later.bestLoss.atMost earlier.bestLoss = true
  atMost_past : ∀ q ∈ past, p.bestLoss.atMost q.bestLoss = true
  /-- The losses are those of the last evaluation. -/
  losses_eq : ∀ q ∈ past.getLast?, p.losses = q.losses
  isSome_best : p.best.isSome = p.bestLoss.isFinite
  first : ∀ program, p.best = some program → FirstWith past p.bestLoss program

/-- Later evaluations do not change which program was the first one with a loss. -/
theorem FirstWith.append {past : List (Population k σ)} {loss : Binary64} {program : Program}
    (h : FirstWith past loss program) (more : List (Population k σ)) :
    FirstWith (past ++ more) loss program := by
  obtain ⟨before, q, after, i, rfl, hread⟩ := h
  exact ⟨before, q, after ++ more, i, by simp, hread⟩

/-- Populations with the same champion have the same best loss. -/
theorem bestLoss_eq {p q : Population k σ} (h : q.champion = p.champion) :
    q.bestLoss = p.bestLoss := by
  unfold bestLoss
  rw [h]

/-- Populations with the same champion have the same best program. -/
theorem best_eq {p q : Population k σ} (h : q.champion = p.champion) : q.best = p.best := by
  unfold best
  rw [h]

namespace Record

variable {past : List (Population k σ)} {p q : Population k σ}

/-- Only the champion and the losses matter. -/
theorem of_eq (h : Record past p) (hchampion : q.champion = p.champion)
    (hlosses : q.losses = p.losses) : Record past q where
  unsigned := h.unsigned
  unsigned_bestLoss := bestLoss_eq hchampion ▸ h.unsigned_bestLoss
  least := bestLoss_eq hchampion ▸ h.least
  descending := h.descending
  atMost_past := bestLoss_eq hchampion ▸ h.atMost_past
  losses_eq := hlosses ▸ h.losses_eq
  isSome_best := bestLoss_eq hchampion ▸ best_eq hchampion ▸ h.isSome_best
  first := bestLoss_eq hchampion ▸ best_eq hchampion ▸ h.first

/-- An evaluation whose champion is the best of the old one and of all programs extends a record. -/
theorem extend (h : Record past p) (hunsigned : ∀ loss ∈ q.losses, loss.Unsigned)
    (hbestLoss : q.bestLoss.Unsigned) (hle : q.bestLoss.atMost p.bestLoss = true)
    (hleast : ∀ loss ∈ q.losses, q.bestLoss.atMost loss = true)
    (hisSome : q.best.isSome = q.bestLoss.isFinite)
    (hfirst : ∀ program, q.best = some program → FirstWith (past ++ [q]) q.bestLoss program) :
    Record (past ++ [q]) q := by
  have hmem : ∀ e ∈ past ++ [q], e ∈ past ∨ e = q := by simp
  refine { unsigned_bestLoss := hbestLoss, isSome_best := hisSome, first := hfirst,
           unsigned := ?_, least := ?_, descending := ?_, atMost_past := ?_, losses_eq := ?_ }
  · intro e he
    rcases hmem e he with he | rfl
    · exact h.unsigned e he
    · exact hunsigned
  · intro e he loss hloss
    rcases hmem e he with he | rfl
    · exact Binary64.atMost_trans hle (h.least e he loss hloss)
    · exact hleast loss hloss
  · rw [List.pairwise_append]
    refine ⟨h.descending, List.pairwise_singleton _ _, fun e he last hlast => ?_⟩
    obtain rfl := List.mem_singleton.mp hlast
    exact Binary64.atMost_trans hle (h.atMost_past e he)
  · intro e he
    rcases hmem e he with he | rfl
    · exact Binary64.atMost_trans hle (h.atMost_past e he)
    · exact Binary64.atMost_refl hbestLoss.isNaN_eq
  · intro e he
    rw [List.getLast?_append_of_ne_nil _ (List.cons_ne_nil _ _), List.getLast?_singleton,
      Option.mem_some_iff] at he
    rw [he]

/-- An evaluation in which no program beats the champion. -/
theorem keep (h : Record past p) (hunsigned : ∀ loss ∈ q.losses, loss.Unsigned)
    (hchampion : q.champion = p.champion)
    (hleast : ∀ loss ∈ q.losses, p.bestLoss.atMost loss = true) : Record (past ++ [q]) q := by
  have hbestLoss := bestLoss_eq hchampion
  have hbest := best_eq hchampion
  refine h.extend hunsigned ?_ ?_ ?_ ?_ ?_
  · exact hbestLoss ▸ h.unsigned_bestLoss
  · rw [hbestLoss]
    exact Binary64.atMost_refl h.unsigned_bestLoss.isNaN_eq
  · exact hbestLoss ▸ hleast
  · exact hbestLoss ▸ hbest ▸ h.isSome_best
  · intro program hprogram
    rw [hbestLoss]
    exact (h.first program (hbest ▸ hprogram)).append [q]

/-- An evaluation in which the first of the best programs beats the champion. -/
theorem crown (h : Record past p) (hunsigned : ∀ loss ∈ q.losses, loss.Unsigned) {i : Nat}
    {champion : Champion} (hchampion : q.champion = some champion)
    (hprogram : q.store.program i = .ok champion.program)
    (hleast : FirstLeast q.losses.toList i champion.loss)
    (hless : champion.loss.less p.bestLoss = true) : Record (past ++ [q]) q := by
  have hbestLoss : q.bestLoss = champion.loss := by
    unfold bestLoss
    rw [hchampion]
  have hbest : q.best = some champion.program := by
    unfold best
    rw [hchampion]
    rfl
  have hin : q.losses[i]? = some champion.loss := by
    rw [← Array.getElem?_toList]
    exact hleast.getElem?_eq
  have hchampionUnsigned := hunsigned _ (Array.mem_of_getElem? hin)
  refine h.extend hunsigned ?_ ?_ ?_ ?_ ?_
  · exact hbestLoss ▸ hchampionUnsigned
  · exact hbestLoss ▸ Binary64.atMost_of_less hless
  · intro loss hloss
    rw [hbestLoss]
    have hle := hleast.le loss (Array.mem_toList_iff.mpr hloss)
    exact (hchampionUnsigned.totalKey_le_iff (hunsigned loss hloss)).mp hle
  · rw [hbest, hbestLoss, hchampionUnsigned.isFinite_of_less hless]
    rfl
  · intro program hsome
    rw [hbest, Option.some.injEq] at hsome
    subst hsome
    rw [hbestLoss]
    -- no evaluation before had so low a loss, and no earlier program has it in this one
    refine ⟨past, q, [], i, rfl, hin, hprogram, ?_, ?_⟩
    · intro e he loss hloss
      exact Binary64.less_of_less_of_atMost hless (h.least e he loss hloss)
    · intro j hj loss hloss
      rw [← Array.getElem?_toList] at hloss
      have hlt := hleast.lt j hj loss hloss
      have hlossUnsigned := hunsigned loss (Array.mem_toList_iff.mp (List.mem_of_getElem? hloss))
      exact (hchampionUnsigned.totalKey_lt_iff hlossUnsigned).mp hlt

variable {host : Host} {options : Options} {samples : SampleSet k}

/-- An evaluation in which the programs had given outputs extends a record. -/
theorem scored (h : Record past p) (hp : p.Valid host options samples) {values : List (List k.Value)}
    (hvalues : p.outputs = .ok values) : Record (past ++ [p.scored values]) (p.scored values) := by
  have hunsigned : ∀ loss ∈ p.lossesOf values, loss.Unsigned := by
    intro loss hloss
    rw [lossesOf, List.mem_toArray] at hloss
    obtain ⟨outputs, -, rfl⟩ := List.mem_map.mp hloss
    exact p.samples.unsigned_loss _
  have hspec := firstLeast_of_leastLoss? (p.lossesOf values).toList
  have hchampion : (p.scored values).champion = p.championOf (p.lossesOf values) := rfl
  unfold championOf at hchampion
  rw [Array.toArray_toList] at hspec
  cases hleast : leastLoss? (p.lossesOf values) with
  | none =>
      rw [hleast] at hspec hchampion
      refine h.keep hunsigned hchampion fun loss hloss => ?_
      have hmem : loss ∈ (p.lossesOf values).toList := Array.mem_toList_iff.mpr hloss
      rw [show (p.lossesOf values).toList = [] from hspec] at hmem
      cases hmem
  | some least =>
      obtain ⟨i, loss⟩ := least
      rw [hleast] at hspec hchampion
      have hfirst : FirstLeast (p.lossesOf values).toList i loss := hspec
      have hin : i < p.store.programCount := by
        rw [← size_lossesOf hvalues]
        exact (Array.getElem?_eq_some_iff.mp (getElem?_of_leastLoss? hleast)).1
      have hlossUnsigned := hunsigned loss (Array.mem_of_getElem? (getElem?_of_leastLoss? hleast))
      -- the least loss only makes a new champion when it is lower than the best one
      by_cases hless : loss.less p.bestLoss = true
      · simp only [if_pos hless] at hchampion
        exact h.crown hunsigned hchampion (Store.program_eq hp.runnable.wellFormed hin) hfirst hless
      · simp only [if_neg hless] at hchampion
        refine h.keep hunsigned hchampion fun other hother => ?_
        have hle := hfirst.le other (Array.mem_toList_iff.mpr hother)
        refine Binary64.atMost_trans (Binary64.atMost_of_not_less h.unsigned_bestLoss.isNaN_eq
          hlossUnsigned.isNaN_eq (Bool.not_eq_true _ ▸ hless)) ?_
        exact (hlossUnsigned.totalKey_le_iff (hunsigned other hother)).mp hle

/-- An evaluation extends the record by the losses that it finds. -/
theorem evaluate (h : Record past p) (hp : p.Valid host options samples) :
    Record (past ++ evaluation p) (endState (evaluate p)) := by
  unfold evaluation
  rw [hp.evaluate_eq]
  cases hvalues : p.outputs with
  | error failure =>
      simp only [List.append_nil]
      exact h.of_eq rfl rfl
  | ok values => exact h.scored hp hvalues

/-- The best loss is infinite, or it is a finite loss that some program had. -/
theorem infinity_or_mem (h : Record past p) : p.bestLoss = .infinity ∨
    p.bestLoss.isFinite = true ∧ ∃ q ∈ past, p.bestLoss ∈ q.losses := by
  rcases h.unsigned_bestLoss.isFinite_or_eq with hfinite | hinfinity
  · have hsome : p.best.isSome = true := h.isSome_best.trans hfinite
    obtain ⟨program, hprogram⟩ := Option.isSome_iff_exists.mp hsome
    obtain ⟨before, q, after, i, rfl, hloss, -⟩ := h.first program hprogram
    exact .inr ⟨hfinite, q, by simp, Array.mem_of_getElem? hloss⟩
  · exact .inl hinfinity

end Record

section Runs

variable [DrawSource σ] {host : Host} {options : Options} {samples : SampleSet k} {p : Population k σ}

/-- The evaluations of two sequences of calls come one after the other. -/
theorem evaluations_append (calls more : List Call) (p : Population k σ) :
    evaluations (calls ++ more) p = evaluations calls p ++ evaluations more (run calls p).2 := by
  induction calls generalizing p with
  | nil => rfl
  | cons call calls ih =>
      show call.evaluations p ++ evaluations (calls ++ more) _ = _
      rw [ih, ← List.append_assoc]
      rfl

/-- Evaluations extend records, and everything else keeps them. -/
theorem recorded_record :
    Recorded fun past (p : Population k σ) => p.Valid host options samples ∧ Record past p where
  evaluate := fun past p hp => ⟨keeps_evaluate p hp.1, hp.2.evaluate hp.1⟩
  select := by
    intro past budget p hp
    refine ⟨keeps_select budget p hp.1, hp.2.of_eq ?_ ?_⟩ <;> rw [endState_select]
  replace := by
    intro past p hp
    refine ⟨keeps_replace p hp.1, hp.2.of_eq ?_ ?_⟩ <;> rw [replace_eq] <;>
      cases p.store.reproduce p.wins <;> rfl
  mutate := by
    intro past p hp
    refine ⟨keeps_mutate p hp.1, hp.2.of_eq ?_ ?_⟩ <;> unfold Population.mutate <;>
      cases LinearGP.mutate Opcode.first p.catalog.endOpcode p.options.mutationRate
        (p.store, p.source) <;> rfl
  advance := fun past p hp => ⟨{ hp.1 with }, hp.2.of_eq rfl rfl⟩

/-- A new population has nothing to remember. -/
theorem record_of_create {source : σ} (h : create host options samples source = .ok p) : Record [] p := by
  obtain ⟨catalog, store, source', layout, code, input, output, -, -, -, -, -, -, rfl⟩ := create_eq_ok h
  exact {
    unsigned := by simp
    unsigned_bestLoss := Binary64.unsigned_infinity
    least := by simp
    descending := List.Pairwise.nil
    atMost_past := by simp
    losses_eq := by simp
    isSome_best := by
      show false = Binary64.infinity.isFinite
      decide
    first := fun _ hbest => nomatch hbest }

/-- A population remembers all evaluations since it was created. -/
theorem record_run {source : σ} (hcreate : create host options samples source = .ok p)
    (calls : List Call) : Record (evaluations calls p) (run calls p).2 :=
  (recorded_record.run calls ⟨valid_of_create hcreate, record_of_create hcreate⟩).2

/-- Whatever was called since a population was created, its best loss is the least of all losses in all
evaluations, its best program is a copy of the first one that had it, and no further calls make it
worse. -/
theorem bestLoss_of_run {source : σ} (hcreate : create host options samples source = .ok p)
    (calls : List Call) :
    Record (evaluations calls p) (run calls p).2 ∧
      ((∀ q ∈ evaluations calls p, ∀ loss ∈ q.losses, loss.isFinite = false) →
        (run calls p).2.bestLoss = .infinity) ∧
      ∀ more, (run (calls ++ more) p).2.bestLoss.atMost (run calls p).2.bestLoss = true := by
  have hrecord := record_run hcreate calls
  refine ⟨hrecord, ?_, ?_⟩
  · intro hinfinite
    refine hrecord.infinity_or_mem.resolve_right ?_
    rintro ⟨hfinite, q, hq, hmem⟩
    rw [hinfinite q hq _ hmem] at hfinite
    cases hfinite
  · intro more
    have hmore := record_run hcreate (calls ++ more)
    rw [evaluations_append] at hmore
    -- a finite best loss is one of the history, which later records go on to cover
    rcases hrecord.infinity_or_mem with hinfinity | ⟨-, q, hq, hmem⟩
    · rw [hinfinity]
      exact hmore.unsigned_bestLoss.atMost_infinity
    · exact hmore.least q (List.mem_append_left _ hq) _ hmem

/-- A seeded population remembers the best of two generations. -/
theorem bestLoss_of_generations : ∃ p : Population .i64 Pcg64,
    create .full { populationSize := 4, threads := 2, demeSize := 4, tournamentSize := 2
                   programSize := 2, instructions := some [.inc, .neg], moves := some [] }
      (⟨#[5, 1], #[6, 2], 2, 1, 1⟩ : SampleSet .i64) (.ofSeed 7) = .ok p ∧
    (evaluations [.next 20, .reproduce, .evaluate] p).length = 2 ∧
    (run [.next 20, .reproduce, .evaluate] p).2.best.isSome = true ∧
    Record (evaluations [.next 20, .reproduce, .evaluate] p)
      (run [.next 20, .reproduce, .evaluate] p).2 := by
  have hrun : (match create .full { populationSize := 4, threads := 2, demeSize := 4
                                    tournamentSize := 2, programSize := 2
                                    instructions := some [.inc, .neg], moves := some [] }
        (⟨#[5, 1], #[6, 2], 2, 1, 1⟩ : SampleSet .i64) (Pcg64.ofSeed 7) with
      | .ok p => (evaluations [.next 20, .reproduce, .evaluate] p).length == 2 &&
          (run [.next 20, .reproduce, .evaluate] p).2.best.isSome
      | .error _ => false) = true := by decide +kernel
  split at hrun
  · next p hcreate =>
    rw [Bool.and_eq_true, beq_iff_eq] at hrun
    exact ⟨p, hcreate, hrun.1, hrun.2, (bestLoss_of_run hcreate [.next 20, .reproduce, .evaluate]).1⟩
  · cases hrun

end Runs

end Population

end LinearGP
