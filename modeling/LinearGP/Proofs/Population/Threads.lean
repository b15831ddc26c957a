import Mathlib
import LinearGP.Proofs.Population.Calls

/-!
# Evolution does not depend on how the work is split

Two populations with the same samples and draws may be spread over different numbers of threads, and
may count instructions or clear their outputs or not.  They are then `Twins`: the same programs stand
in different slots, and everything else that can be seen agrees.  Every call keeps them twins and
returns the same to both.
-/

set_option autoImplicit false

namespace LinearGP

/-- The options without those that say how the work is split and instrumented. -/
def Options.core (o : Options) : Options :=
  { o with threads := 1, demeSize := 1, majorFrequency := 1, zeroOutputs := false, counting := false }

/-- Whatever only reads the core of options reads the same from options with the same core. -/
theorem Options.read_eq {α : Type} {o o' : Options} (hcore : o.core = o'.core) (read : Options → α)
    (hread : ∀ o, read o.core = read o) : read o = read o' := by
  rw [← hread o, ← hread o', hcore]

namespace Population

variable {k : ElementKind} {σ : Type} {host : Host} {o o' : Options} {samples : SampleSet k}
  {p q : Population k σ}

/-- What can be seen of both populations agrees. -/
structure Alike (p q : Population k σ) : Prop where
  same : p.store.Same q.store
  losses_eq : p.losses = q.losses
  wins_eq : p.wins = q.wins
  champion_eq : p.champion = q.champion
  generation_eq : p.generation = q.generation
  source_eq : p.source = q.source
  executed_eq : p.options.counting = q.options.counting →
    p.options.populationSize * p.samples.rows * p.options.programSize < 0x10000000000000000 →
    p.executed = q.executed

/-- Populations that evolve alike, from options with the same core. -/
structure Twins (host : Host) (o o' : Options) (samples : SampleSet k) (p q : Population k σ) :
    Prop where
  core_eq : o.core = o'.core
  left : p.Valid host o samples
  right : q.Valid host o' samples
  alike : p.Alike q

namespace Twins

/-- Whatever depends on the core of the options is the same for twins. -/
theorem read_eq {α : Type} (h : Twins host o o' samples p q) (read : Options → α)
    (hread : ∀ o, read o.core = read o) : read p.options = read q.options := by
  rw [h.left.options_eq, h.right.options_eq]
  exact Options.read_eq h.core_eq read hread

/-- What is made once from options and samples is the same for both. -/
theorem setup_eq (h : Twins host o o' samples p q) :
    p.catalog = q.catalog ∧ p.layout = q.layout ∧ p.input = q.input ∧ p.samples = q.samples := by
  have hsamples : p.samples = q.samples := h.left.samples_eq.trans h.right.samples_eq.symm
  have hcatalog : p.catalog = q.catalog := by
    have hbuild := h.left.catalog_eq
    rw [h.read_eq (·.catalogOptions k) fun _ => rfl] at hbuild
    exact Except.ok.inj (hbuild.symm.trans h.right.catalog_eq)
  have hlayout : p.layout = q.layout := by
    have hmade := h.left.layout_eq
    rw [h.read_eq (·.populationSize) fun _ => rfl, hsamples] at hmade
    exact Except.ok.inj (hmade.symm.trans h.right.layout_eq)
  have hinput : p.input = q.input := by
    have hfilled := h.left.input_eq
    rw [hlayout, hsamples] at hfilled
    exact Except.ok.inj (hfilled.symm.trans h.right.input_eq)
  exact ⟨hcatalog, hlayout, hinput, hsamples⟩

/-- The calls of a program of the population that end alike keep both populations valid, too. -/
theorem of_alike {α : Type} (h : Twins host o o' samples p q)
    {x : EStateM Failure (Population k σ) α} (hleft : Keeps (Valid host o samples) x)
    (hright : Keeps (Valid host o' samples) x) (hend : SameEnd Alike (x p) (x q)) :
    SameEnd (Twins host o o' samples) (x p) (x q) := by
  have hp := hleft p h.left
  have hq := hright q h.right
  generalize x p = first at hp hend ⊢
  generalize x q = second at hq hend ⊢
  cases hend with
  | ok a halike => exact .ok a ⟨h.core_eq, hp, hq, halike⟩
  | error failure halike => exact .error failure ⟨h.core_eq, hp, hq, halike⟩

/-! ## Evaluation -/

/-- Twins have the same outputs. -/
theorem outputs_eq (h : Twins host o o' samples p q) : p.outputs = q.outputs := by
  obtain ⟨hcatalog, hlayout, hinput, -⟩ := h.setup_eq
  unfold outputs
  rw [h.alike.same.programs_eq, hcatalog, hlayout, hinput]

/-- Twins choose the same champion for the same losses. -/
theorem championOf_eq (h : Twins host o o' samples p q) {losses : Array Binary64}
    (hsize : losses.size = p.store.programCount) : p.championOf losses = q.championOf losses := by
  have hbest : p.bestLoss = q.bestLoss := by
    unfold bestLoss
    rw [h.alike.champion_eq]
  unfold championOf
  rw [hbest, h.alike.champion_eq]
  cases hleast : leastLoss? losses with
  | none => rfl
  | some least =>
      obtain ⟨program, loss⟩ := least
      have hprogram : program < p.store.programCount := by
        rw [← hsize]
        exact (Array.getElem?_eq_some_iff.mp (getElem?_of_leastLoss? hleast)).1
      simp only
      rw [h.alike.same.programAt_eq hprogram]

/-- Both count the same instructions, as long as the count fits a machine word. -/
theorem counted_eq (h : Twins host o o' samples p q) (hcounting : p.options.counting = q.options.counting)
    (hword : p.options.populationSize * p.samples.rows * p.options.programSize < 0x10000000000000000) :
    p.store.threads * p.countedPerThread = q.store.threads * q.countedPerThread := by
  have hcount : ∀ {o : Options} {r : Population k σ}, r.Valid host o samples →
      r.options.populationSize * r.samples.rows * r.options.programSize < 0x10000000000000000 →
      r.store.threads * r.countedPerThread = if r.options.counting then
        r.options.populationSize * r.samples.rows * r.options.programSize else 0 := by
    intro o r hr hword
    have hrows : r.layout.rows = r.samples.rows := by rw [hr.layout_dimensions]
    have htotal : r.options.populationSize * r.samples.rows * r.options.programSize =
        r.store.threads * (r.store.perThread * r.layout.rows * r.options.programSize) := by
      rw [← hr.programCount_eq, Store.programCount, hrows]
      ring
    have hthread : r.store.perThread * r.layout.rows * r.options.programSize <
        0x10000000000000000 := by
      refine lt_of_le_of_lt ?_ (htotal ▸ hword)
      exact Nat.le_mul_of_pos_left _ hr.runnable.wellFormed.threads_pos
    unfold countedPerThread
    rw [Nat.mod_eq_of_lt hthread, htotal]
    split <;> rfl
  obtain ⟨-, -, -, hsamples⟩ := h.setup_eq
  have hpopulation : p.options.populationSize = q.options.populationSize :=
    h.read_eq (·.populationSize) fun _ => rfl
  have hprogram : p.options.programSize = q.options.programSize :=
    h.read_eq (·.programSize) fun _ => rfl
  rw [hcount h.left hword, hcount h.right (by rwa [← hpopulation, ← hprogram, ← hsamples]),
    hcounting, hpopulation, hprogram, hsamples]

/-- Twins are evaluated alike. -/
theorem evaluate (h : Twins host o o' samples p q) :
    SameEnd (Twins host o o' samples) (evaluate p) (evaluate q) := by
  refine h.of_alike keeps_evaluate keeps_evaluate ?_
  obtain ⟨-, -, -, hsamples⟩ := h.setup_eq
  rw [h.left.evaluate_eq, h.right.evaluate_eq, ← h.outputs_eq]
  cases hvalues : p.outputs with
  | error failure => exact .error failure { h.alike with }
  | ok values =>
      have hlosses : p.lossesOf values = q.lossesOf values := by
        unfold lossesOf
        rw [hsamples]
      refine .ok () ?_
      exact { h.alike with
        losses_eq := hlosses
        champion_eq := by
          show p.championOf (p.lossesOf values) = q.championOf (q.lossesOf values)
          rw [← hlosses, h.championOf_eq (size_lossesOf hvalues)]
        executed_eq := h.counted_eq }

/-! ## Evolution -/

variable [DrawSource σ]

/-- Twins select alike. -/
theorem select (h : Twins host o o' samples p q) (budget : Nat) :
    SameEnd (Twins host o o' samples) (select budget p) (select budget q) := by
  refine h.of_alike (keeps_select budget) (keeps_select budget) ?_
  have htournament : p.tournament = q.tournament := by
    have hcap : p.options.winCap = q.options.winCap := h.read_eq (·.winCap) fun _ => rfl
    have hsize : p.options.tournamentSize = q.options.tournamentSize :=
      h.read_eq (·.tournamentSize) fun _ => rfl
    unfold tournament
    rw [h.alike.losses_eq, hcap, hsize]
  unfold Population.select
  rw [htournament, h.alike.wins_eq, h.alike.source_eq]
  cases q.tournament.select budget (q.wins, q.source) with
  | ok selected state => exact .ok selected { h.alike with wins_eq := rfl, source_eq := rfl }
  | error failure state => exact .error failure { h.alike with wins_eq := rfl, source_eq := rfl }

/-- Twins mutate alike. -/
theorem mutate (h : Twins host o o' samples p q) :
    SameEnd (Twins host o o' samples) (mutate p) (mutate q) := by
  refine h.of_alike keeps_mutate keeps_mutate ?_
  have hrate : p.options.mutationRate = q.options.mutationRate :=
    h.read_eq (·.mutationRate) fun _ => rfl
  have hpass := h.alike.same.mutate h.left.runnable.wellFormed h.right.runnable.wellFormed
    Opcode.first q.catalog.endOpcode q.options.mutationRate q.source
  unfold Population.mutate
  rw [h.setup_eq.1, hrate, h.alike.source_eq]
  generalize LinearGP.mutate Opcode.first q.catalog.endOpcode q.options.mutationRate
    (p.store, q.source) = first at hpass ⊢
  generalize LinearGP.mutate Opcode.first q.catalog.endOpcode q.options.mutationRate
    (q.store, q.source) = second at hpass ⊢
  cases hpass with
  | ok mutations hend =>
      exact .ok mutations { h.alike with same := hend.1, source_eq := hend.2 }
  | error failure hend =>
      exact .error failure { h.alike with same := hend.1, source_eq := hend.2 }

omit [DrawSource σ] in
/-- Twins replace the same programs. -/
theorem replace (h : Twins host o o' samples p q) :
    SameEnd (Twins host o o' samples) (replace p) (replace q) := by
  refine h.of_alike keeps_replace keeps_replace ?_
  have hcopies := h.alike.same.reproduce h.left.runnable.wellFormed h.right.runnable.wellFormed
    p.wins
  rw [replace_eq, replace_eq]
  rw [show q.store.reproduce p.wins = q.store.reproduce q.wins by rw [h.alike.wins_eq]] at hcopies
  generalize p.store.reproduce p.wins = first at hcopies ⊢
  generalize q.store.reproduce q.wins = second at hcopies ⊢
  cases hcopies with
  | @ok x y hend =>
      obtain ⟨store, copies⟩ := x
      obtain ⟨store', copies'⟩ := y
      obtain ⟨hsame, rfl⟩ := hend
      exact .ok copies { h.alike with same := hsame }
  | error failure => exact .error failure h.alike

/-- Twins reproduce alike. -/
theorem reproduce (h : Twins host o o' samples p q) :
    SameEnd (Twins host o o' samples) (reproduce p) (reproduce q) := by
  unfold Population.reproduce
  refine h.replace.bind ?_
  intro copies p q h
  refine h.mutate.bind ?_
  intro mutations p q h
  exact .ok copies h

/-- Twins go through a generation alike. -/
theorem next (h : Twins host o o' samples p q) (budget : Nat) :
    SameEnd (Twins host o o' samples) (next budget p) (next budget q) := by
  unfold Population.next
  refine h.evaluate.bind ?_
  intro _ p q h
  refine (h.select budget).bind ?_
  intro _ p q h
  refine h.reproduce.bind ?_
  intro _ p q h
  refine SameEnd.ok (R := Twins host o o' samples) PUnit.unit ?_
  exact {
    core_eq := h.core_eq
    left := { h.left with }
    right := { h.right with }
    alike := { h.alike with generation_eq := congrArg (· + 1) h.alike.generation_eq } }

/-- Twins go through a run of generations alike. -/
theorem runUntil (h : Twins host o o' samples p q) (stop : Nat → Binary64 → Bool)
    (budget generations : Nat) :
    SameEnd (Twins host o o' samples) (runUntil stop budget generations p)
      (runUntil stop budget generations q) := by
  have hstop : ∀ {p q : Population k σ}, Twins host o o' samples p q →
      stop p.generation p.bestLoss = stop q.generation q.bestLoss := by
    intro p q h
    unfold bestLoss
    rw [h.alike.generation_eq, h.alike.champion_eq]
  -- twins stop at the same time, and else go through the next generation alike
  induction generations generalizing p q with
  | zero =>
      show SameEnd _
        ((if stop p.generation p.bestLoss then pure () else throw .unfinished :
          EStateM Failure (Population k σ) Unit) p)
        ((if stop q.generation q.bestLoss then pure () else throw .unfinished :
          EStateM Failure (Population k σ) Unit) q)
      rw [hstop h]
      split
      · exact .ok () h
      · exact .error Failure.unfinished h
  | succ generations ih =>
      show SameEnd _
        ((if stop p.generation p.bestLoss then pure ()
          else Population.next budget >>= fun _ => Population.runUntil stop budget generations :
            EStateM Failure (Population k σ) Unit) p)
        ((if stop q.generation q.bestLoss then pure ()
          else Population.next budget >>= fun _ => Population.runUntil stop budget generations :
            EStateM Failure (Population k σ) Unit) q)
      rw [hstop h]
      split
      · exact .ok () h
      · exact (h.next budget).bind fun _ _ _ h => ih h

/-! ## Calls -/

/-- A call returns the same to both, and they stay twins. -/
theorem perform (h : Twins host o o' samples p q) (call : Call) :
    SameEnd (Twins host o o' samples) (call.perform p) (call.perform q) := by
  cases call with
  | evaluate => exact h.evaluate.bind fun _ _ _ h => .ok none h
  | select budget => exact (h.select budget).map some
  | reproduce => exact h.reproduce.map some
  | mutate => exact h.mutate.map some
  | next budget => exact (h.next budget).bind fun _ _ _ h => .ok none h
  | runUntil stop budget generations =>
      exact (h.runUntil stop budget generations).bind fun _ _ _ h => .ok none h

/-- All calls return the same to both, and they stay twins. -/
theorem run (h : Twins host o o' samples p q) (calls : List Call) :
    (run calls p).1 = (run calls q).1 ∧ Twins host o o' samples (run calls p).2 (run calls q).2 := by
  induction calls generalizing p q with
  | nil => exact ⟨rfl, h⟩
  | cons call calls ih =>
      have hfirst := h.perform call
      obtain ⟨hresults, hrest⟩ := ih hfirst.endState
      refine ⟨?_, hrest⟩
      show outcome _ :: _ = outcome _ :: _
      rw [hfirst.outcome_eq, hresults]

end Twins

/-- New populations from options with the same core are twins. -/
theorem twins_of_create [DrawSource σ] (hcore : o.core = o'.core) {source : σ}
    (hp : create host o samples source = .ok p) (hq : create host o' samples source = .ok q) :
    Twins host o o' samples p q := by
  refine ⟨hcore, valid_of_create hp, valid_of_create hq, ?_⟩
  obtain ⟨catalog, store, drawn, layout, code, input, output, hcatalog, hseeded, -, -, -, -, rfl⟩ :=
    create_eq_ok hp
  obtain ⟨catalog', store', drawn', layout', code', input', output', hcatalog', hseeded', -, -, -, -,
    rfl⟩ := create_eq_ok hq
  obtain ⟨blank, prepared, hcreate, hprepare, hdraws⟩ := seedStore_eq_ok hseeded
  obtain ⟨blank', prepared', hcreate', hprepare', hdraws'⟩ := seedStore_eq_ok hseeded'
  have hpopulation : o.populationSize = o'.populationSize :=
    Options.read_eq hcore (·.populationSize) fun _ => rfl
  have hprogram : o.programSize = o'.programSize :=
    Options.read_eq hcore (·.programSize) fun _ => rfl
  obtain rfl : catalog = catalog' := by
    rw [Options.read_eq hcore (·.catalogOptions k) fun _ => rfl] at hcatalog
    exact Except.ok.inj (hcatalog.symm.trans hcatalog')
  rw [← hpopulation, ← hprogram] at hcreate'
  -- stores of the same size start with the same programs and draw the same opcodes
  have hsame := Store.same_of_prepare hcreate hprepare hcreate' hprepare'
  have hseeds := hsame.transform (Store.wellFormed_of_prepare hcreate hprepare).1
    (Store.wellFormed_of_prepare hcreate' hprepare').1
    (fun _ => drawOpcode Opcode.first catalog.endOpcode) source
  change SameEnd _ (randomize Opcode.first catalog.endOpcode (prepared, source))
    (randomize Opcode.first catalog.endOpcode (prepared', source)) at hseeds
  rw [hdraws, hdraws'] at hseeds
  cases hseeds with
  | ok a hend =>
      exact {
        same := hend.1
        losses_eq := by rw [hpopulation]
        wins_eq := by rw [hpopulation]
        champion_eq := rfl
        generation_eq := rfl
        source_eq := hend.2
        executed_eq := fun _ _ => rfl }

/-- Calls have the same results, and leave populations that agree in all that can be seen, whatever
the options say about how the work is split and instrumented.  Executed instructions agree when both
populations count them, or neither, and their number fits a machine word. -/
theorem run_eq_of_core_eq [DrawSource σ] (hcore : o.core = o'.core) {source : σ}
    (hp : create host o samples source = .ok p) (hq : create host o' samples source = .ok q)
    (calls : List Call) :
    (run calls p).1 = (run calls q).1 ∧
      (∀ program instruction, (run calls p).2.store.get program instruction =
        (run calls q).2.store.get program instruction) ∧
      (run calls p).2.losses = (run calls q).2.losses ∧
      (run calls p).2.wins = (run calls q).2.wins ∧
      (run calls p).2.best = (run calls q).2.best ∧
      (run calls p).2.bestLoss = (run calls q).2.bestLoss ∧
      (run calls p).2.generation = (run calls q).2.generation ∧
      (run calls p).2.source = (run calls q).2.source ∧
      (o.counting = o'.counting →
        o.populationSize * samples.rows * o.programSize < 0x10000000000000000 →
        (run calls p).2.executed = (run calls q).2.executed) := by
  obtain ⟨hresults, h⟩ := (twins_of_create hcore hp hq).run calls
  have halike := h.alike
  refine ⟨hresults, ?_, halike.losses_eq, halike.wins_eq, ?_, ?_, halike.generation_eq,
    halike.source_eq, ?_⟩
  · exact halike.same.get_eq h.left.runnable.wellFormed h.right.runnable.wellFormed
  · unfold best
    rw [halike.champion_eq]
  · unfold bestLoss
    rw [halike.champion_eq]
  · have hexecuted := halike.executed_eq
    rw [h.left.options_eq, h.right.options_eq, h.left.samples_eq] at hexecuted
    exact hexecuted

/-- One thread and two, after a generation and more mutations. -/
theorem run_eq_of_core_eq_two : ∃ p q : Population .i64 Pcg64,
    create .full { populationSize := 4, demeSize := 4, tournamentSize := 2, programSize := 2
                   instructions := some [.inc, .neg], moves := some [], counting := true }
        ⟨#[5, 1], #[6, 2], 2, 1, 1⟩ (.ofSeed 7) = .ok p ∧
    create .full { populationSize := 4, threads := 2, demeSize := 2, tournamentSize := 2
                   programSize := 2, majorFrequency := 3, instructions := some [.inc, .neg]
                   moves := some [], zeroOutputs := true, counting := true }
        ⟨#[5, 1], #[6, 2], 2, 1, 1⟩ (.ofSeed 7) = .ok q ∧
    (run [.next 20, .mutate, .evaluate] p).1 = (run [.next 20, .mutate, .evaluate] q).1 ∧
    (run [.next 20, .mutate, .evaluate] p).2.store.get 3 1 =
      (run [.next 20, .mutate, .evaluate] q).2.store.get 3 1 ∧
    (run [.next 20, .mutate, .evaluate] p).2.executed =
      (run [.next 20, .mutate, .evaluate] q).2.executed := by
  have hone : (create .full { populationSize := 4, demeSize := 4, tournamentSize := 2, programSize := 2
                              instructions := some [.inc, .neg], moves := some [], counting := true }
      (⟨#[5, 1], #[6, 2], 2, 1, 1⟩ : SampleSet .i64) (Pcg64.ofSeed 7)).isOk = true := by
    decide +kernel
  have htwo : (create .full { populationSize := 4, threads := 2, demeSize := 2, tournamentSize := 2
                              programSize := 2, majorFrequency := 3, instructions := some [.inc, .neg]
                              moves := some [], zeroOutputs := true, counting := true }
      (⟨#[5, 1], #[6, 2], 2, 1, 1⟩ : SampleSet .i64) (Pcg64.ofSeed 7)).isOk = true := by
    decide +kernel
  obtain ⟨p, hp⟩ := exists_eq_ok hone
  obtain ⟨q, hq⟩ := exists_eq_ok htwo
  obtain ⟨hresults, hget, -, -, -, -, -, -, hexecuted⟩ :=
    run_eq_of_core_eq (by rfl) hp hq [.next 20, .mutate, .evaluate]
  exact ⟨p, q, hp, hq, hresults, hget 3 1, hexecuted rfl (by decide)⟩

end Population

end LinearGP
