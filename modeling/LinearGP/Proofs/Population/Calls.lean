import Mathlib
import LinearGP.Proofs.Population.Evaluation

/-!
# Sequences of calls

Whoever holds a population may call its operations in any order, and go on after a call that failed.
`Population.run` makes such a sequence of calls.  Every call keeps the population valid, so every
population that can be reached is valid: `Valid.run`.
-/

set_option autoImplicit false

namespace LinearGP

namespace Population

variable {k : ElementKind} {σ : Type} {host : Host} {options : Options} {samples : SampleSet k}

/-! ## Evaluation -/

/-- Each loss is that of the outputs of its program. -/
theorem getElem?_lossesOf {p : Population k σ} {values : List (List k.Value)}
    (hvalues : p.outputs = .ok values) {program : Nat} {loss : Binary64}
    (hloss : (p.lossesOf values)[program]? = some loss) :
    ∃ outputs, (p.store.programAt program).outputs p.catalog p.layout p.input.values = .ok outputs ∧
      loss = p.samples.loss outputs.toArray := by
  rw [lossesOf, List.getElem?_toArray, List.getElem?_map, Option.map_eq_some_iff] at hloss
  obtain ⟨outputs, houtputs, rfl⟩ := hloss
  refine ⟨outputs, ?_, rfl⟩
  obtain ⟨hprogram, rfl⟩ := List.getElem?_eq_some_iff.mp houtputs
  have hforall := mapM_eq_ok_iff.mp hvalues
  have hin : program < p.store.programs.length := hforall.length_eq ▸ hprogram
  have hresult := hforall.get hin hprogram
  simpa [Store.programs] using hresult

/-- A champion of an evaluation has the loss that it is crowned with. -/
theorem Valid.scores_championOf {p : Population k σ} (h : p.Valid host options samples)
    {values : List (List k.Value)} (hvalues : p.outputs = .ok values) (c : Champion)
    (hc : p.championOf (p.lossesOf values) = some c) : p.Scores c.program c.loss := by
  unfold championOf at hc
  split at hc
  · exact h.champion c hc
  · next program loss hleast =>
    split at hc
    · next hless =>
      injection hc with hc
      subst hc
      obtain ⟨outputs, houtputs, hloss⟩ :=
        getElem?_lossesOf hvalues (getElem?_of_leastLoss? hleast)
      subst hloss
      exact ⟨outputs, houtputs, (Binary64.orInfinity_of_less hless).symm⟩
    · exact h.champion c hc

/-- A population stays valid when its scores are brought up to date. -/
theorem Valid.scored {p : Population k σ} (h : p.Valid host options samples)
    {values : List (List k.Value)} (hvalues : p.outputs = .ok values) :
    (p.scored values).Valid host options samples := by
  have hsize : values.flatten.toArray.size = p.output.values.size := by
    rw [List.size_toArray,
      length_flatten_of_width (Program.length_of_mem_outputs h.accepted hvalues),
      length_of_outputs hvalues, h.programCount_eq, h.output_size]
  have hout : ({ p with output := { p.output with values := values.flatten.toArray } } :
      Population k σ).Valid host options samples := h.withOutput hsize rfl
  exact { hout with champion := h.scores_championOf hvalues }

/-- An evaluation succeeds when all programs have outputs, and it scores them. -/
theorem Valid.evaluate_eq_ok_iff {p q : Population k σ} (h : p.Valid host options samples) :
    evaluate p = .ok () q ↔ ∃ values, p.outputs = .ok values ∧ p.scored values = q := by
  rw [h.evaluate_eq]
  cases p.outputs with
  | error failure => simp
  | ok values => simp

/-- Evaluation keeps a population valid, also when it fails. -/
theorem keeps_evaluate :
    Keeps (Valid host options samples) (evaluate : EStateM Failure (Population k σ) Unit) := by
  intro p hp
  rw [hp.evaluate_eq]
  cases hvalues : p.outputs with
  | error failure => exact hp.cleared.ran
  | ok values => exact hp.scored hvalues

/-! ## Evolution -/

/-- A population stays valid with another store that may be run and has the same shape. -/
theorem Valid.withStore {p : Population k σ} (h : p.Valid host options samples) {store : Store}
    (hstore : store.Runnable p.catalog.opcodeCount) (hshape : store.SameShape p.store) (source : σ) :
    ({ p with store, source } : Population k σ).Valid host options samples :=
  { h with
    runnable := hstore
    programCount_eq := hshape.programCount_eq.trans h.programCount_eq
    programSize_eq := hshape.programSize_eq.trans h.programSize_eq }

/-- Replacement is reproduction on the store, and nothing happens when that fails. -/
theorem replace_eq (p : Population k σ) :
    replace p =
      match p.store.reproduce p.wins with
      | .error failure => .error failure p
      | .ok (store, copies) => .ok copies { p with store } := by
  unfold replace step
  beta_reduce
  cases p.store.reproduce p.wins <;> rfl

/-- Replacement keeps a population valid. -/
theorem keeps_replace :
    Keeps (Valid host options samples) (replace : EStateM Failure (Population k σ) Nat) := by
  intro p hp
  rw [replace_eq]
  cases hreproduce : p.store.reproduce p.wins with
  | error failure => exact hp
  | ok result =>
      obtain ⟨store, copies⟩ := result
      obtain ⟨hstore, hshape⟩ := hp.runnable.reproduce hreproduce
      exact hp.withStore hstore hshape p.source

variable [DrawSource σ]

/-- A selection changes the wins and the source, and nothing else. -/
theorem endState_select (budget : Nat) (p : Population k σ) :
    endState (select budget p) =
      { p with
        wins := (endState (p.tournament.select budget (p.wins, p.source))).1
        source := (endState (p.tournament.select budget (p.wins, p.source))).2 } := by
  unfold select
  cases p.tournament.select budget (p.wins, p.source) <;> rfl

/-- Selection ends as the tournaments do. -/
theorem outcome_select (budget : Nat) (p : Population k σ) :
    outcome (select budget p) = outcome (p.tournament.select budget (p.wins, p.source)) := by
  unfold select
  cases p.tournament.select budget (p.wins, p.source) <;> rfl

/-- Selection keeps a population valid, also when it fails. -/
theorem keeps_select (budget : Nat) :
    Keeps (Valid host options samples) (select budget : EStateM Failure (Population k σ) Nat) := by
  intro p hp
  rw [endState_select]
  exact { hp with }

/-- Mutation keeps a population valid. -/
theorem keeps_mutate :
    Keeps (Valid host options samples) (mutate : EStateM Failure (Population k σ) Nat) := by
  intro p hp
  have hstore := hp.runnable.mutate p.options.mutationRate p.source
  unfold mutate
  cases hmutate : LinearGP.mutate Opcode.first p.catalog.endOpcode p.options.mutationRate
      (p.store, p.source) with
  | ok mutations state =>
      rw [hmutate] at hstore
      exact hp.withStore hstore.1 hstore.2 state.2
  | error failure state =>
      rw [hmutate] at hstore
      exact hp.withStore hstore.1 hstore.2 state.2

/-! ## Invariants -/

/-- An invariant that every part of a generation keeps. -/
structure Stable (good : Population k σ → Prop) : Prop where
  evaluate : Keeps good evaluate
  select : ∀ budget, Keeps good (select budget)
  replace : Keeps good replace
  mutate : Keeps good mutate
  advance : ∀ p, good p → good { p with generation := p.generation + 1 }

/-- Being valid is kept by every part of a generation. -/
theorem stable_valid : Stable (Valid host options samples : Population k σ → Prop) where
  evaluate := keeps_evaluate
  select := keeps_select
  replace := keeps_replace
  mutate := keeps_mutate
  advance _ hp := { hp with }

namespace Stable

variable {good : Population k σ → Prop}

/-- Reproduction keeps what its parts keep. -/
theorem reproduce (h : Stable good) : Keeps good reproduce := by
  unfold Population.reproduce
  refine h.replace.bind ?_
  intro copies
  exact h.mutate.bind fun _ => Keeps.pure copies

/-- A generation keeps what its parts keep. -/
theorem next (h : Stable good) (budget : Nat) : Keeps good (next budget) := by
  unfold Population.next
  exact h.evaluate.bind fun _ => (h.select budget).bind fun _ => h.reproduce.bind fun _ => h.advance

/-- A run of generations keeps what a generation keeps. -/
theorem runUntil (h : Stable good) (stop : Nat → Binary64 → Bool) (budget generations : Nat) :
    Keeps good (runUntil stop budget generations) := by
  induction generations with
  | zero =>
      intro p hp
      show good (endState ((if stop p.generation p.bestLoss then pure ()
        else throw .unfinished : EStateM Failure (Population k σ) Unit) p))
      split <;> exact hp
  | succ generations ih =>
      intro p hp
      show good (endState ((if stop p.generation p.bestLoss then pure ()
        else Population.next budget >>= fun _ => Population.runUntil stop budget generations :
          EStateM Failure (Population k σ) Unit) p))
      split
      · exact hp
      · exact (h.next budget).bind (fun _ => ih) p hp

end Stable

/-! ## Calls -/

/-- One of the operations that evolve a population. -/
inductive Call where
  | evaluate
  | select (budget : Nat)
  | reproduce
  | mutate
  | next (budget : Nat)
  | runUntil (stop : Nat → Binary64 → Bool) (budget generations : Nat)

/-- What a call does.  The number that it returns, if any, is what the operation counted. -/
def Call.perform : Call → EStateM Failure (Population k σ) (Option Nat)
  | evaluate => do
    Population.evaluate
    return none
  | select budget => some <$> Population.select budget
  | reproduce => some <$> Population.reproduce
  | mutate => some <$> Population.mutate
  | next budget => do
    Population.next budget
    return none
  | runUntil stop budget generations => do
    Population.runUntil stop budget generations
    return none

/-- Make calls one after the other, also after one that failed.  The results of all calls are
returned with the population that is left. -/
def run : List Call → Population k σ → List (Except Failure (Option Nat)) × Population k σ
  | [], p => ([], p)
  | call :: calls, p =>
    let result := call.perform p
    let rest := run calls (endState result)
    (outcome result :: rest.1, rest.2)

/-- Any call keeps what the parts of a generation keep. -/
theorem Stable.perform {good : Population k σ → Prop} (h : Stable good) (call : Call) :
    Keeps good call.perform := by
  cases call with
  | evaluate => exact h.evaluate.bind fun _ => Keeps.pure none
  | select budget => exact (h.select budget).map some
  | reproduce => exact h.reproduce.map some
  | mutate => exact h.mutate.map some
  | next budget => exact (h.next budget).bind fun _ => Keeps.pure none
  | runUntil stop budget generations =>
      exact (h.runUntil stop budget generations).bind fun _ => Keeps.pure none

/-- Whatever calls are made, also after one that failed, an invariant that is kept goes on to hold. -/
theorem Stable.run {good : Population k σ → Prop} (h : Stable good) {p : Population k σ}
    (hp : good p) (calls : List Call) : good (run calls p).2 := by
  induction calls generalizing p with
  | nil => exact hp
  | cons call calls ih => exact ih (h.perform call p hp)

/-- Whatever calls are made, a valid population stays valid. -/
theorem Valid.run {p : Population k σ} (h : p.Valid host options samples) (calls : List Call) :
    (run calls p).2.Valid host options samples :=
  stable_valid.run h calls

end Population

end LinearGP
