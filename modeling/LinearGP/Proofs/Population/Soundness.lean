import Mathlib
import LinearGP.Proofs.Faults
import LinearGP.Proofs.Ieee.Product
import LinearGP.Proofs.Population.Champion
import LinearGP.Proofs.Selection.Tournament
import LinearGP.Proofs.Store.Image

/-!
# A population never gets into a bad state

Whoever holds a population may call its operations in any order and go on after a failure.  However
it was treated, `Population.Sound` holds: the buffer that machine code walks has its sentinels in
place and opcodes of the catalog everywhere else, no program is over the win cap, and the champion is
a whole program of the catalog.  `Population.Serves` says what calls return from there.  Only a
selection can fail, because its tournaments bring no win, unless a program divides without a guard
and stops the machine.

Both follow from what calls keep: the validity of the population, and the sizes and bounds that
`Population.Bounded` collects.
-/

set_option autoImplicit false

namespace LinearGP

/-! ## Options -/

namespace Options

variable {o : Options}

/-- Options that can be used. -/
structure Consistent (o : Options) : Prop where
  populationSize_pos : 0 < o.populationSize
  threads_pos : 0 < o.threads
  populationSize_mod_threads : o.populationSize % o.threads = 0
  demeSize_pos : 0 < o.demeSize
  populationSize_mod_demeSize : o.populationSize % o.demeSize = 0
  tournamentSize_pos : 0 < o.tournamentSize
  programSize_pos : 0 < o.programSize
  mutationRate_isChance : o.mutationRate.isChance = true
  offspringRatio_pos : Binary64.zero.less o.maxOffspringRatio = true
  offspringRatio_isFinite : o.maxOffspringRatio.isFinite = true
  majorFrequency_pos : 0 < o.majorFrequency

/-- Validation accepts the options that can be used, and no others. -/
theorem validate_eq_ok_iff : o.validate = .ok () ↔ o.Consistent := by
  have hvalidate : o.validate = .ok () ↔ o.flaw? = none := by
    unfold validate
    cases o.flaw? <;> simp [refuse]
  rw [hvalidate]
  constructor
  · intro h
    unfold flaw? at h
    split_ifs at h with hpopulation hthreads hdemes htournament hprograms hrate hratio hmajor
    simp only [not_or, not_not, Bool.not_eq_true, Bool.not_eq_false', Bool.and_eq_true] at *
    exact ⟨by omega, by omega, hthreads.2, by omega, hdemes.2, by omega, by omega, hrate, hratio.1,
      hratio.2, by omega⟩
  · intro h
    unfold flaw?
    rw [if_neg h.populationSize_pos.ne', if_neg, if_neg, if_neg h.tournamentSize_pos.ne',
      if_neg h.programSize_pos.ne', if_neg, if_neg, if_neg h.majorFrequency_pos.ne']
    · simp [h.offspringRatio_pos, h.offspringRatio_isFinite]
    · simp [h.mutationRate_isChance]
    · simp [h.demeSize_pos.ne', h.populationSize_mod_demeSize]
    · simp [h.threads_pos.ne', h.populationSize_mod_threads]

/-- Every program may win at least once. -/
theorem Consistent.winCap_pos (h : o.Consistent) : 0 < o.winCap := by
  have hnumber :=
    Binary64.isNaN_mul_ofNat h.offspringRatio_isFinite h.offspringRatio_pos o.populationSize
  unfold winCap
  simp only [hnumber, Bool.false_eq_true, if_false]
  split
  · decide
  · next hone =>
    split
    · decide
    · next hbyte =>
      have hlow : Binary64.one.less (o.maxOffspringRatio.mul (.ofNat o.populationSize)) = true := by
        simpa [Binary64.atMost, hnumber, show Binary64.one.isNaN = false by decide] using hone
      obtain ⟨hpos, hle⟩ := Binary64.ceil_mem hlow (by simpa using hbyte)
      rw [UInt8.lt_iff_toNat_lt, UInt8.toNat_ofNat', Nat.mod_eq_of_lt (by omega)]
      exact hpos

end Options

/-! ## Opcodes of a catalog -/

/-- An opcode that programs of the catalog are made of. -/
def Catalog.Has (catalog : Catalog) (opcode : Opcode) : Prop :=
  Opcode.first ≤ opcode ∧ opcode < catalog.endOpcode

/-- A catalog has the opcodes below its bound that are no sentinels. -/
theorem Catalog.has_iff {catalog : Catalog} {opcode : Opcode} :
    catalog.Has opcode ↔ opcode.isSentinel = false ∧ opcode.toNat < catalog.opcodeCount :=
  mem_opcodes_iff.trans (and_congr_left fun _ => Opcode.isSentinel_eq_false_iff.symm)

/-- These are the opcodes that name an instruction. -/
theorem Catalog.has_iff_exists_instruction {catalog : Catalog} {opcode : Opcode} :
    catalog.Has opcode ↔ ∃ i, catalog.instruction? opcode = some i :=
  exists_instruction?_iff.symm

namespace Population

variable {k : ElementKind} {σ : Type} {host : Host} {options : Options} {samples : SampleSet k}
  {p : Population k σ}

/-! ## Sizes and bounds -/

/-- What calls keep of the sizes of a population. -/
structure Bounded (p : Population k σ) : Prop where
  consistent : p.options.Consistent
  threads_eq : p.store.threads = p.options.threads
  losses_size : p.losses.size = p.options.populationSize
  wins_size : p.wins.size = p.options.populationSize
  wins_le : ∀ w ∈ p.wins, w ≤ p.options.winCap
  champion_length : ∀ c, p.champion = some c → c.program.length = p.options.programSize

namespace Bounded

/-- The wins of a bounded population fit the rules of its tournaments. -/
theorem fits (h : p.Bounded) : p.tournament.Fits p.wins :=
  ⟨h.wins_size.trans h.losses_size.symm, h.wins_le⟩

/-- A population stays bounded with another store of the same shape. -/
theorem withStore (h : p.Bounded) {store : Store} (hshape : store.SameShape p.store) (source : σ) :
    ({ p with store, source } : Population k σ).Bounded :=
  { h with threads_eq := hshape.threads_eq.trans h.threads_eq }

/-- A population stays bounded when its scores are brought up to date. -/
theorem scored (h : p.Bounded) (hvalid : p.Valid host options samples) {values : List (List k.Value)}
    (hvalues : p.outputs = .ok values) : (p.scored values).Bounded := by
  refine { h with losses_size := ?_, champion_length := ?_ }
  · show (p.lossesOf values).size = _
    rw [size_lossesOf hvalues, hvalid.programCount_eq]
    rfl
  · intro c hc
    have hc : p.championOf (p.lossesOf values) = some c := hc
    unfold championOf at hc
    split at hc
    · exact h.champion_length c hc
    · split at hc
      · injection hc with hc
        subst hc
        exact (Store.length_programAt _ _).trans hvalid.programSize_eq
      · exact h.champion_length c hc

end Bounded

/-! ## How calls end -/

/-- No program stops the machine on a row of the samples. -/
def DividesSafely (p : Population k σ) : Prop :=
  ∀ program ∈ p.store.programs, ∀ instructions, program.instructions p.catalog = .ok instructions →
    ∀ row < p.layout.rows,
      ¬ Instruction.Stops instructions (p.layout.initialRegisters p.input.values row)

/-- Every slot of the store holds an opcode of the catalog. -/
theorem Valid.has_opcodeAt (h : p.Valid host options samples) {program instruction : Nat}
    (hprogram : program < p.store.programCount) (hinstruction : instruction < p.store.programSize) :
    p.catalog.Has (p.store.opcodeAt program instruction) := by
  have hwell := h.runnable.wellFormed
  exact Catalog.has_iff.mpr ⟨Store.opcodeAt_regular hwell hprogram hinstruction,
    h.runnable.below _ (hwell.slotAt_lt_size hprogram hinstruction.le)⟩

/-- Every program of the store has its instructions. -/
theorem Valid.exists_instructions (h : p.Valid host options samples) {program : Program}
    (hprogram : program ∈ p.store.programs) :
    ∃ instructions, program.instructions p.catalog = .ok instructions := by
  obtain ⟨index, hindex, rfl⟩ := List.mem_map.mp hprogram
  apply Program.Known.instructions
  intro opcode hopcode
  obtain ⟨instruction, hinstruction, rfl⟩ := List.mem_map.mp hopcode
  exact Catalog.has_iff_exists_instruction.mp
    (h.has_opcodeAt (List.mem_range.mp hindex) (List.mem_range.mp hinstruction))

/-- An evaluation succeeds when no program stops the machine. -/
theorem Valid.exists_evaluate (h : p.Valid host options samples) (hdivide : p.DividesSafely) :
    ∃ q, evaluate p = .ok () q := by
  obtain ⟨values, hvalues⟩ : ∃ values, p.outputs = .ok values := by
    apply exists_mapM_eq_ok
    intro program hprogram
    obtain ⟨instructions, hinstructions⟩ := h.exists_instructions hprogram
    exact (Program.exists_outputs_iff hinstructions).mpr
      (hdivide program hprogram instructions hinstructions)
  exact ⟨_, h.evaluate_eq_ok_iff.mpr ⟨values, hvalues, rfl⟩⟩

/-- An evaluation fails in no other way than by such a stop. -/
theorem Valid.evaluate_eq_error (h : p.Valid host options samples) (hdivide : ¬ p.DividesSafely) :
    evaluate p = .error (.breach .divideError) p.cleared.ran := by
  rw [h.evaluate_eq]
  cases hvalues : p.outputs with
  | error failure =>
      obtain ⟨program, hprogram, hfailure⟩ := exists_of_mapM_eq_error hvalues
      obtain ⟨instructions, hinstructions⟩ := h.exists_instructions hprogram
      rw [Program.outputs_eq_error hinstructions hfailure]
  | ok values =>
      refine absurd ?_ hdivide
      intro program hprogram instructions hinstructions
      exact (Program.exists_outputs_iff hinstructions).mp (exists_of_mapM_eq_ok hvalues hprogram)

/-- Replacement succeeds and changes nothing but the store. -/
theorem Valid.exists_replace (h : p.Valid host options samples) (hbounded : p.Bounded) :
    ∃ copies store, replace p = .ok copies { p with store } ∧ store.SameShape p.store := by
  obtain ⟨store, copies, hreproduce⟩ := h.runnable.wellFormed.exists_reproduce
    (h.programCount_eq.trans hbounded.wins_size.symm)
  refine ⟨copies, store, ?_, (h.runnable.reproduce hreproduce).2⟩
  rw [replace_eq, hreproduce]

/-- Without an unguarded division in the catalog, no program stops the machine. -/
theorem Valid.dividesSafely (h : p.Valid host options samples) (hguarded : options.allowUnsafe = false) :
    p.DividesSafely := by
  have hallowed : (p.options.catalogOptions k).allowUnsafe = false := by
    rw [h.options_eq]
    exact hguarded
  intro program _ instructions hinstructions row _
  exact Program.not_stops (Catalog.isUnsafe_of_build h.catalog_eq hallowed) hinstructions _

/-- Without a champion there is no best program, and this is no failure. -/
theorem bestProgram_of_none (hbest : p.best = none) (eliminate : Bool) :
    p.bestProgram eliminate = .ok none := by
  unfold bestProgram
  rw [hbest]

/-- The best program can be decoded. -/
theorem Valid.exists_instructions_best (h : p.Valid host options samples) {best : Program}
    (hbest : p.best = some best) :
    ∃ instructions, best.instructions p.catalog = .ok instructions := by
  obtain ⟨champion, hchampion, rfl⟩ := Option.map_eq_some_iff.mp hbest
  obtain ⟨values, hvalues, -⟩ := h.champion champion hchampion
  obtain ⟨instructions, hinstructions, -⟩ := Program.outputs_eq_ok_iff.mp hvalues
  exact ⟨instructions, hinstructions⟩

/-- The best program is handed out whenever there is one. -/
theorem Valid.exists_listing (h : p.Valid host options samples) (eliminate : Bool) :
    ∃ listing, p.bestListing eliminate = .ok listing := by
  unfold bestListing
  cases hbest : p.best with
  | none => exact ⟨none, by rw [bestProgram_of_none hbest]; rfl⟩
  | some best =>
      obtain ⟨instructions, hinstructions⟩ := h.exists_instructions_best hbest
      obtain ⟨program, compiled, hprogram, -⟩ := h.exists_bestProgram hbest hinstructions eliminate
      exact ⟨some (program.listing p.catalog), by rw [hprogram]; rfl⟩

/-- The best program can be compiled whenever there is one. -/
theorem Valid.exists_compiled (h : p.Valid host options samples) (eliminate : Bool) :
    ∃ compiled, p.compileBest eliminate = .ok compiled := by
  cases hbest : p.best with
  | none =>
      refine ⟨none, ?_⟩
      unfold compileBest
      rw [bestProgram_of_none hbest]
      rfl
  | some best =>
      obtain ⟨instructions, hinstructions⟩ := h.exists_instructions_best hbest
      obtain ⟨program, compiled, hprogram, hcompiled, -⟩ :=
        h.exists_bestProgram hbest hinstructions eliminate
      obtain ⟨c, hc, -⟩ := h.exists_compileBest hprogram hcompiled
      exact ⟨some c, hc⟩

variable [DrawSource σ]

/-- Mutation succeeds and changes nothing but the store and the source. -/
theorem Valid.exists_mutate (h : p.Valid host options samples) (hbounded : p.Bounded) :
    ∃ mutations store source, mutate p = .ok mutations { p with store, source } ∧
      store.SameShape p.store := by
  have hrate := hbounded.consistent.mutationRate_isChance
  obtain ⟨mutations, ⟨store, source⟩, hmutate⟩ :=
    h.runnable.wellFormed.exists_mutate p.catalog hrate p.source
  have hshape := (h.runnable.mutate p.options.mutationRate p.source).2
  rw [hmutate] at hshape
  refine ⟨mutations, store, source, ?_, hshape⟩
  unfold mutate
  rw [hmutate]

/-- A selection fails only by giving up. -/
theorem Bounded.givesUp_of_select (h : p.Bounded) {budget : Nat} {failure : Failure}
    (hfailure : outcome (select budget p) = .error failure) : Tournament.GivesUp failure := by
  rw [outcome_select] at hfailure
  exact Tournament.givesUp_of_select h.fits.size_eq h.consistent.tournamentSize_pos
    h.consistent.winCap_pos hfailure

/-! ## What calls keep -/

/-- Calls keep a population valid and within its bounds, also when they fail. -/
theorem stable_bounded :
    Stable (fun p : Population k σ => p.Valid host options samples ∧ p.Bounded) where
  evaluate := by
    rintro p ⟨h, hbounded⟩
    rw [h.evaluate_eq]
    cases hvalues : p.outputs with
    | error failure => exact ⟨h.cleared.ran, { hbounded with }⟩
    | ok values => exact ⟨h.scored hvalues, hbounded.scored h hvalues⟩
  select := by
    rintro budget p ⟨h, hbounded⟩
    refine ⟨keeps_select budget p h, ?_⟩
    have hfits := hbounded.fits.select budget p.source
    rw [endState_select]
    exact { hbounded with
      wins_size := hfits.size_eq.trans hbounded.losses_size
      wins_le := hfits.le_cap }
  replace := by
    rintro p ⟨h, hbounded⟩
    obtain ⟨copies, store, hreplace, hshape⟩ := h.exists_replace hbounded
    rw [hreplace]
    exact ⟨keeps_replace.of_eq_ok h hreplace, hbounded.withStore hshape p.source⟩
  mutate := by
    rintro p ⟨h, hbounded⟩
    obtain ⟨mutations, store, source, hmutate, hshape⟩ := h.exists_mutate hbounded
    rw [hmutate]
    exact ⟨keeps_mutate.of_eq_ok h hmutate, hbounded.withStore hshape source⟩
  advance := by
    rintro p ⟨h, hbounded⟩
    exact ⟨{ h with }, { hbounded with }⟩

/-- A population is bounded when it is created. -/
theorem bounded_of_create {source : σ} (h : create host options samples source = .ok p) :
    p.Bounded := by
  have hvalidate : options.validate = .ok () := by
    unfold create at h
    obtain ⟨_, hvalidate, -⟩ := bind_eq_ok_iff.mp h
    exact hvalidate
  obtain ⟨catalog, store, source', layout, code, input, output, -, hseeded, -, -, -, -, rfl⟩ :=
    create_eq_ok h
  exact {
    consistent := Options.validate_eq_ok_iff.mp hvalidate
    threads_eq := (runnable_of_seedStore hseeded).2.1
    losses_size := Array.size_replicate
    wins_size := Array.size_replicate
    wins_le := by
      intro w hw
      rw [Array.eq_of_mem_replicate hw]
      exact UInt8.le_iff_toNat_le.mpr (Nat.zero_le _)
    champion_length := by
      intro c hc
      cases hc }

/-! ## Soundness -/

/-- A population in good order: what it was made with is still there, and the rest is within its
bounds. -/
structure Sound (host : Host) (options : Options) (samples : SampleSet k) (p : Population k σ) : Prop
    extends Valid host options samples p where
  /-- Sentinels are in their places, and every other slot holds an opcode of the catalog. -/
  filled : p.store.Filled p.catalog.Has
  threads_eq : p.store.threads = options.threads
  wins_size : p.wins.size = options.populationSize
  wins_le : ∀ w ∈ p.wins, w ≤ options.winCap
  best : ∀ program, p.best = some program →
    program.length = options.programSize ∧ ∀ opcode ∈ program, p.catalog.Has opcode
  /-- Whatever is drawn for a tournament, a program of the population wins it. -/
  winner_lt : ∀ s : σ,
    p.tournament.winner (drawIndices p.tournament.population p.tournament.size s).1 < p.wins.size
  /-- The counts of a selection are exact however far it gets: nothing is subtracted from zero. -/
  tally : ∀ (budget : Nat) (s : σ),
    p.tournament.Tally (endState (p.tournament.run budget p.tournament.opening s)).1
  majorFrequency_pos : 0 < options.majorFrequency

/-- How calls to a population end.  A budget stands for the time that a selection takes, so running out
of it is no answer at all. -/
structure Serves (p : Population k σ) : Prop where
  evaluate : p.DividesSafely → ∃ q, Population.evaluate p = .ok () q
  divideError : ¬ p.DividesSafely → Population.evaluate p = .error (.breach .divideError) p.cleared.ran
  select : ∀ budget failure, outcome (Population.select budget p) = .error failure →
    Tournament.GivesUp failure
  reproduce : ∃ copies q, Population.reproduce p = .ok copies q
  mutate : ∃ mutations q, Population.mutate p = .ok mutations q
  next : p.DividesSafely → ∀ budget failure,
    outcome (Population.next budget p) = .error failure → Tournament.GivesUp failure
  bestListing : ∀ eliminate, ∃ listing, p.bestListing eliminate = .ok listing
  compileBest : ∀ eliminate, ∃ compiled, p.compileBest eliminate = .ok compiled

namespace Valid

/-- What is kept by all calls makes a population sound. -/
theorem sound (h : p.Valid host options samples) (hbounded : p.Bounded) : p.Sound host options samples := by
  have hoptions := h.options_eq
  subst hoptions
  have hconsistent := hbounded.consistent
  have hpopulation : 0 < p.tournament.population := by
    show 0 < p.losses.size
    rw [hbounded.losses_size]
    exact hconsistent.populationSize_pos
  exact { h with
    filled := h.runnable.wellFormed.filled fun _ hprogram _ hinstruction =>
      h.has_opcodeAt hprogram hinstruction
    threads_eq := hbounded.threads_eq
    wins_size := hbounded.wins_size
    wins_le := hbounded.wins_le
    best := by
      intro best hbest
      obtain ⟨instructions, hinstructions⟩ := h.exists_instructions_best hbest
      obtain ⟨champion, hchampion, rfl⟩ := Option.map_eq_some_iff.mp hbest
      refine ⟨hbounded.champion_length champion hchampion, fun opcode hopcode => ?_⟩
      exact Catalog.has_iff_exists_instruction.mpr
        (Program.known_of_instructions hinstructions opcode hopcode)
    winner_lt := by
      intro s
      rw [hbounded.fits.size_eq]
      exact Tournament.winner_lt hpopulation hconsistent.tournamentSize_pos s
    tally := fun budget s => (Tournament.Tally.opening p.tournament).run budget s
    majorFrequency_pos := hconsistent.majorFrequency_pos }

/-- Reproduction never fails. -/
theorem exists_reproduce (h : p.Valid host options samples) (hbounded : p.Bounded) :
    ∃ copies q, reproduce p = .ok copies q := by
  obtain ⟨copies, store, hreplace, -⟩ := h.exists_replace hbounded
  have hkept := stable_bounded.replace.of_eq_ok ⟨h, hbounded⟩ hreplace
  obtain ⟨mutations, store', source, hmutate, -⟩ := hkept.1.exists_mutate hkept.2
  unfold reproduce
  rw [bind_of_eq_ok hreplace, bind_of_eq_ok hmutate]
  exact ⟨copies, _, rfl⟩

/-- A generation fails only in its selection, after an evaluation. -/
theorem next_of_failed (h : p.Valid host options samples) (hbounded : p.Bounded)
    (hdivide : p.DividesSafely) {budget : Nat} {failure : Failure}
    (hfailure : outcome (next budget p) = .error failure) :
    ∃ q, evaluate p = .ok () q ∧ select budget q = .error failure (endState (next budget p)) := by
  obtain ⟨q, hevaluate⟩ := h.exists_evaluate hdivide
  have hq := stable_bounded.evaluate.of_eq_ok ⟨h, hbounded⟩ hevaluate
  refine ⟨q, hevaluate, ?_⟩
  unfold next at hfailure ⊢
  rw [bind_of_eq_ok hevaluate] at hfailure ⊢
  cases hselect : select budget q with
  | error failed r =>
      rw [bind_of_eq_error hselect] at hfailure ⊢
      injection hfailure with hfailure
      rw [hfailure]
      rfl
  | ok selected r =>
      have hr := (stable_bounded.select budget).of_eq_ok hq hselect
      obtain ⟨copies, t, hreproduce⟩ := hr.1.exists_reproduce hr.2
      rw [bind_of_eq_ok hselect, bind_of_eq_ok hreproduce] at hfailure
      cases hfailure

/-- A generation without faulty divisions can only fail by giving up its selection. -/
theorem givesUp_of_next (h : p.Valid host options samples) (hbounded : p.Bounded)
    (hdivide : p.DividesSafely) {budget : Nat} {failure : Failure}
    (hfailure : outcome (next budget p) = .error failure) : Tournament.GivesUp failure := by
  obtain ⟨q, hevaluate, hselect⟩ := h.next_of_failed hbounded hdivide hfailure
  have hq := stable_bounded.evaluate.of_eq_ok ⟨h, hbounded⟩ hevaluate
  exact hq.2.givesUp_of_select (congrArg outcome hselect)

/-- What is kept by all calls lets every operation succeed as `Serves` says. -/
theorem serves (h : p.Valid host options samples) (hbounded : p.Bounded) : p.Serves where
  evaluate := h.exists_evaluate
  divideError := h.evaluate_eq_error
  select _ _ := hbounded.givesUp_of_select
  reproduce := h.exists_reproduce hbounded
  mutate := by
    obtain ⟨mutations, store, source, hmutate, -⟩ := h.exists_mutate hbounded
    exact ⟨mutations, _, hmutate⟩
  next hdivide _ _ := h.givesUp_of_next hbounded hdivide
  bestListing := h.exists_listing
  compileBest := h.exists_compiled

end Valid

/-- However a population is treated, it stays in good order and serves. -/
theorem run_sound {source : σ} (hcreate : create host options samples source = .ok p)
    (calls : List Call) :
    (run calls p).2.Sound host options samples ∧ (run calls p).2.Serves := by
  obtain ⟨h, hbounded⟩ :=
    stable_bounded.run ⟨valid_of_create hcreate, bounded_of_create hcreate⟩ calls
  exact ⟨h.sound hbounded, h.serves hbounded⟩

private def handful : Options where
  populationSize := 4
  threads := 2
  demeSize := 2
  tournamentSize := 3
  programSize := 2
  instructions := some [.dec, .neg]
  moves := some []

/-- Four programs whose first selection collapses, as nothing has been evaluated yet.  They go on from
there. -/
theorem run_sound_handful : ∃ (samples : SampleSet .i64) (p : Population .i64 Pcg64),
    SampleSet.scalar 1 [⟨#[3], 2⟩, ⟨#[8], 7⟩] = .ok samples ∧
    create .full handful samples (.ofSeed 11) = .ok p ∧
    (run [.select 9, .mutate, .next 30, .reproduce] p).1[0]? =
      some (.error (.error (.populationCollapsed 5))) ∧
    (run [.select 9, .mutate, .next 30, .reproduce] p).2.Sound .full handful samples ∧
    (run [.select 9, .mutate, .next 30, .reproduce] p).2.Serves ∧
    ∃ q, evaluate (run [.select 9, .mutate, .next 30, .reproduce] p).2 = .ok () q := by
  have hsamples : SampleSet.scalar 1 [⟨#[3], 2⟩, ⟨#[8], 7⟩] =
      .ok (⟨#[3, 8], #[2, 7], 2, 1, 1⟩ : SampleSet .i64) := rfl
  have hrun : (match create .full handful (⟨#[3, 8], #[2, 7], 2, 1, 1⟩ : SampleSet .i64)
        (Pcg64.ofSeed 11) with
      | .ok p => decide ((run [.select 9, .mutate, .next 30, .reproduce] p).1[0]? =
          some (.error (.error (.populationCollapsed 5))))
      | .error _ => false) = true := by decide +kernel
  split at hrun
  · next p hcreate =>
    obtain ⟨hsound, hserves⟩ := run_sound hcreate [.select 9, .mutate, .next 30, .reproduce]
    have hdivide := hsound.toValid.dividesSafely rfl
    exact ⟨_, p, hsamples, hcreate, of_decide_eq_true hrun, hsound, hserves,
      hserves.evaluate hdivide⟩
  · cases hrun

end Population

end LinearGP
