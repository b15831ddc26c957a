import Mathlib
import LinearGP.Proofs.Catalog.Opcodes
import LinearGP.Proofs.Store.Addressing
import LinearGP.Random.Pcg

/-!
# What mutation draws, and where it goes

Mutation tosses for one instruction after the other.  What it asks of the source of draws depends on the
number of instructions only: `tosses` lists the redrawn opcodes in order, and `Store.Redrawn` says that
they are in their slots and that nothing else has changed.  So neither the threads of a store nor its old
opcodes matter to the draws.  Randomizing is the same without the coins.

A `Logged` source keeps its answers, coins included, so that the order of all draws can be read from it.
-/

set_option autoImplicit false

namespace LinearGP

variable {σ τ κ : Type}

/-! ## Draws in order -/

/-- Draw a number of times, each time from where the last draw left the source. -/
def drawAll {α : Type} (draw : σ → α × σ) : Nat → σ → List α × σ
  | 0, s => ([], s)
  | count + 1, s => ((draw s).1 :: (drawAll draw count (draw s).2).1, (drawAll draw count (draw s).2).2)

/-- As many draws are made as were asked for. -/
@[simp] theorem length_drawAll {α : Type} (draw : σ → α × σ) (count : Nat) (s : σ) :
    (drawAll draw count s).1.length = count := by
  induction count generalizing s with
  | zero => rfl
  | succ count ih => simp [drawAll, ih]

/-- What holds of every draw holds of all that were made. -/
theorem forall_mem_drawAll {α : Type} {draw : σ → α × σ} (good : α → Prop)
    (hgood : ∀ s, good (draw s).1) (count : Nat) (s : σ) : ∀ a ∈ (drawAll draw count s).1, good a := by
  induction count generalizing s with
  | zero => simp [drawAll]
  | succ count ih => exact List.forall_mem_cons.mpr ⟨hgood s, ih _⟩

section Source

variable [DrawSource σ]

/-- Draw an opcode. -/
def drawn (low high : Opcode) (s : σ) : Option Opcode × σ :=
  (some (DrawSource.opcode low high s).1, (DrawSource.opcode low high s).2)

/-- Toss a coin, and draw an opcode right after it if it fell true. -/
def tossed (low high : Opcode) (rate : Binary64) (s : σ) : Option Opcode × σ :=
  if (DrawSource.coin rate s).1 then drawn low high (DrawSource.coin rate s).2
  else (none, (DrawSource.coin rate s).2)

end Source

/-! ## Sources that keep their answers -/

/-- What a source of draws was asked for, and what it answered. -/
inductive Answer where
  | index (bound i : Nat)
  | opcode (low high opcode : Opcode)
  | coin (chance : Binary64) (result : Bool)
deriving DecidableEq

/-- A source with the answers that it has given, the first one first. -/
structure Logged (σ : Type) where
  source : σ
  log : List Answer

instance [DrawSource σ] : DrawSource (Logged σ) where
  index bound s :=
    let (i, source) := DrawSource.index bound s.source
    (i, { source, log := s.log ++ [.index bound i] })
  opcode low high s :=
    let (opcode, source) := DrawSource.opcode low high s.source
    (opcode, { source, log := s.log ++ [.opcode low high opcode] })
  coin chance s :=
    let (result, source) := DrawSource.coin chance s.source
    (result, { source, log := s.log ++ [.coin chance result] })
  index_lt bound s := DrawSource.index_lt bound s.source
  opcode_mem low high s := DrawSource.opcode_mem low high s.source

/-- The answers that one draw of an opcode leaves. -/
def drawnAnswers (low high : Opcode) (redraw : Option Opcode) : List Answer :=
  redraw.toList.map (.opcode low high)

/-- The answers that one toss leaves: that of the coin, and the opcode if there is one. -/
def tossedAnswers (low high : Opcode) (rate : Binary64) (redraw : Option Opcode) : List Answer :=
  .coin rate redraw.isSome :: drawnAnswers low high redraw

/-- A log changes no answer. -/
theorem drawAll_logged {α : Type} {draw : σ → α × σ} {logged : Logged σ → α × Logged σ}
    {answers : α → List Answer}
    (hlogged : ∀ s, logged s =
      ((draw s.source).1, { source := (draw s.source).2, log := s.log ++ answers (draw s.source).1 }))
    (count : Nat) (s : Logged σ) :
    drawAll logged count s = ((drawAll draw count s.source).1,
      { source := (drawAll draw count s.source).2
        log := s.log ++ (drawAll draw count s.source).1.flatMap answers }) := by
  induction count generalizing s with
  | zero => simp [drawAll]
  | succ count ih => simp [drawAll, hlogged, ih]

section Source

variable [DrawSource σ] (low high : Opcode) (rate : Binary64)

/-- Drawing from a logged source is drawing from its source, with the answer written down. -/
theorem drawn_logged (s : Logged σ) :
    drawn low high s = ((drawn low high s.source).1,
      { source := (drawn low high s.source).2
        log := s.log ++ drawnAnswers low high (drawn low high s.source).1 }) := rfl

/-- Tossing from a logged source is tossing from its source, with the answers written down. -/
theorem tossed_logged (s : Logged σ) :
    tossed low high rate s = ((tossed low high rate s.source).1,
      { source := (tossed low high rate s.source).2
        log := s.log ++ tossedAnswers low high rate (tossed low high rate s.source).1 }) := by
  have hcoin : DrawSource.coin rate s = ((DrawSource.coin rate s.source).1,
      { source := (DrawSource.coin rate s.source).2
        log := s.log ++ [.coin rate (DrawSource.coin rate s.source).1] }) := rfl
  unfold tossed
  rw [hcoin]
  cases (DrawSource.coin rate s.source).1 with
  | false => rfl
  | true =>
      simp only [if_true, drawn_logged, tossedAnswers, List.append_assoc, List.singleton_append]
      rfl

end Source

/-! ## Where the draws go -/

/-- Instructions are redrawn in the order of the programs: some get a new opcode, and all other slots,
those of sentinels included, are as before. -/
structure Store.Redrawn (s t : Store) (redraws : List (Option Opcode)) : Prop where
  eq : t = { s with slots := t.slots }
  size_eq : t.slots.size = s.slots.size
  length_eq : redraws.length = s.programCount * s.programSize
  get : ∀ program < s.programCount, ∀ instruction < s.programSize, ∀ redraw,
    redraws[program * s.programSize + instruction]? = some redraw →
    t.get program instruction = redraw.elim (s.get program instruction) .ok
  kept : ∀ i, (∀ program instruction, s.offset program instruction ≠ .ok i) →
    t.slots[i]? = s.slots[i]?

/-- A function that draws, whatever the opcode is that it replaces. -/
def Redraws (f : κ → Opcode → EStateM Failure τ Opcode) (draw : τ → Option Opcode × τ) : Prop :=
  ∀ key opcode state, f key opcode state = .ok ((draw state).1.getD opcode) (draw state).2

/-- Calls of such a function draw in order. -/
theorem Redraws.callAll {f : κ → Opcode → EStateM Failure τ Opcode} {draw : τ → Option Opcode × τ}
    (hf : Redraws f draw) (calls : List (κ × Opcode)) (state : τ) :
    LinearGP.callAll f calls state = .ok
      (List.zipWith (fun redraw call => redraw.getD call.2) (drawAll draw calls.length state).1 calls)
      (drawAll draw calls.length state).2 := by
  induction calls generalizing state with
  | nil => rfl
  | cons call calls ih =>
      exact callAll_cons_eq_ok_iff.mpr ⟨_, _, _, hf call.1 call.2 state, ih _, rfl⟩

namespace Store

/-- Position `program * programSize + instruction` is that of an instruction. -/
theorem getElem?_positions {programs programSize program instruction : Nat}
    (hprogram : program < programs) (hinstruction : instruction < programSize) :
    (positions programs programSize)[program * programSize + instruction]? =
      some (program, instruction) := by
  unfold positions
  rw [getElem?_flatMap_range (by simp) hprogram hinstruction, List.getElem?_map,
    List.getElem?_range hinstruction]
  rfl

/-- There is one position for every instruction of every program. -/
theorem length_positions (programs programSize : Nat) :
    (positions programs programSize).length = programs * programSize :=
  length_flatMap_range (by simp)

/-- Slots that are rewritten by what was drawn for them, or else by themselves, are redrawn. -/
theorem redrawn_of_rewritten {s : Store} (h : s.WellFormed) {slots : Array Opcode}
    {redraws : List (Option Opcode)} (hlength : redraws.length = s.programCount * s.programSize)
    (hwritten : Rewritten s.slots slots
      ((positions s.programCount s.programSize).map fun x => s.slotAt x.1 x.2)
      (List.zipWith (fun redraw call => redraw.getD call.2) redraws s.visits)) :
    s.Redrawn { s with slots } redraws where
  eq := rfl
  size_eq := hwritten.size_eq
  length_eq := hlength
  get := by
    intro program hprogram instruction hinstruction redraw hredraw
    have hposition := getElem?_positions hprogram hinstruction
    have hslot : slots[s.slotAt program instruction]? =
        some (redraw.getD (s.opcodeAt program instruction)) := by
      apply hwritten.written (program * s.programSize + instruction)
      · rw [List.getElem?_map, hposition, Option.map_some]
      · rw [List.getElem?_zipWith, hredraw, visits, List.getElem?_map, hposition, Option.map_some]
    have hoffset : ({ s with slots } : Store).offset program instruction =
        .ok (s.slotAt program instruction) :=
      (offset_eq_ok_iff h program instruction _).mpr ⟨⟨hprogram, hinstruction⟩, rfl⟩
    rw [get_eq h hprogram hinstruction, Store.get, hoffset, Except.map, Array.getD_eq_getD_getElem?,
      hslot]
    cases redraw <;> rfl
  kept := by
    intro i hi
    -- only the slots of instructions are written, and those have an offset
    refine hwritten.kept i fun hmem => ?_
    obtain ⟨x, hx, rfl⟩ := List.mem_map.mp (List.mem_of_mem_take hmem)
    exact hi x.1 x.2 ((offset_eq_ok_iff h _ _ _).mpr ⟨mem_positions.mp hx, rfl⟩)

/-- A pass of a function that draws regular opcodes succeeds, and redraws the instructions in order. -/
theorem transform_redraws {s : Store} (h : s.WellFormed) {f : Place → Opcode → EStateM Failure τ Opcode}
    {draw : τ → Option Opcode × τ} (hf : Redraws f draw)
    (hregular : ∀ state, ∀ opcode ∈ (draw state).1, opcode.isSentinel = false) (state : τ) :
    ∃ t, Store.transform f (s, state) =
        .ok () (t, (drawAll draw (s.programCount * s.programSize) state).2) ∧
      s.Redrawn t (drawAll draw (s.programCount * s.programSize) state).1 ∧ t.WellFormed := by
  have hcount : s.visits.length = s.programCount * s.programSize := by
    rw [visits, List.length_map, length_positions]
  have hcalls := hf.callAll s.visits state
  rw [hcount] at hcalls
  have hresults : ∀ result ∈ List.zipWith (fun redraw call => redraw.getD call.2)
      (drawAll draw (s.programCount * s.programSize) state).1 s.visits, result.isSentinel = false := by
    intro result hresult
    rw [← List.map_uncurry_zip_eq_zipWith] at hresult
    obtain ⟨⟨redraw, call⟩, hmem, rfl⟩ := List.mem_map.mp hresult
    obtain ⟨hredraw, hcall⟩ := List.of_mem_zip hmem
    cases redraw with
    | some opcode =>
        exact forall_mem_drawAll (fun redraw => ∀ opcode ∈ redraw, opcode.isSentinel = false) hregular
          _ _ _ hredraw opcode rfl
    | none =>
        -- an opcode that stays was in the slot of an instruction
        obtain ⟨x, hx, rfl⟩ := List.mem_map.mp hcall
        exact opcodeAt_regular h (mem_positions.mp hx).1 (mem_positions.mp hx).2
  obtain ⟨slots, hpass, hwritten, -⟩ := (rewrites_transform h).completes f state _ _ hcalls hresults
  have hwell := h.transform f state
  rw [hpass] at hwell
  exact ⟨_, hpass, redrawn_of_rewritten h (length_drawAll _ _ _) hwritten, hwell⟩

/-- Stores of the same dimensions whose instructions are redrawn alike have the same programs afterwards,
where their old ones are the same or do not matter. -/
theorem Redrawn.same {s s' t t' : Store} {redraws : List (Option Opcode)} (hs : s.WellFormed)
    (hs' : s'.WellFormed) (ht : t.WellFormed) (ht' : t'.WellFormed) (h : s.Redrawn t redraws)
    (h' : s'.Redrawn t' redraws) (hcount : s.programCount = s'.programCount)
    (hsize : s.programSize = s'.programSize) (hold : none ∈ redraws → s.Same s') : t.Same t' := by
  have hdimensions : (t.programCount = s.programCount ∧ t.programSize = s.programSize) ∧
      t'.programCount = s'.programCount ∧ t'.programSize = s'.programSize := by
    rw [h.eq, h'.eq]
    exact ⟨⟨rfl, rfl⟩, rfl, rfl⟩
  obtain ⟨⟨htcount, htsize⟩, htcount', htsize'⟩ := hdimensions
  refine ⟨by omega, by omega, fun program hprogram instruction hinstruction => ?_⟩
  have hget : t.get program instruction = t'.get program instruction := by
    rw [htcount] at hprogram
    rw [htsize] at hinstruction
    have hk : program * s.programSize + instruction < redraws.length := by
      rw [h.length_eq]
      exact mul_add_lt_mul hprogram hinstruction
    obtain ⟨redraw, hredraw⟩ : ∃ redraw, redraws[program * s.programSize + instruction]? = some redraw :=
      ⟨_, List.getElem?_eq_getElem hk⟩
    have hredraw' : redraws[program * s'.programSize + instruction]? = some redraw := by
      rw [← hsize]
      exact hredraw
    rw [h.get program hprogram instruction hinstruction redraw hredraw,
      h'.get program (by omega) instruction (by omega) redraw hredraw']
    cases redraw with
    | some opcode => rfl
    | none => exact (hold (List.mem_of_getElem? hredraw)).get_eq hs hs' program instruction
  rw [Store.get_eq ht hprogram hinstruction, Store.get_eq ht' (by omega) (by omega)] at hget
  exact Except.ok.inj hget

end Store

/-! ## Randomizing and mutating -/

section Source

variable [DrawSource σ] {low high : Opcode} {rate : Binary64}

/-- There is always an opcode drawn, and it is within the bounds. -/
theorem mem_drawn (hrange : low < high) (s : σ) :
    ∃ opcode, (drawn low high s).1 = some opcode ∧ low ≤ opcode ∧ opcode < high :=
  ⟨_, rfl, DrawSource.opcode_mem low high s hrange⟩

/-- An opcode that is drawn after a toss is within the bounds. -/
theorem mem_tossed (hrange : low < high) (s : σ) :
    ∀ opcode ∈ (tossed low high rate s).1, low ≤ opcode ∧ opcode < high := by
  intro opcode hopcode
  unfold tossed at hopcode
  split at hopcode
  · obtain ⟨drawnOpcode, hdrawn, hmem⟩ := mem_drawn hrange (DrawSource.coin rate s).2
    cases hdrawn.symm.trans hopcode
    exact hmem
  · cases hopcode

/-- Randomisation draws once for every slot. -/
theorem redraws_drawOpcode (hrange : low < high) :
    Redraws (fun (_ : κ) (_ : Opcode) => drawOpcode low high) (drawn (σ := σ) low high) := by
  intro key opcode s
  simp only [drawOpcode, hrange, if_true]
  rfl

/-- Toss, draw, and count the coins that fell true. -/
def countedToss (low high : Opcode) (rate : Binary64) (state : Nat × σ) : Option Opcode × (Nat × σ) :=
  ((tossed low high rate state.2).1,
    (state.1 + (tossed low high rate state.2).1.toList.length, (tossed low high rate state.2).2))

/-- Mutation tosses once for every slot, and counts the coins that fell true. -/
theorem redraws_mutateInstruction (hrange : low < high) (hrate : rate.isChance = true) :
    Redraws (fun (_ : κ) => mutateInstruction (σ := σ) low high rate) (countedToss low high rate) := by
  rintro key opcode ⟨count, s⟩
  simp only [mutateInstruction, tossCoin, hrate, if_true, countedToss, tossed]
  cases (DrawSource.coin rate s).1 with
  | false => rfl
  | true =>
      simp only [drawOpcode, hrange, if_true]
      rfl

/-- Counted tosses are tosses, and the count is that of the coins that fell true. -/
theorem drawAll_countedToss (slots count : Nat) (s : σ) :
    drawAll (countedToss low high rate) slots (count, s) =
      ((drawAll (tossed low high rate) slots s).1,
        (count + (drawAll (tossed low high rate) slots s).1.countP (·.isSome),
          (drawAll (tossed low high rate) slots s).2)) := by
  induction slots generalizing count s with
  | zero => rfl
  | succ slots ih =>
      simp only [drawAll, countedToss, ih, List.countP_cons]
      cases (tossed low high rate s).1 with
      | none => simp
      | some opcode => simp [Nat.add_assoc, Nat.add_comm 1]

end Source

namespace Store

section Source

variable [DrawSource σ]

/-- The opcodes that randomizing a store draws, in order. -/
def draws (s : Store) (low high : Opcode) (source : σ) : List (Option Opcode) × σ :=
  drawAll (drawn low high) (s.programCount * s.programSize) source

/-- What the tosses of a mutation give, in order. -/
def tosses (s : Store) (low high : Opcode) (rate : Binary64) (source : σ) : List (Option Opcode) × σ :=
  drawAll (tossed low high rate) (s.programCount * s.programSize) source

variable {s : Store} {low high : Opcode} {rate : Binary64}

/-- Randomisation draws an opcode within the bounds for every slot. -/
theorem mem_draws (hrange : low < high) (source : σ) : ∀ redraw ∈ (s.draws low high source).1,
    ∃ opcode, redraw = some opcode ∧ low ≤ opcode ∧ opcode < high :=
  forall_mem_drawAll (fun redraw => ∃ opcode, redraw = some opcode ∧ low ≤ opcode ∧ opcode < high)
    (mem_drawn hrange) _ _

/-- Mutation draws opcodes within the bounds only. -/
theorem mem_tosses (hrange : low < high) (source : σ) :
    ∀ redraw ∈ (s.tosses low high rate source).1, ∀ opcode ∈ redraw, low ≤ opcode ∧ opcode < high :=
  forall_mem_drawAll (fun redraw => ∀ opcode ∈ redraw, low ≤ opcode ∧ opcode < high)
    (mem_tossed hrange) _ _

/-- Randomizing succeeds, and draws once for each instruction. -/
theorem randomize_redraws (h : s.WellFormed) (hlow : Opcode.first ≤ low) (hrange : low < high)
    (source : σ) :
    ∃ t, LinearGP.randomize low high (s, source) = .ok () (t, (s.draws low high source).2) ∧
      s.Redrawn t (s.draws low high source).1 ∧ t.WellFormed := by
  refine transform_redraws h (redraws_drawOpcode hrange) (fun state opcode hopcode => ?_) source
  obtain ⟨drawnOpcode, hdrawn, hmem⟩ := mem_drawn hrange state
  cases hdrawn.symm.trans hopcode
  exact Opcode.isSentinel_eq_false (UInt16.le_trans hlow hmem.1)

/-- Mutating succeeds, tosses once for each instruction and counts the coins that fell true. -/
theorem mutate_redraws (h : s.WellFormed) (hlow : Opcode.first ≤ low) (hrange : low < high)
    (hrate : rate.isChance = true) (source : σ) :
    ∃ t, LinearGP.mutate low high rate (s, source) =
        .ok ((s.tosses low high rate source).1.countP (·.isSome))
          (t, (s.tosses low high rate source).2) ∧
      s.Redrawn t (s.tosses low high rate source).1 ∧ t.WellFormed := by
  obtain ⟨t, hpass, hredrawn⟩ := transform_redraws h (redraws_mutateInstruction hrange hrate)
    (fun state opcode hopcode => Opcode.isSentinel_eq_false
      (UInt16.le_trans hlow (mem_tossed hrange state.2 opcode hopcode).1)) (0, source)
  rw [drawAll_countedToss, Nat.zero_add] at hpass hredrawn
  refine ⟨t, ?_, hredrawn⟩
  rw [LinearGP.mutate, hpass]
  rfl

end Source

/-- What randomizing and mutating a store come to, from a source of draws. -/
structure Redrawing {σ : Type} [DrawSource σ] (s : Store) (low high : Opcode) (rate : Binary64)
    (source : σ) : Prop where
  /-- Randomizing succeeds, and every instruction gets the opcode that is drawn for it. -/
  randomize : ∃ t, LinearGP.randomize low high (s, source) = .ok () (t, (s.draws low high source).2) ∧
    s.Redrawn t (s.draws low high source).1
  mem_draws : ∀ redraw ∈ (s.draws low high source).1,
    ∃ opcode, redraw = some opcode ∧ low ≤ opcode ∧ opcode < high
  /-- Mutating succeeds, and the instructions whose coins fall true are counted and get the opcodes that
  are drawn for them. -/
  mutate : ∃ t, LinearGP.mutate low high rate (s, source) =
      .ok ((s.tosses low high rate source).1.countP (·.isSome)) (t, (s.tosses low high rate source).2) ∧
    s.Redrawn t (s.tosses low high rate source).1
  mem_tosses : ∀ redraw ∈ (s.tosses low high rate source).1, ∀ opcode ∈ redraw,
    low ≤ opcode ∧ opcode < high
  /-- Randomizing asks for the opcodes, and for nothing else. -/
  randomize_log : ∃ t, LinearGP.randomize low high (s, Logged.mk source []) =
      .ok () (t, { source := (s.draws low high source).2
                   log := (s.draws low high source).1.flatMap (drawnAnswers low high) }) ∧
    s.Redrawn t (s.draws low high source).1
  /-- Mutating asks for one coin after the other, and for an opcode right after each that falls true. -/
  mutate_log : ∃ t, LinearGP.mutate low high rate (s, Logged.mk source []) =
      .ok ((s.tosses low high rate source).1.countP (·.isSome))
        (t, { source := (s.tosses low high rate source).2
              log := (s.tosses low high rate source).1.flatMap (tossedAnswers low high rate) }) ∧
    s.Redrawn t (s.tosses low high rate source).1
  /-- Stores of the same dimensions are randomized alike, whatever their threads are. -/
  randomize_threads : ∀ s' : Store, s'.Reachable → s.programCount = s'.programCount →
    s.programSize = s'.programSize → ∃ t t' last,
      LinearGP.randomize low high (s, source) = .ok () (t, last) ∧
      LinearGP.randomize low high (s', source) = .ok () (t', last) ∧ t.Same t'
  /-- Stores of the same programs are mutated alike, whatever their threads are. -/
  mutate_threads : ∀ s' : Store, s'.Reachable → s.Same s' → ∃ t t' count last,
      LinearGP.mutate low high rate (s, source) = .ok count (t, last) ∧
      LinearGP.mutate low high rate (s', source) = .ok count (t', last) ∧ t.Same t'

section Source

variable {σ : Type} [DrawSource σ] {s : Store} {low high : Opcode} {rate : Binary64}

/-- Randomizing and mutating an initialized store succeed, and account for exactly what they redraw. -/
theorem redrawing_of_reachable (h : s.Reachable) (hlow : Opcode.first ≤ low) (hrange : low < high)
    (hrate : rate.isChance = true) (source : σ) : s.Redrawing low high rate source where
  randomize := by
    obtain ⟨t, hpass, hredrawn, -⟩ := randomize_redraws h.wellFormed hlow hrange source
    exact ⟨t, hpass, hredrawn⟩
  mem_draws := mem_draws hrange source
  mutate := by
    obtain ⟨t, hpass, hredrawn, -⟩ := mutate_redraws h.wellFormed hlow hrange hrate source
    exact ⟨t, hpass, hredrawn⟩
  mem_tosses := mem_tosses hrange source
  -- the same passes, with a source that keeps its answers
  randomize_log := by
    obtain ⟨t, hpass, hredrawn, -⟩ :=
      randomize_redraws h.wellFormed hlow hrange (Logged.mk source [])
    rw [draws, drawAll_logged (drawn_logged low high)] at hpass hredrawn
    exact ⟨t, hpass, hredrawn⟩
  mutate_log := by
    obtain ⟨t, hpass, hredrawn, -⟩ :=
      mutate_redraws h.wellFormed hlow hrange hrate (Logged.mk source [])
    rw [tosses, drawAll_logged (tossed_logged low high rate)] at hpass hredrawn
    exact ⟨t, hpass, hredrawn⟩
  -- what is drawn depends on the size of the store, and not on its threads
  randomize_threads := by
    intro s' h' hcount hsize
    obtain ⟨t, hpass, hredrawn, ht⟩ := randomize_redraws h.wellFormed hlow hrange source
    obtain ⟨t', hpass', hredrawn', ht'⟩ := randomize_redraws h'.wellFormed hlow hrange source
    have hdraws : s'.draws low high source = s.draws low high source := by
      rw [draws, draws, hcount, hsize]
    rw [hdraws] at hpass' hredrawn'
    refine ⟨t, t', _, hpass, hpass',
      hredrawn.same h.wellFormed h'.wellFormed ht ht' hredrawn' hcount hsize fun hnone => ?_⟩
    obtain ⟨opcode, hopcode, -⟩ := mem_draws hrange source none hnone
    cases hopcode
  mutate_threads := by
    intro s' h' hsame
    obtain ⟨t, hpass, hredrawn, ht⟩ := mutate_redraws h.wellFormed hlow hrange hrate source
    obtain ⟨t', hpass', hredrawn', ht'⟩ := mutate_redraws h'.wellFormed hlow hrange hrate source
    have htosses : s'.tosses low high rate source = s.tosses low high rate source := by
      rw [tosses, tosses, hsame.programCount_eq, hsame.programSize_eq]
    rw [htosses] at hpass' hredrawn'
    exact ⟨t, t', _, _, hpass, hpass', hredrawn.same h.wellFormed h'.wellFormed ht ht' hredrawn'
      hsame.programCount_eq hsame.programSize_eq fun _ => hsame⟩

/-- Two threads of two programs each, mutated with a chance of one half. -/
theorem redrawing_two :
    ∃ s : Store, s.Reachable ∧ s.slots = #[2, 2, 0, 2, 2, 0, 1, 2, 2, 0, 2, 5, 0, 1] ∧
      s.Redrawing 3 9 ⟨0x3FE0000000000000#64⟩ (Pcg64.ofSeed 7) := by
  have hcreate : create 2 4 2 = .ok {
      threads := 2, perThread := 2, programSize := 2, slots := Array.replicate 14 Opcode.END
      initialized := false } := rfl
  have hreachable := (Reachable.prepare hcreate rfl).set (rfl : Store.set _ 3 1 5 = .ok _)
  exact ⟨_, hreachable, rfl, redrawing_of_reachable hreachable (by decide) (by decide) (by decide) _⟩

end Source

end Store

end LinearGP
