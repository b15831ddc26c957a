import Mathlib
import LinearGP.Proofs.Store.Passes
import LinearGP.Proofs.Store.Reachable

/-!
# Rewriting programs through a function

Transforming a store and copying a program through a function are both one pass from left to right:
a function is called on the opcodes that the store held before, and its results go into the target
slots, until one of them is a sentinel or the function fails.  `Rewrites` says so for a list of
calls and a list of targets.  No pass reads a slot that it wrote before, which is all that it takes:
`rewrites_of_fresh`.
-/

set_option autoImplicit false

namespace LinearGP

variable {σ κ : Type}

/-! ## Calls of a function -/

/-- Call a function on one opcode after the other, and return its results. -/
def callAll (f : κ → Opcode → EStateM Failure σ Opcode) (calls : List (κ × Opcode)) :
    EStateM Failure σ (List Opcode) :=
  calls.mapM fun call => f call.1 call.2

/-- A function that keeps a record of its calls. -/
def recorded (f : κ → Opcode → EStateM Failure σ Opcode) :
    κ → Opcode → EStateM Failure (σ × List (κ × Opcode)) Opcode := fun key opcode (state, made) =>
  match f key opcode state with
  | .ok result state => .ok result (state, made ++ [(key, opcode)])
  | .error failure state => .error failure (state, made ++ [(key, opcode)])

/-- A call that ends a pass: its result is a sentinel, or it fails. -/
inductive Stops (f : κ → Opcode → EStateM Failure σ Opcode) (call : κ × Opcode) (state : σ) :
    Failure → σ → Prop
  | sentinel {result : Opcode} {state' : σ} (hcall : f call.1 call.2 state = .ok result state')
      (hresult : result.isSentinel = true) :
      Stops f call state (.error (.sentinelOpcode result)) state'
  | failed {failure : Failure} {state' : σ} (hcall : f call.1 call.2 state = .error failure state') :
      Stops f call state failure state'

section Calls

variable {f : κ → Opcode → EStateM Failure σ Opcode} {calls : List (κ × Opcode)} {state state' : σ}

/-- Calls succeed when the first one does and then the rest. -/
theorem callAll_cons_eq_ok_iff {call : κ × Opcode} {results : List Opcode} :
    callAll f (call :: calls) state = .ok results state' ↔
      ∃ result middle rest, f call.1 call.2 state = .ok result middle ∧
        callAll f calls middle = .ok rest state' ∧ results = result :: rest := by
  unfold callAll
  rw [List.mapM_cons]
  constructor
  · intro h
    obtain ⟨result, middle, hcall, h⟩ := bind_run_eq_ok_iff.mp h
    obtain ⟨rest, last, hrest, h⟩ := bind_run_eq_ok_iff.mp h
    injection h with hresults hstate
    exact ⟨result, middle, rest, hcall, hstate ▸ hrest, hresults.symm⟩
  · rintro ⟨result, middle, rest, hcall, hrest, rfl⟩
    exact bind_run_eq_ok_iff.mpr ⟨result, middle, hcall,
      bind_run_eq_ok_iff.mpr ⟨rest, state', hrest, rfl⟩⟩

/-- There is one result for every call. -/
theorem length_of_callAll {results : List Opcode} (h : callAll f calls state = .ok results state') :
    results.length = calls.length := by
  induction calls generalizing state results with
  | nil =>
      injection h with hresults
      exact hresults ▸ rfl
  | cons call calls ih =>
      obtain ⟨result, middle, rest, -, hrest, rfl⟩ := callAll_cons_eq_ok_iff.mp h
      rw [List.length_cons, List.length_cons, ih hrest]

/-- Calls are recorded in order, and recording them changes nothing else. -/
theorem callAll_recorded {results : List Opcode} (h : callAll f calls state = .ok results state')
    (made : List (κ × Opcode)) :
    callAll (recorded f) calls (state, made) = .ok results (state', made ++ calls) := by
  induction calls generalizing state results made with
  | nil =>
      injection h with hresults hstate
      subst hresults hstate
      rw [List.append_nil]
      rfl
  | cons call calls ih =>
      obtain ⟨result, middle, rest, hcall, hrest, rfl⟩ := callAll_cons_eq_ok_iff.mp h
      refine callAll_cons_eq_ok_iff.mpr ⟨result, (middle, made ++ [call]), rest, ?_, ?_, rfl⟩
      · simp only [recorded, hcall]
      · rw [ih hrest, List.append_assoc, List.singleton_append]

/-- A function that keeps a record of its calls stops at the same call, and has it on record. -/
theorem Stops.recorded {call : κ × Opcode} {failure : Failure} (h : Stops f call state failure state')
    (made : List (κ × Opcode)) :
    Stops (recorded f) call (state, made) failure (state', made ++ [call]) := by
  cases h with
  | sentinel hcall hresult => exact .sentinel (by simp only [LinearGP.recorded, hcall]) hresult
  | failed hcall => exact .failed (by simp only [LinearGP.recorded, hcall])

/-- Either no result is a sentinel, or there is a first call that ends the pass. -/
theorem callAll_cases (f : κ → Opcode → EStateM Failure σ Opcode) (calls : List (κ × Opcode))
    (state : σ) :
    (∃ results state', callAll f calls state = .ok results state' ∧
      ∀ result ∈ results, result.isSentinel = false) ∨
    ∃ k call results middle failure state', calls[k]? = some call ∧
      callAll f (calls.take k) state = .ok results middle ∧
      (∀ result ∈ results, result.isSentinel = false) ∧ Stops f call middle failure state' := by
  induction calls generalizing state with
  | nil => exact .inl ⟨[], state, rfl, by simp⟩
  | cons call calls ih =>
      have hstart : callAll f ((call :: calls).take 0) state = .ok [] state := rfl
      cases hcall : f call.1 call.2 state with
      | error failure state' =>
          exact .inr ⟨0, call, [], state, failure, state', rfl, hstart, by simp, .failed hcall⟩
      | ok result middle =>
          cases hresult : result.isSentinel with
          | true =>
              exact .inr ⟨0, call, [], state, _, middle, rfl, hstart, by simp,
                .sentinel hcall hresult⟩
          | false =>
              rcases ih middle with ⟨results, state', hrest, hall⟩ |
                ⟨k, other, results, last, failure, state', hother, hrest, hall, hstop⟩
              · exact .inl ⟨result :: results, state',
                  callAll_cons_eq_ok_iff.mpr ⟨result, middle, results, hcall, hrest, rfl⟩,
                  List.forall_mem_cons.mpr ⟨hresult, hall⟩⟩
              · exact .inr ⟨k + 1, other, result :: results, last, failure, state', hother,
                  callAll_cons_eq_ok_iff.mpr ⟨result, middle, results, hcall, hrest, rfl⟩,
                  List.forall_mem_cons.mpr ⟨hresult, hall⟩, hstop⟩

end Calls

/-! ## What a pass leaves -/

/-- The first targets hold the results, one each, and all other slots what they held before. -/
structure Rewritten (before after : Array Opcode) (targets : List Nat) (results : List Opcode) :
    Prop where
  size_eq : after.size = before.size
  written : ∀ (k target : Nat) (result : Opcode), targets[k]? = some target → results[k]? = some result →
    after[target]? = some result
  kept : ∀ i, i ∉ targets.take results.length → after[i]? = before[i]?

/-- Without results nothing is rewritten. -/
theorem Rewritten.nil (slots : Array Opcode) (targets : List Nat) :
    Rewritten slots slots targets [] where
  size_eq := rfl
  written := by simp
  kept _ _ := rfl

/-- Targets beyond the results do not matter. -/
theorem Rewritten.append {before after : Array Opcode} {targets : List Nat} {results : List Opcode}
    (h : Rewritten before after targets results) (hlength : results.length = targets.length)
    (others : List Nat) : Rewritten before after (targets ++ others) results where
  size_eq := h.size_eq
  written := by
    intro k target result htarget hresult
    have hk : k < targets.length := by
      rw [← hlength]
      exact (List.getElem?_eq_some_iff.mp hresult).1
    rw [List.getElem?_append_left hk] at htarget
    exact h.written k target result htarget hresult
  kept := by
    intro i hi
    rw [hlength, List.take_left] at hi
    exact h.kept i (by rwa [hlength, List.take_length])

/-- Targets that are all written read as the results. -/
theorem Rewritten.map_getD {before after : Array Opcode} {targets : List Nat} {results : List Opcode}
    (h : Rewritten before after targets results) (hlength : results.length = targets.length) :
    (targets.map fun i => after.getD i Opcode.END) = results := by
  apply List.ext_getElem (by rw [List.length_map, hlength])
  intro k hk hk'
  rw [List.length_map] at hk
  have hwritten := h.written k _ _ (List.getElem?_eq_getElem hk) (List.getElem?_eq_getElem hk')
  rw [List.getElem_map, Array.getD_eq_getD_getElem?, hwritten, Option.getD_some]

/-- Writing the first target before the others. -/
theorem Rewritten.cons {before after : Array Opcode} {target : Nat} {targets : List Nat}
    {result : Opcode} {results : List Opcode} (htarget : target < before.size)
    (hnot : target ∉ targets)
    (h : Rewritten (before.setIfInBounds target result) after targets results) :
    Rewritten before after (target :: targets) (result :: results) where
  size_eq := h.size_eq.trans Array.size_setIfInBounds
  written := by
    intro k place value hplace hvalue
    cases k with
    | zero =>
        rw [List.getElem?_cons_zero, Option.some.injEq] at hplace hvalue
        subst hplace hvalue
        rw [h.kept target fun hmem => hnot (List.mem_of_mem_take hmem),
          Array.getElem?_setIfInBounds_self_of_lt htarget]
    | succ k => exact h.written k place value hplace hvalue
  kept := by
    intro i hi
    rw [List.length_cons, List.take_succ_cons, List.mem_cons, not_or] at hi
    rw [h.kept i hi.2, Array.getElem?_setIfInBounds_ne (Ne.symm hi.1)]

namespace Store

/-- A pass over a store that calls a function, whatever the state is that the function works on. -/
abbrev Rewriting (κ : Type) : Type 1 := ∀ {σ : Type}, (κ → Opcode → EStateM Failure σ Opcode) → σ →
  EStateM.Result Failure (Store × σ) Unit

/-- The calls that a pass makes, in order. -/
def Rewriting.made (pass : Rewriting κ) (f : κ → Opcode → EStateM Failure σ Opcode) (state : σ) :
    List (κ × Opcode) :=
  (endState (pass (recorded f) (state, []))).2.2

/-- A pass makes the given calls from left to right and writes their results into the targets, until a
result is a sentinel or a call fails. -/
structure Rewrites (s : Store) (pass : Rewriting κ) (calls : List (κ × Opcode))
    (targets : List Nat) : Prop where
  /-- No result is a sentinel. -/
  completes : ∀ {σ : Type} (f : κ → Opcode → EStateM Failure σ Opcode) (state state' : σ)
    (results : List Opcode), callAll f calls state = .ok results state' →
    (∀ result ∈ results, result.isSentinel = false) →
    ∃ slots, pass f state = .ok () ({ s with slots }, state') ∧
      Rewritten s.slots slots targets results ∧ pass.made f state = calls
  /-- Call number `k` is the first whose result is a sentinel or that fails. -/
  stops : ∀ {σ : Type} (f : κ → Opcode → EStateM Failure σ Opcode) (state middle state' : σ) (k : Nat)
    (call : κ × Opcode) (results : List Opcode) (failure : Failure), calls[k]? = some call →
    callAll f (calls.take k) state = .ok results middle →
    (∀ result ∈ results, result.isSentinel = false) → Stops f call middle failure state' →
    ∃ slots, pass f state = .error failure ({ s with slots }, state') ∧
      Rewritten s.slots slots targets results ∧ pass.made f state = calls.take (k + 1)

/-! ## Steps that read nothing but old opcodes -/

/-- What a function is called with by steps that read no slot after it was written. -/
def reads (slots : Array Opcode) (steps : List (SlotStep κ)) : List (κ × Opcode) :=
  steps.map fun step => (step.key, slots.getD step.source Opcode.END)

/-- No step reads or writes what an earlier one has written. -/
def Fresh (steps : List (SlotStep κ)) : Prop :=
  steps.Pairwise fun earlier later =>
    earlier.target ≠ later.source ∧ earlier.target ≠ later.target

/-- Steps that come to an end hand over to those that follow. -/
theorem transformSlots_append {f : κ → Opcode → EStateM Failure σ Opcode}
    {steps : List (SlotStep κ)} {x y : Array Opcode × σ} (h : transformSlots f steps x = .ok () y)
    (rest : List (SlotStep κ)) :
    transformSlots f (steps ++ rest) x = transformSlots f rest y := by
  induction steps generalizing x with
  | nil =>
      injection h with _ h
      subst h
      rfl
  | cons step steps ih =>
      obtain ⟨slots, state⟩ := x
      rw [List.cons_append]
      simp only [transformSlots] at h ⊢
      cases hcall : f step.key (slots.getD step.source Opcode.END) state with
      | error failure state' =>
          rw [hcall] at h
          cases h
      | ok result state' =>
          rw [hcall] at h
          simp only at h ⊢
          split at h
          · cases h
          · next hregular =>
            rw [if_neg hregular]
            exact ih h

/-- Steps whose results are regular write all of them. -/
theorem transformSlots_of_regular {f : κ → Opcode → EStateM Failure σ Opcode}
    {steps : List (SlotStep κ)} (hfresh : Fresh steps) {slots : Array Opcode}
    (htargets : ∀ step ∈ steps, step.target < slots.size) {state state' : σ}
    {results : List Opcode} (hcalls : callAll f (reads slots steps) state = .ok results state')
    (hregular : ∀ result ∈ results, result.isSentinel = false) :
    ∃ slots', transformSlots f steps (slots, state) = .ok () (slots', state') ∧
      Rewritten slots slots' (steps.map (·.target)) results := by
  induction steps generalizing slots state results with
  | nil =>
      injection hcalls with hresults hstate
      subst hresults hstate
      exact ⟨slots, rfl, .nil slots []⟩
  | cons step steps ih =>
      obtain ⟨hstep, hlater⟩ := List.pairwise_cons.mp hfresh
      obtain ⟨result, middle, rest, hcall, hrest, rfl⟩ := callAll_cons_eq_ok_iff.mp hcalls
      obtain ⟨hresult, hothers⟩ := List.forall_mem_cons.mp hregular
      have hin : ∀ other ∈ steps, other.target < (slots.setIfInBounds step.target result).size := by
        intro other hother
        rw [Array.size_setIfInBounds]
        exact htargets other (List.mem_cons_of_mem _ hother)
      -- later steps read what they would have read at the start
      have hreads : reads (slots.setIfInBounds step.target result) steps = reads slots steps := by
        apply List.map_congr_left
        intro other hother
        rw [getD_setIfInBounds, if_neg fun hset => (hstep other hother).1 hset.1]
      have hrest : callAll f (reads slots steps) middle = .ok rest state' := hrest
      rw [← hreads] at hrest
      obtain ⟨slots', hpass, hwritten⟩ := ih hlater hin hrest hothers
      refine ⟨slots', ?_, hwritten.cons (htargets step (by simp)) ?_⟩
      · simp only [transformSlots, hcall, hresult, Bool.false_eq_true, if_false]
        exact hpass
      · intro hmem
        obtain ⟨other, hother, hsame⟩ := List.mem_map.mp hmem
        exact (hstep other hother).2 hsame.symm

/-- The first steps write their results, and the next one calls the function on the opcode that its
slot held at the start. -/
theorem transformSlots_of_take {f : κ → Opcode → EStateM Failure σ Opcode}
    {steps : List (SlotStep κ)} (hfresh : Fresh steps) {slots : Array Opcode}
    (htargets : ∀ step ∈ steps, step.target < slots.size) {state middle : σ} {k : Nat}
    {call : κ × Opcode} {results : List Opcode} (hcall : (reads slots steps)[k]? = some call)
    (hcalls : callAll f ((reads slots steps).take k) state = .ok results middle)
    (hregular : ∀ result ∈ results, result.isSentinel = false) :
    ∃ slots' step rest, (step.key, slots'.getD step.source Opcode.END) = call ∧
      transformSlots f steps (slots, state) = transformSlots f (step :: rest) (slots', middle) ∧
      Rewritten slots slots' (steps.map (·.target)) results := by
  rw [reads, List.getElem?_map] at hcall
  obtain ⟨step, hstep, rfl⟩ := Option.map_eq_some_iff.mp hcall
  have hsplit : steps = steps.take k ++ step :: steps.drop (k + 1) := by
    obtain ⟨hk, rfl⟩ := List.getElem?_eq_some_iff.mp hstep
    rw [← List.drop_eq_getElem_cons hk, List.take_append_drop]
  rw [reads, ← List.map_take] at hcalls
  have hlength := length_of_callAll hcalls
  rw [List.length_map] at hlength
  obtain ⟨hfirst, -, hnew⟩ := List.pairwise_append.mp (hsplit ▸ hfresh)
  obtain ⟨slots', hpass, hwritten⟩ := transformSlots_of_regular hfirst
    (fun step hstep => htargets step (List.mem_of_mem_take hstep)) hcalls hregular
  refine ⟨slots', step, steps.drop (k + 1), ?_, ?_, ?_⟩
  · -- no step so far wrote what this one reads
    have hkept := hwritten.kept step.source fun hmem => by
      obtain ⟨earlier, hearlier, hsame⟩ := List.mem_map.mp (List.mem_of_mem_take hmem)
      exact (hnew earlier hearlier step (by simp)).1 hsame
    rw [Array.getD_eq_getD_getElem?, hkept, ← Array.getD_eq_getD_getElem?]
  · conv_lhs => rw [hsplit]
    exact transformSlots_append hpass _
  · rw [hsplit, List.map_append]
    exact hwritten.append (by rw [hlength, List.length_map]) _

/-- A call that ends a pass leaves the buffer as it is. -/
theorem transformSlots_of_stops {f : κ → Opcode → EStateM Failure σ Opcode} {step : SlotStep κ}
    {slots : Array Opcode} {state state' : σ} {failure : Failure}
    (h : Stops f (step.key, slots.getD step.source Opcode.END) state failure state')
    (rest : List (SlotStep κ)) :
    transformSlots f (step :: rest) (slots, state) = .error failure (slots, state') := by
  cases h with
  | sentinel hcall hresult => simp only [transformSlots, hcall, hresult, if_true]
  | failed hcall => simp only [transformSlots, hcall]

/-- A pass whose steps are fresh calls its function on old opcodes only. -/
theorem rewrites_of_fresh {s : Store} {steps : List (SlotStep κ)} (hfresh : Fresh steps)
    (htargets : ∀ step ∈ steps, step.target < s.slots.size) :
    s.Rewrites (fun f state => withSlots (transformSlots f steps) (s, state)) (reads s.slots steps)
      (steps.map (·.target)) where
  completes := by
    intro σ f state state' results hcalls hregular
    obtain ⟨slots, hpass, hwritten⟩ := transformSlots_of_regular hfresh htargets hcalls hregular
    obtain ⟨_, hrecord, -⟩ :=
      transformSlots_of_regular hfresh htargets (callAll_recorded hcalls []) hregular
    refine ⟨slots, ?_, hwritten, ?_⟩
    · simp only [withSlots, hpass]
    · simp only [Rewriting.made, withSlots, hrecord, endState, List.nil_append]
  stops := by
    intro σ f state middle state' k call results failure hcall hcalls hregular hstop
    obtain ⟨slots, step, rest, rfl, hpass, hwritten⟩ :=
      transformSlots_of_take hfresh htargets hcall hcalls hregular
    obtain ⟨slots', step', rest', hsame, hrecord, -⟩ :=
      transformSlots_of_take hfresh htargets hcall (callAll_recorded hcalls []) hregular
    rw [transformSlots_of_stops hstop] at hpass
    rw [transformSlots_of_stops (hsame ▸ hstop.recorded _)] at hrecord
    refine ⟨slots, ?_, hwritten, ?_⟩
    · simp only [withSlots, hpass]
    · simp only [Rewriting.made, withSlots, hrecord, endState, List.nil_append]
      rw [List.take_add_one, hcall, hsame, Option.toList_some]

/-! ## The two passes of a store -/

/-- The positions are those of the instructions of all programs. -/
theorem mem_positions {programs programSize : Nat} {position : Nat × Nat} :
    position ∈ positions programs programSize ↔
      position.1 < programs ∧ position.2 < programSize := by
  obtain ⟨program, instruction⟩ := position
  simp [positions]

/-- No position is listed twice. -/
theorem nodup_positions (programs programSize : Nat) : (positions programs programSize).Nodup :=
  List.nodup_range.product List.nodup_range

/-- A pass over all instructions reads and writes each slot once. -/
theorem fresh_transformSteps (s : Store) : Fresh s.transformSteps := by
  rw [transformSteps_eq]
  refine List.pairwise_map.mpr ((nodup_positions _ _).imp_of_mem ?_)
  intro earlier later hearlier hlater hne
  obtain ⟨hprogram, hinstruction⟩ := mem_positions.mp hearlier
  obtain ⟨hprogram', hinstruction'⟩ := mem_positions.mp hlater
  have hslots : s.slotAt earlier.1 earlier.2 ≠ s.slotAt later.1 later.2 := fun hsame =>
    hne (Prod.ext_iff.mpr (slotAt_injective hprogram hprogram' hinstruction.le hinstruction'.le hsame))
  exact ⟨hslots, hslots⟩

/-- A copy writes each slot of the target once, and reads none that it wrote before. -/
theorem fresh_copySteps {s : Store} {source target : Nat} (hsource : source < s.programCount)
    (htarget : target < s.programCount) : Fresh (s.copySteps source target) := by
  refine List.pairwise_map.mpr (List.pairwise_lt_range.imp_of_mem ?_)
  intro earlier later hearlier hlater hlt
  have hearlier := (List.mem_range.mp hearlier).le
  have hlater := (List.mem_range.mp hlater).le
  constructor
  · intro hsame
    exact hlt.ne (slotAt_injective htarget hsource hearlier hlater hsame).2
  · intro hsame
    exact hlt.ne (slotAt_injective htarget htarget hearlier hlater hsame).2

/-- Writing what is there already changes nothing. -/
theorem setIfInBounds_getD (slots : Array Opcode) (i : Nat) (opcode : Opcode) :
    slots.setIfInBounds i (slots.getD i opcode) = slots := by
  rw [Array.getD_eq_getD_getElem?, Array.setIfInBounds]
  split
  · next hi => rw [Array.getElem?_eq_getElem hi, Option.getD_some, Array.set_getElem_self]
  · rfl

/-- The `END` that is copied last is there already. -/
theorem copyProgramWith_eq {s : Store} (h : s.WellFormed) {source target : Nat}
    (hsource : source < s.programCount) (htarget : target < s.programCount)
    (f : Nat → Opcode → EStateM Failure σ Opcode) (state : σ) :
    copyProgramWith source target f (s, state) =
      withSlots (transformSlots f (s.copySteps source target)) (s, state) := by
  have hi := (offset_eq_ok_iff h source 0 _).mpr ⟨⟨hsource, h.programSize_pos⟩, rfl⟩
  have hj := (offset_eq_ok_iff h target 0 _).mpr ⟨⟨htarget, h.programSize_pos⟩, rfl⟩
  have hfits : s.Fits (endState (transformSlots f (s.copySteps source target) (s.slots, state))).1 := by
    refine h.fits.transformSlots f _ ?_ s.slots state
    intro step hstep
    obtain ⟨instruction, hinstruction, rfl⟩ := List.mem_map.mp hstep
    have hlt := List.mem_range.mp hinstruction
    exact (role_slotAt htarget hlt.le).trans (if_neg hlt.ne)
  unfold copyProgramWith withSlots
  simp only [hi, hj]
  rw [show List.map _ (List.range s.programSize) = s.copySteps source target from rfl]
  cases hpass : transformSlots f (s.copySteps source target) (s.slots, state) with
  | error failure x => rfl
  | ok a x =>
      have hfits : s.Fits x.1 := by
        rw [hpass] at hfits
        exact hfits
      have hread : x.1.getD (s.slotAt source 0 + s.programSize) Opcode.END =
          x.1.getD (s.slotAt target 0 + s.programSize) Opcode.END :=
        (hfits.getD_end h hsource).trans (hfits.getD_end h htarget).symm
      have hsame : x.1.setIfInBounds (s.slotAt target 0 + s.programSize)
          (x.1.getD (s.slotAt source 0 + s.programSize) Opcode.END) = x.1 := by
        rw [hread, setIfInBounds_getD]
      simp only [hsame]

/-- The place of an instruction, seen from the thread of its program. -/
def placeOf (s : Store) (position : Nat × Nat) : Place where
  thread := position.1 / s.perThread
  program := position.1 % s.perThread
  instruction := position.2

/-- Every instruction with its place, in the order of the programs. -/
def visits (s : Store) : List (Place × Opcode) :=
  (positions s.programCount s.programSize).map fun x => (s.placeOf x, s.opcodeAt x.1 x.2)

/-- Transforming a store calls the function on every instruction. -/
theorem rewrites_transform {s : Store} (h : s.WellFormed) :
    s.Rewrites (fun f state => transform f (s, state)) s.visits
      ((positions s.programCount s.programSize).map fun x => s.slotAt x.1 x.2) := by
  have hpass : (fun {σ : Type} (f : Place → Opcode → EStateM Failure σ Opcode) (state : σ) =>
      transform f (s, state)) =
      fun {σ : Type} f state => withSlots (transformSlots f s.transformSteps) (s, state) := by
    funext σ f state
    exact transform_eq h.initialized f state
  have hrewrites := rewrites_of_fresh (s := s) s.fresh_transformSteps (by
    intro step hstep
    obtain ⟨htarget, -, hin⟩ := h.mem_transformSteps hstep
    exact htarget ▸ hin)
  rw [reads, ← hpass] at hrewrites
  rw [transformSteps_eq, List.map_map, List.map_map] at hrewrites
  exact hrewrites

/-- Copying a program through a function calls it on every instruction of the source, in order. -/
theorem rewrites_copyProgramWith {s : Store} (h : s.WellFormed) {source target : Nat}
    (hsource : source < s.programCount) (htarget : target < s.programCount) :
    s.Rewrites (fun f state => copyProgramWith source target f (s, state))
      ((List.range s.programSize).map fun i => (i, s.opcodeAt source i))
      ((List.range s.programSize).map (s.slotAt target)) := by
  have hpass : (fun {σ : Type} (f : Nat → Opcode → EStateM Failure σ Opcode) (state : σ) =>
      copyProgramWith source target f (s, state)) =
      fun {σ : Type} f state => withSlots (transformSlots f (s.copySteps source target)) (s, state) := by
    funext σ f state
    exact copyProgramWith_eq h hsource htarget f state
  have hrewrites := rewrites_of_fresh (fresh_copySteps hsource htarget) (by
    intro step hstep
    obtain ⟨instruction, hinstruction, rfl⟩ := List.mem_map.mp hstep
    exact h.slotAt_lt_size htarget (List.mem_range.mp hinstruction).le)
  rw [reads, ← hpass, copySteps, List.map_map, List.map_map] at hrewrites
  exact hrewrites

/-- Rewriting stops cleanly at the first sentinel.  Transforming a store, and copying a program through a
function, also onto itself, is one pass from left to right that calls the function on what the slots held
before.  Unless a result is a sentinel, every target holds its result.  At the first result that is one
the pass stops with it, after as many calls as it took to get there, and only the targets before it have
been written. -/
theorem rewriting_stops_at_sentinel {s : Store} (h : s.Reachable) :
    (∃ opcodes targets,
      (positions s.programCount s.programSize).mapM (fun x => s.get x.1 x.2) = .ok opcodes ∧
      (positions s.programCount s.programSize).mapM (fun x => s.offset x.1 x.2) = .ok targets ∧
      s.Rewrites (fun f state => transform f (s, state))
        (((positions s.programCount s.programSize).map s.placeOf).zip opcodes) targets) ∧
    ∀ source < s.programCount, ∀ target < s.programCount, ∃ opcodes targets,
      s.program source = .ok opcodes ∧
      (List.range s.programSize).mapM (s.offset target) = .ok targets ∧
      s.Rewrites (fun f state => copyProgramWith source target f (s, state))
        ((List.range s.programSize).zip opcodes) targets := by
  have hwell := h.wellFormed
  constructor
  · refine ⟨(positions s.programCount s.programSize).map fun x => s.opcodeAt x.1 x.2,
      (positions s.programCount s.programSize).map fun x => s.slotAt x.1 x.2, ?_, ?_, ?_⟩
    · refine mapM_eq_ok_map fun x hx => ?_
      obtain ⟨hprogram, hinstruction⟩ := mem_positions.mp hx
      exact get_eq hwell hprogram hinstruction
    · refine mapM_eq_ok_map fun x hx => ?_
      exact (offset_eq_ok_iff hwell _ _ _).mpr ⟨mem_positions.mp hx, rfl⟩
    · rw [List.zip_map']
      exact rewrites_transform hwell
  · intro source hsource target htarget
    refine ⟨s.programAt source, (List.range s.programSize).map (s.slotAt target),
      program_eq hwell hsource, ?_, ?_⟩
    · refine mapM_eq_ok_map fun instruction hinstruction => ?_
      exact (offset_eq_ok_iff hwell _ _ _).mpr ⟨⟨htarget, List.mem_range.mp hinstruction⟩, rfl⟩
    · have hzip : (List.range s.programSize).zip (s.programAt source) =
          (List.range s.programSize).map fun i => (i, s.opcodeAt source i) := by
        rw [programAt, ← List.zip_map', List.map_id']
      rw [hzip]
      exact rewrites_copyProgramWith hwell hsource htarget

/-- A function that counts its calls and spoils the second instruction of a program. -/
private def spoil : Nat → Opcode → EStateM Failure Nat Opcode := fun instruction opcode count =>
  .ok (if instruction = 1 then Opcode.HALT else opcode + 5) (count + 1)

/-- A program that is copied onto itself and spoiled keeps the first result only. -/
theorem rewriting_stops_at_sentinel_second :
    let s : Store := { threads := 2, perThread := 1, programSize := 3
                       slots := #[2, 2, 2, 0, 1, 2, 2, 2, 0, 1], initialized := true }
    s.Reachable ∧ ∃ slots, copyProgramWith 1 1 spoil (s, 0) =
        .error (.error (.sentinelOpcode Opcode.HALT)) ({ s with slots }, 2) ∧
      Rewritten s.slots slots [5, 6, 7] [7] := by
  intro s
  have hcreate : create 2 2 3 = .ok {
      threads := 2, perThread := 1, programSize := 3, slots := Array.replicate 10 Opcode.END
      initialized := false } := rfl
  have hreachable : s.Reachable := .prepare hcreate rfl
  obtain ⟨-, hcopies⟩ := rewriting_stops_at_sentinel hreachable
  obtain ⟨opcodes, targets, hopcodes, htargets, hrewrites⟩ := hcopies 1 (by decide) 1 (by decide)
  have hslots : (List.range s.programSize).mapM (s.offset 1) = .ok [5, 6, 7] := by cbv
  have hprogram : s.program 1 = .ok [2, 2, 2] := by cbv
  obtain rfl := Except.ok.inj (hslots.symm.trans htargets)
  obtain rfl := Except.ok.inj (hprogram.symm.trans hopcodes)
  have hcalls : (List.range s.programSize).zip [2, 2, 2] = [(0, (2 : Opcode)), (1, 2), (2, 2)] := rfl
  rw [hcalls] at hrewrites
  have hfirst : callAll spoil [(0, 2)] 0 = .ok [7] 1 :=
    callAll_cons_eq_ok_iff.mpr ⟨7, 1, [], rfl, rfl, rfl⟩
  have hsecond : Stops spoil (1, 2) 1 (.error (.sentinelOpcode Opcode.HALT)) 2 := .sentinel rfl rfl
  obtain ⟨slots, hcopy, hwritten, -⟩ :=
    hrewrites.stops spoil 0 1 2 1 (1, 2) [7] _ rfl hfirst
      (List.forall_mem_singleton.mpr rfl) hsecond
  exact ⟨hreachable, slots, hcopy, hwritten⟩

end Store

end LinearGP
