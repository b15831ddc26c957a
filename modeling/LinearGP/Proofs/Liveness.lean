import Mathlib
import LinearGP.Liveness
import LinearGP.Proofs.Catalog.Contents
import LinearGP.Proofs.Evaluation
import LinearGP.Proofs.Instruction.Effects

/-!
# Dropping introns keeps the output

The run of a program and that of what is left of it differ in the registers, but not in the bits that
matter.  `Liveness.Agree` is this relation.  `exists_across` is one step of the simulation, for an
instruction that is kept as well as for one that is dropped, and `exists_liveBefore` follows a whole
program backwards.  The analysis never runs out of room, because no register has two spans.
-/

set_option autoImplicit false

namespace LinearGP

/-! ## Operands -/

namespace Access

/-- The register and span of a read. -/
def read? : Access → Option (Register × BitRange)
  | read register range => some (register, range)
  | _ => none

/-- The register and span of a write, and whether it is always made. -/
def write? : Access → Option (Register × BitRange × Bool)
  | write register range always => some (register, range, always)
  | _ => none

/-- The access is one to memory. -/
def isMemory : Access → Bool
  | memoryRead _ => true
  | memoryWrite _ => true
  | _ => false

end Access

namespace Operands

/-- The operands with one more access. -/
def extend (o : Operands) (access : Access) : Operands where
  reads := o.reads ++ access.read?.toList
  writes := o.writes ++ access.write?.toList
  memory := o.memory || access.isMemory

/-- An access is recorded when there is room for it. -/
theorem record_eq_ok {o : Operands} {access : Access}
    (hreads : (o.extend access).reads.length ≤ readCapacity)
    (hwrites : (o.extend access).writes.length ≤ writeCapacity) :
    o.record access = .ok (o.extend access) := by
  cases access with
  | read register range =>
      have hroom : ¬ readCapacity ≤ o.reads.length := by
        simp [extend, Access.read?] at hreads
        omega
      simp [record, hroom, extend, Access.read?, Access.write?, Access.isMemory]
  | write register range always =>
      have hroom : ¬ writeCapacity ≤ o.writes.length := by
        simp [extend, Access.write?] at hwrites
        omega
      simp [record, hroom, extend, Access.read?, Access.write?, Access.isMemory]
  | immediate | statusRead | statusWrite | controlRead | memoryRead | memoryWrite =>
      simp [record, extend, Access.read?, Access.write?, Access.isMemory]

/-- Recording accesses makes no list of operands shorter. -/
theorem length_le_foldl_extend (accesses : List Access) (o : Operands) :
    o.reads.length ≤ (accesses.foldl extend o).reads.length ∧
      o.writes.length ≤ (accesses.foldl extend o).writes.length := by
  induction accesses generalizing o with
  | nil => exact ⟨le_rfl, le_rfl⟩
  | cons access rest ih =>
      obtain ⟨hreads, hwrites⟩ := ih (o.extend access)
      have hstep : o.reads.length ≤ (o.extend access).reads.length ∧
          o.writes.length ≤ (o.extend access).writes.length := by simp [extend]
      exact ⟨hstep.1.trans hreads, hstep.2.trans hwrites⟩

/-- Accesses are recorded one after the other when there is room for all of them. -/
theorem foldlM_record (accesses : List Access) (o : Operands)
    (hreads : (accesses.foldl extend o).reads.length ≤ readCapacity)
    (hwrites : (accesses.foldl extend o).writes.length ≤ writeCapacity) :
    accesses.foldlM record o = .ok (accesses.foldl extend o) := by
  induction accesses generalizing o with
  | nil => rfl
  | cons access rest ih =>
      have hgrow := length_le_foldl_extend rest (o.extend access)
      rw [List.foldl_cons] at hreads hwrites
      rw [List.foldlM_cons, record_eq_ok (hgrow.1.trans hreads) (hgrow.2.trans hwrites)]
      exact ih (o.extend access) hreads hwrites

/-- Operands hold what was recorded. -/
theorem mem_foldl_extend (accesses : List Access) (o : Operands) :
    (∀ r range, (r, range) ∈ (accesses.foldl extend o).reads ↔
      (r, range) ∈ o.reads ∨ .read r range ∈ accesses) ∧
    ∀ r range always, (r, range, always) ∈ (accesses.foldl extend o).writes ↔
      (r, range, always) ∈ o.writes ∨ .write r range always ∈ accesses := by
  induction accesses generalizing o with
  | nil => simp
  | cons access rest ih =>
      obtain ⟨hreads, hwrites⟩ := ih (o.extend access)
      rw [List.foldl_cons]
      refine ⟨fun r range => ?_, fun r range always => ?_⟩
      · rw [hreads]
        cases access <;> simp [extend, Access.read?, or_assoc]
      · rw [hwrites]
        cases access <;> simp [extend, Access.write?, or_assoc]

/-- An instruction has few operands, and none of them in memory. -/
theorem foldl_extend_accesses (i : Instruction) :
    (i.accesses.foldl extend empty).reads.length ≤ readCapacity ∧
      (i.accesses.foldl extend empty).writes.length ≤ writeCapacity ∧
      (i.accesses.foldl extend empty).memory = false := by
  cases i with
  | int op dst src =>
      by_cases hzero : Instruction.isZeroing op dst src = true <;> cases op <;>
        simp [Instruction.accesses, Instruction.readGpr, Instruction.writeGpr, extend, hzero, empty,
          Access.read?, Access.write?, Access.isMemory, readCapacity, writeCapacity]
  | unary op reg =>
      cases op <;>
        simp [Instruction.accesses, Instruction.readGpr, Instruction.writeGpr, extend, empty,
          Access.read?, Access.write?, Access.isMemory, readCapacity, writeCapacity]
  | div src guarded =>
      cases guarded <;>
        simp [Instruction.accesses, Instruction.readGpr, Instruction.writeGpr, extend, empty,
          Access.read?, Access.write?, Access.isMemory, readCapacity, writeCapacity]
  | float op form dst src =>
      by_cases hsqrt : op = .sqrt <;>
        simp [Instruction.accesses, extend, hsqrt, empty, Access.read?, Access.write?,
          Access.isMemory, readCapacity, writeCapacity]
  | nop | bitCount | moveAll | moveLow =>
      simp [Instruction.accesses, Instruction.readGpr, Instruction.writeGpr, extend, empty,
        Access.read?, Access.write?, Access.isMemory, readCapacity, writeCapacity]

/-- The operands of an instruction are what it reads and writes. -/
theorem exists_ofAccesses (i : Instruction) :
    ∃ o, ofAccesses i.accesses = .ok o ∧ o.memory = false ∧
      (∀ r range, (r, range) ∈ o.reads ↔ .read r range ∈ i.accesses) ∧
      ∀ r range always, (r, range, always) ∈ o.writes ↔ .write r range always ∈ i.accesses := by
  obtain ⟨hreads, hwrites, hmemory⟩ := foldl_extend_accesses i
  obtain ⟨hread, hwrite⟩ := mem_foldl_extend i.accesses empty
  refine ⟨_, foldlM_record i.accesses empty hreads hwrites, hmemory, ?_, ?_⟩
  · simpa [empty] using hread
  · simpa [empty] using hwrite

end Operands

/-! ## The bits that matter -/

namespace Liveness

/-- A bit of a register matters. -/
def Holds (live : Liveness) (r : Register) (b : Nat) : Prop :=
  ∃ range, live.range? r = some range ∧ range.Holds b

/-- Two register files have the same bits where they matter. -/
def Agree (live : Liveness) (s t : Registers) : Prop :=
  ∀ r b, live.Holds r b → s.bit r b = t.bit r b

/-- No register has two spans. -/
def Distinct (live : Liveness) : Prop := (live.map Prod.fst).Nodup

variable {live other : Liveness} {r : Register} {range : BitRange}

/-! ## Edits of a map -/

/-- Beside the entry of a register there is none for it. -/
theorem Distinct.ne_of_mem {entry : Register × BitRange} {rest : Liveness}
    (h : Distinct (entry :: rest)) {beside : Register × BitRange} (hmem : beside ∈ rest) :
    beside.1 ≠ entry.1 := by
  have hhead := (List.nodup_cons.mp h).1
  exact fun heq => hhead (heq ▸ List.mem_map_of_mem hmem)

/-- The registers of the other entries differ, too. -/
theorem Distinct.tail {entry : Register × BitRange} {rest : Liveness}
    (h : Distinct (entry :: rest)) : Distinct rest := (List.nodup_cons.mp h).2

/-- The span of a register is that of its only entry. -/
theorem Distinct.range?_eq_some_iff (h : live.Distinct) :
    live.range? r = some range ↔ (r, range) ∈ live := by
  unfold range?
  induction live with
  | nil => simp
  | cons entry rest ih =>
      obtain ⟨q, old⟩ := entry
      rw [List.lookup_cons, List.mem_cons]
      by_cases hr : r = q
      · subst hr
        have hnone : (r, range) ∉ rest := fun hmem => h.ne_of_mem hmem rfl
        simp [hnone, eq_comm]
      · have hne : (r == q) = false := by simpa using hr
        simp [hne, ih h.tail, hr]

/-- A register without a span has no entry. -/
theorem not_mem_of_range?_eq_none (h : live.range? r = none) : r ∉ live.map Prod.fst := by
  intro hmem
  obtain ⟨⟨q, range⟩, hentry, rfl⟩ := List.mem_map.mp hmem
  simpa using List.lookup_eq_none_iff.mp h _ hentry

/-- Entries in another order are still those of different registers. -/
theorem Distinct.perm (h : live.Distinct) (hperm : live.Perm other) : other.Distinct :=
  (hperm.map Prod.fst).nodup_iff.mp h

/-- Where registers differ, the order of the entries does not matter to the span of one. -/
theorem Distinct.range?_perm (h : live.Distinct) (hperm : live.Perm other) (r : Register) :
    live.range? r = other.range? r := by
  apply Option.ext
  intro range
  rw [h.range?_eq_some_iff, (h.perm hperm).range?_eq_some_iff]
  exact hperm.mem_iff

/-- The only entry of a register is the one that is found. -/
theorem Distinct.place?_eq (h : live.Distinct) {n : Nat} (hentry : live[n]? = some (r, range)) :
    live.place? r = some n := by
  unfold place?
  induction live generalizing n with
  | nil => cases hentry
  | cons entry rest ih =>
      cases n with
      | zero =>
          obtain rfl : entry = (r, range) := Option.some.inj hentry
          simp [List.findIdx?_cons]
      | succ n =>
          rw [List.getElem?_cons_succ] at hentry
          have hne : entry.1 ≠ r := (h.ne_of_mem (List.mem_of_getElem? hentry)).symm
          simp [List.findIdx?_cons, hne, ih h.tail hentry]

/-- Nothing is edited where a register has no entry. -/
theorem update_of_range?_eq_none (h : live.range? r = none) (new : Option BitRange) :
    live.update r new = live := by
  have hplace : live.place? r = none := by
    refine List.findIdx?_eq_none_iff.mpr fun entry hentry => decide_eq_false fun heq => ?_
    exact not_mem_of_range?_eq_none h (heq ▸ List.mem_map_of_mem hentry)
  unfold update
  rw [hplace]

/-- Moving the last entry to a place leaves what erasing the place does, in another order. -/
theorem swapRemove_perm {n : Nat} (hn : n < live.length) :
    (live.swapRemove n).Perm (live.eraseIdx n) := by
  obtain ⟨front, last, rfl⟩ : ∃ front last, live = front ++ [last] :=
    (List.eq_nil_or_concat' live).resolve_left (List.ne_nil_of_length_pos (by omega))
  obtain ⟨moved, hmoved⟩ : ∃ moved, (front ++ [last]).set n last = moved ++ [last] := by
    rw [List.set_append]
    split
    · exact ⟨_, rfl⟩
    · refine ⟨front, ?_⟩
      rw [show n - front.length = 0 by simp at hn; omega]
      rfl
  have hperm := List.set_perm_cons_eraseIdx hn last
  simp only [swapRemove, List.getLast?_concat]
  rw [hmoved] at hperm ⊢
  rw [List.dropLast_concat]
  exact (List.perm_cons last).mp ((List.perm_append_singleton last moved).symm.trans hperm)

/-- The entries of all registers but one. -/
def others (live : Liveness) (r : Register) : Liveness := live.filter fun entry => entry.1 ≠ r

/-- Without the entry of a register, those of the others are left. -/
theorem Distinct.eraseIdx_eq (h : live.Distinct) {n : Nat} (hentry : live[n]? = some (r, range)) :
    live.eraseIdx n = live.others r := by
  unfold others
  induction live generalizing n with
  | nil => cases hentry
  | cons entry rest ih =>
      cases n with
      | zero =>
          obtain rfl : entry = (r, range) := Option.some.inj hentry
          have hbeside : ∀ beside ∈ rest, decide (beside.1 ≠ r) = true :=
            fun beside hmem => decide_eq_true (h.ne_of_mem hmem)
          rw [List.filter_cons_of_neg (by simp), List.filter_eq_self.mpr hbeside,
            List.eraseIdx_cons_zero]
      | succ n =>
          rw [List.getElem?_cons_succ] at hentry
          have hne : entry.1 ≠ r := (h.ne_of_mem (List.mem_of_getElem? hentry)).symm
          rw [List.filter_cons_of_pos (by simpa using hne), List.eraseIdx_cons_succ,
            ih h.tail hentry]

/-- An edit leaves the other entries as they are, and the new span if there is one. -/
theorem Distinct.update_perm_others (h : live.Distinct) (hrange : live.range? r = some range)
    (new : Option BitRange) :
    (live.update r new).Perm ((new.map (Prod.mk r)).toList ++ live.others r) := by
  obtain ⟨n, hentry⟩ := List.mem_iff_getElem?.mp (h.range?_eq_some_iff.mp hrange)
  have hn := (List.getElem?_eq_some_iff.mp hentry).1
  unfold Liveness.update
  rw [h.place?_eq hentry, ← h.eraseIdx_eq hentry]
  cases new with
  | none => exact swapRemove_perm hn
  | some new => exact List.set_perm_cons_eraseIdx hn (r, new)

/-- After an edit, still no register has two spans. -/
theorem Distinct.update (h : live.Distinct) (r : Register) (new : Option BitRange) :
    (live.update r new).Distinct := by
  cases hrange : live.range? r with
  | none => rwa [update_of_range?_eq_none hrange]
  | some range =>
      refine Distinct.perm ?_ (h.update_perm_others hrange new).symm
      have hothers : (live.others r).Distinct := h.sublist (List.filter_sublist.map _)
      cases new with
      | none => exact hothers
      | some new =>
          refine List.nodup_cons.mpr ⟨fun hmem => ?_, hothers⟩
          obtain ⟨entry, hentry, heq⟩ := List.mem_map.mp hmem
          exact of_decide_eq_true (List.mem_filter.mp hentry).2 heq

/-- The span of a register after one was edited. -/
theorem Distinct.range?_update (h : live.Distinct) (hrange : live.range? r = some range)
    (new : Option BitRange) (q : Register) :
    (live.update r new).range? q = if q = r then new else live.range? q := by
  apply Option.ext
  intro found
  rw [(h.update r new).range?_eq_some_iff, (h.update_perm_others hrange new).mem_iff,
    List.mem_append, Option.mem_toList, others, List.mem_filter]
  by_cases hq : q = r
  · simp [hq]
  · simp [hq, h.range?_eq_some_iff, Ne.symm hq]

/-- The order of the entries is the only difference that an edit can keep. -/
theorem Distinct.update_perm (h : live.Distinct) (hperm : live.Perm other) (r : Register)
    (new : Option BitRange) : (live.update r new).Perm (other.update r new) := by
  have hsame := h.range?_perm hperm r
  cases hrange : live.range? r with
  | none =>
      rwa [update_of_range?_eq_none hrange, update_of_range?_eq_none (hsame ▸ hrange)]
  | some range =>
      refine (h.update_perm_others hrange new).trans
        (List.Perm.trans ?_ ((h.perm hperm).update_perm_others (hsame ▸ hrange) new).symm)
      exact (hperm.filter _).append_left _

/-! ## Reads and writes -/

/-- What is left of a span are its bits that were not written, and perhaps some that were. -/
theorem holds_remainder {live written : BitRange} {b : Nat} (hlive : live.Holds b)
    (hwritten : ¬ written.Holds b) :
    ∃ range, remainder live written = some range ∧ range.Holds b := by
  unfold remainder
  split
  · next hcontains =>
    exact absurd (BitRange.holds_of_contains hcontains hlive) hwritten
  · split
    · next hbytes =>
      obtain ⟨rfl, rfl⟩ := hbytes
      refine ⟨_, rfl, ?_⟩
      simp [BitRange.Holds, BitRange.low16, BitRange.low8, BitRange.secondByte] at *
      omega
    · split
      · next hhalves =>
        obtain ⟨rfl, rfl⟩ := hhalves
        refine ⟨_, rfl, ?_⟩
        simp [BitRange.Holds, BitRange.low128, BitRange.low64, BitRange.upperHalf] at *
        omega
      · exact ⟨live, rfl, hlive⟩

/-- Going back over a write that makes no bits that matter changes nothing. -/
theorem acrossWrite_of_miss {live live' : Liveness} {r : Register} {written : BitRange}
    {always : Bool} (h : live.acrossWrite r written always = (live', false)) :
    live' = live ∧ ∀ b, live.Holds r b → ¬ written.Holds b := by
  unfold acrossWrite at h
  split at h
  · next hnone =>
    refine ⟨(congrArg Prod.fst h).symm, ?_⟩
    rintro b ⟨range, hrange, -⟩
    rw [hnone] at hrange
    contradiction
  · next range hsome =>
    split at h
    · next hoverlaps =>
      refine ⟨(congrArg Prod.fst h).symm, ?_⟩
      rintro b ⟨range', hrange, hb⟩ hwritten
      rw [hsome, Option.some.injEq] at hrange
      subst hrange
      have hshare := BitRange.overlaps_of_holds hwritten hb
      simp [hshare] at hoverlaps
    · split at h <;> simp at h

/-- Going back over a write keeps the bits that matter, but for those that are always written. -/
theorem holds_acrossWrite (hdistinct : live.Distinct) (r : Register) (written : BitRange)
    (always : Bool) {q : Register} {b : Nat} (h : live.Holds q b) :
    (live.acrossWrite r written always).1.Holds q b ∨ always = true ∧ q = r ∧ written.Holds b := by
  by_cases hwritten : always = true ∧ q = r ∧ written.Holds b
  · exact .inr hwritten
  · left
    unfold acrossWrite
    split
    · exact h
    · next range hrange =>
      split
      · exact h
      · split
        · next halways =>
          obtain ⟨range', hrange', hb⟩ := h
          by_cases hq : q = r
          · subst hq
            rw [hrange, Option.some.injEq] at hrange'
            subst hrange'
            obtain ⟨rest, hleft, hbit⟩ := holds_remainder hb fun hin => hwritten ⟨halways, rfl, hin⟩
            exact ⟨rest, by rw [hdistinct.range?_update hrange, if_pos rfl, hleft], hbit⟩
          · exact ⟨range', by rw [hdistinct.range?_update hrange, if_neg hq, hrange'], hb⟩
        · exact h

/-- A write leaves at most one span for each register. -/
theorem Distinct.acrossWrite {live : Liveness} (h : live.Distinct) (r : Register)
    (written : BitRange) (always : Bool) : (live.acrossWrite r written always).1.Distinct := by
  unfold Liveness.acrossWrite
  split
  · exact h
  · split
    · exact h
    · split
      · exact h.update r _
      · exact h

/-- The writes of an instruction are gone over one by one, and one hit is enough. -/
theorem acrossWrites_cons (live : Liveness) (r : Register) (written : BitRange) (always : Bool)
    (rest : List (Register × BitRange × Bool)) :
    live.acrossWrites ((r, written, always) :: rest) =
      (((live.acrossWrite r written always).1.acrossWrites rest).1,
        (live.acrossWrite r written always).2 ||
          ((live.acrossWrite r written always).1.acrossWrites rest).2) := by
  -- The flag only accumulates, so what a list of writes does starts at any flag.
  have hflag : ∀ (writes : List (Register × BitRange × Bool)) (live : Liveness) (hit : Bool),
      writes.foldl (fun (state : Liveness × Bool) write =>
        let crossed := state.1.acrossWrite write.1 write.2.1 write.2.2
        (crossed.1, state.2 || crossed.2)) (live, hit) =
      ((live.acrossWrites writes).1, hit || (live.acrossWrites writes).2) := by
    intro writes
    unfold acrossWrites
    induction writes with
    | nil => simp
    | cons write rest ih =>
        intro live hit
        rw [List.foldl_cons, List.foldl_cons]
        simp only
        rw [ih, ih _ (false || _)]
        simp [Bool.or_assoc]
  exact hflag rest _ _

/-- Writes that hit nothing leave the map alone, and no bit that they write matters. -/
theorem acrossWrites_of_miss {live live' : Liveness} {writes : List (Register × BitRange × Bool)}
    (h : live.acrossWrites writes = (live', false)) :
    live' = live ∧ ∀ r written always, (r, written, always) ∈ writes →
      ∀ b, live.Holds r b → ¬ written.Holds b := by
  induction writes generalizing live live' with
  | nil => exact ⟨(congrArg Prod.fst h).symm, by simp⟩
  | cons write rest ih =>
      obtain ⟨r, written, always⟩ := write
      cases hfirst : live.acrossWrite r written always with
      | mk first hit =>
      rw [acrossWrites_cons, hfirst] at h
      simp only [Prod.mk.injEq, Bool.or_eq_false_iff] at h
      obtain ⟨hlive, rfl, hrest⟩ := h
      obtain ⟨rfl, hmiss⟩ := acrossWrite_of_miss hfirst
      obtain ⟨hsame, hmissRest⟩ := ih (Prod.ext hlive hrest)
      refine ⟨hsame, ?_⟩
      intro q other always' hmem
      rcases List.mem_cons.mp hmem with heq | hmem
      · simp only [Prod.mk.injEq] at heq
        obtain ⟨rfl, rfl, rfl⟩ := heq
        exact hmiss
      · exact hmissRest q other always' hmem

/-- Going back over writes keeps the bits that matter, but for those that are always written. -/
theorem holds_acrossWrites (hdistinct : live.Distinct)
    (writes : List (Register × BitRange × Bool)) {q : Register} {b : Nat} (h : live.Holds q b) :
    (live.acrossWrites writes).1.Holds q b ∨
      ∃ written, (q, written, true) ∈ writes ∧ written.Holds b := by
  induction writes generalizing live with
  | nil => exact .inl h
  | cons write rest ih =>
      obtain ⟨r, written, always⟩ := write
      rw [acrossWrites_cons]
      rcases holds_acrossWrite hdistinct r written always h with hkept | ⟨rfl, rfl, hwritten⟩
      · rcases ih (hdistinct.acrossWrite r written always) hkept with hkept | ⟨other, hmem, hother⟩
        · exact .inl hkept
        · exact .inr ⟨other, List.mem_cons_of_mem _ hmem, hother⟩
      · exact .inr ⟨written, by simp, hwritten⟩

/-- Writes leave at most one span for each register. -/
theorem Distinct.acrossWrites {live : Liveness} (h : live.Distinct)
    (writes : List (Register × BitRange × Bool)) : (live.acrossWrites writes).1.Distinct := by
  induction writes generalizing live with
  | nil => exact h
  | cons write rest ih =>
      obtain ⟨r, written, always⟩ := write
      rw [acrossWrites_cons]
      exact ih (h.acrossWrite r written always)

/-- There is room for a register that has no span. -/
theorem Distinct.length_lt_capacity {live : Liveness} (h : live.Distinct) {r : Register}
    (hnone : live.range? r = none) : live.length < capacity := by
  have hkeys : (r :: live.map Prod.fst).Nodup :=
    List.nodup_cons.mpr ⟨not_mem_of_range?_eq_none hnone, h⟩
  have hle := (hkeys.subperm fun q _ => Register.mem_all q).length_le
  simpa [capacity] using hle

/-- The span of a register after a read. -/
theorem Distinct.range?_acrossRead (h : live.Distinct) {before : Liveness} {read : BitRange}
    (hread : live.acrossRead r read = .ok before) (q : Register) : before.range? q =
      if q = r then some (((live.range? r).map (·.cover read)).getD read) else live.range? q := by
  unfold acrossRead at hread
  split at hread
  · next range hrange =>
    cases hread
    rw [h.range?_update hrange, hrange]
    rfl
  · next hnone =>
    split at hread
    · cases hread
    · cases hread
      unfold range? at hnone ⊢
      rw [List.lookup_append, hnone]
      by_cases hq : q = r
      · subst hq
        simp [hnone]
      · have hne : (q == r) = false := by simpa using hq
        simp [List.lookup_cons, hne, hq]

/-- Going back over a read lets its bits matter, and all others that did. -/
theorem exists_acrossRead {live : Liveness} (h : live.Distinct) (r : Register) (read : BitRange) :
    ∃ before, live.acrossRead r read = .ok before ∧ before.Distinct ∧
      (∀ q b, live.Holds q b → before.Holds q b) ∧ ∀ b, read.Holds b → before.Holds r b := by
  unfold acrossRead
  cases hrange : live.range? r with
  | some range =>
      refine ⟨_, rfl, h.update r _, ?_, ?_⟩
      · rintro q b ⟨range', hrange', hb⟩
        by_cases hq : q = r
        · subst hq
          rw [hrange, Option.some.injEq] at hrange'
          subst hrange'
          exact ⟨_, by rw [h.range?_update hrange, if_pos rfl], BitRange.holds_cover (.inl hb)⟩
        · exact ⟨range', by rw [h.range?_update hrange, if_neg hq, hrange'], hb⟩
      · intro b hb
        exact ⟨_, by rw [h.range?_update hrange, if_pos rfl], BitRange.holds_cover (.inr hb)⟩
  | none =>
      -- a register without a span is a new one, so there is an entry left for it
      have hroom := h.length_lt_capacity hrange
      have hfresh := not_mem_of_range?_eq_none hrange
      simp only [if_neg (Nat.not_le.mpr hroom)]
      refine ⟨_, rfl, ?_, ?_, ?_⟩
      · unfold Distinct
        rw [List.map_append, List.map_cons, List.map_nil, ← List.concat_eq_append,
          List.nodup_concat]
        exact ⟨hfresh, h⟩
      · rintro q b ⟨range, hq, hb⟩
        refine ⟨range, ?_, hb⟩
        unfold range? at hq ⊢
        rw [List.lookup_append, hq]
        rfl
      · intro b hb
        refine ⟨read, ?_, hb⟩
        unfold range? at hrange ⊢
        rw [List.lookup_append, hrange]
        simp

/-- Reads succeed, and then their bits matter along with all that mattered before. -/
theorem exists_acrossReads {live : Liveness} (h : live.Distinct)
    (reads : List (Register × BitRange)) :
    ∃ before, live.acrossReads reads = .ok before ∧ before.Distinct ∧
      (∀ q b, live.Holds q b → before.Holds q b) ∧
      ∀ r range, (r, range) ∈ reads → ∀ b, range.Holds b → before.Holds r b := by
  induction reads generalizing live with
  | nil => exact ⟨live, rfl, h, fun _ _ hb => hb, by simp⟩
  | cons read rest ih =>
      obtain ⟨r, range⟩ := read
      obtain ⟨first, hfirst, hdistinct, hkept, hread⟩ := exists_acrossRead h r range
      obtain ⟨before, hbefore, hdistinct', hkept', hreads⟩ := ih hdistinct
      refine ⟨before, ?_, hdistinct', fun q b hb => hkept' q b (hkept q b hb), ?_⟩
      · unfold acrossReads at hbefore ⊢
        rw [List.foldlM_cons]
        simp only [hfirst, bind, Except.bind]
        exact hbefore
      · intro q other hmem b hb
        rcases List.mem_cons.mp hmem with heq | hmem
        · simp only [Prod.mk.injEq] at heq
          obtain ⟨rfl, rfl⟩ := heq
          exact hkept' q b (hread b hb)
        · exact hreads q other hmem b hb

/-- A read leaves at most one span for each register. -/
theorem Distinct.acrossRead (h : live.Distinct) {read : BitRange} {before : Liveness}
    (hread : live.acrossRead r read = .ok before) : before.Distinct := by
  obtain ⟨found, hfound, hdistinct, -⟩ := exists_acrossRead h r read
  rw [hfound] at hread
  cases hread
  exact hdistinct

/-- Reads leave at most one span for each register. -/
theorem Distinct.acrossReads (h : live.Distinct) {reads : List (Register × BitRange)}
    {before : Liveness} (hreads : live.acrossReads reads = .ok before) : before.Distinct := by
  obtain ⟨found, hfound, hdistinct, -⟩ := exists_acrossReads h reads
  rw [hfound] at hreads
  cases hreads
  exact hdistinct

/-! ## One instruction -/

/-- Going back over an instruction.  When it is kept, runs that agree before it also agree after it.
When it is dropped, the run without it agrees as well. -/
theorem exists_across {live : Liveness} (hdistinct : live.Distinct) {i : Instruction}
    (hscalar : i.MovesScalar) {operands : Operands}
    (hreads : ∀ r range, (r, range) ∈ operands.reads ↔ .read r range ∈ i.accesses)
    (hwrites : ∀ r range always,
      (r, range, always) ∈ operands.writes ↔ .write r range always ∈ i.accesses) :
    ∃ before kept, live.across operands = .ok (before, kept) ∧ before.Distinct ∧
      ∀ s s' t, i.exec s = some s' → before.Agree s t →
        if kept then ∃ t', i.exec t = some t' ∧ live.Agree s' t' else live.Agree s' t := by
  unfold across
  cases hacross : live.acrossWrites operands.writes with
  | mk written hit =>
  cases hit with
  | false =>
      obtain ⟨rfl, hmiss⟩ := acrossWrites_of_miss hacross
      refine ⟨written, false, rfl, hdistinct, fun s s' t hexec hagree => ?_⟩
      simp only [Bool.false_eq_true, if_false]
      -- what matters afterwards is not written, and so it is the same without the instruction
      intro r b hb
      rw [← hagree r b hb]
      apply Instruction.bit_eq_of_exec hexec
      intro range always hmem
      exact hmiss r range always ((hwrites _ _ _).mpr hmem) b hb
  | true =>
      have hkeeps : ∀ q b, live.Holds q b → (live.acrossWrites operands.writes).1.Holds q b ∨
          ∃ range, (q, range, true) ∈ operands.writes ∧ range.Holds b :=
        fun q b => holds_acrossWrites hdistinct operands.writes
      have hdistinctWritten := hdistinct.acrossWrites operands.writes
      rw [hacross] at hkeeps hdistinctWritten
      obtain ⟨before, hbefore, hdistinctBefore, hkept, hread⟩ :=
        exists_acrossReads hdistinctWritten operands.reads
      refine ⟨before, true, by simp only [hbefore]; rfl, hdistinctBefore, fun s s' t hexec hagree => ?_⟩
      simp only [if_true]
      obtain ⟨t', ht, hagreeWritten⟩ := Instruction.exec_eq_of_agree hscalar hexec (t := t) (by
        intro r range hmem b hb
        exact hagree r b (hread r range ((hreads _ _).mpr hmem) b hb))
      refine ⟨t', ht, fun r b hb => ?_⟩
      -- what matters afterwards was written, from what was read, or is as it was before
      by_cases hout : ∃ range always, .write r range always ∈ i.accesses ∧ range.Holds b
      · obtain ⟨range, always, hmem, hin⟩ := hout
        exact hagreeWritten r range always hmem b hin
      · have hnot : ∀ range always, .write r range always ∈ i.accesses → ¬ range.Holds b :=
          fun range always hmem hin => hout ⟨range, always, hmem, hin⟩
        rw [Instruction.bit_eq_of_exec hexec hnot, Instruction.bit_eq_of_exec ht hnot]
        rcases hkeeps r b hb with hstays | ⟨range, hmem, hin⟩
        · exact hagree r b (hkept r b hstays)
        · exact absurd hin (hnot range true ((hwrites _ _ _).mp hmem))

end Liveness

/-! ## Programs -/

/-- Every move of a lowest number in the catalog is one of a single number. -/
def Catalog.MovesScalar (catalog : Catalog) : Prop :=
  ∀ i ∈ catalog.instructions, i.MovesScalar

/-- Built catalogs have no packed moves of a lowest number. -/
theorem Catalog.movesScalar_of_build {host : Host} {options : CatalogOptions} {catalog : Catalog}
    (h : Catalog.build host options = .ok catalog) : catalog.MovesScalar := by
  intro i hi
  obtain ⟨-, hexpands, -⟩ := (Catalog.mem_iff_of_build h).mp hi
  cases i with
  | moveLow form dst src =>
      obtain ⟨⟨rfl, hscalar⟩, -⟩ := hexpands
      exact hscalar
  | _ => trivial

namespace Program

/-- Going back over an opcode of the catalog. -/
theorem exists_backOver {catalog : Catalog} (hmoves : catalog.MovesScalar) {opcode : Opcode}
    {i : Instruction} (hopcode : catalog.instruction? opcode = some i) (position : Nat)
    {live : Liveness} (hdistinct : live.Distinct) :
    ∃ before kept, backOver catalog.accessTable opcode position live = .ok (before, kept) ∧
      before.Distinct ∧
      ∀ s s' t, i.exec s = some s' → before.Agree s t →
        if kept then ∃ t', i.exec t = some t' ∧ live.Agree s' t' else live.Agree s' t := by
  obtain ⟨operands, hoperands, hmemory, hreads, hwrites⟩ := Operands.exists_ofAccesses i
  have hscalar := hmoves i (Catalog.mem_of_instruction? hopcode)
  obtain ⟨before, kept, hacross, hbefore, hagree⟩ :=
    Liveness.exists_across hdistinct hscalar hreads hwrites
  refine ⟨before, kept, ?_, hbefore, hagree⟩
  simp only [backOver, Catalog.accessTable, hopcode, Option.map_some, hoperands, bind, Except.bind,
    hmemory, Bool.false_eq_true, if_false]
  exact hacross

/-- Going back over a program.  From registers that agree where it matters, what is kept of the
program runs without a fault if the program does, and the runs end in agreement. -/
theorem exists_liveBefore {catalog : Catalog} (hmoves : catalog.MovesScalar) {output : Liveness}
    (houtput : output.Distinct) {program : Program} {instructions : List Instruction}
    (hprogram : program.instructions catalog = .ok instructions) (position : Nat) :
    ∃ live kept keptInstructions,
      liveBefore catalog.accessTable output position program = .ok (live, kept) ∧ live.Distinct ∧
      kept.instructions catalog = .ok keptInstructions ∧
      ∀ s s' t, Instruction.execAll instructions s = some s' → live.Agree s t →
        ∃ t', Instruction.execAll keptInstructions t = some t' ∧ output.Agree s' t' := by
  have hforall := (instructions_eq_ok_iff _ _ _).mp hprogram
  clear hprogram
  -- from the end of the program, as the analysis goes
  induction hforall generalizing position with
  | nil =>
      refine ⟨output, [], [], rfl, houtput, rfl, fun s s' t hexec hagree => ⟨t, rfl, ?_⟩⟩
      rw [Instruction.execAll_nil, Option.some.injEq] at hexec
      exact hexec ▸ hagree
  | @cons opcode i rest instructions hopcode hrest ih =>
      obtain ⟨after, kept, keptInstructions, hafter, hdistinct, hkept, hruns⟩ := ih (position + 1)
      obtain ⟨live, isLive, hlive, hdistinct', hstep⟩ :=
        exists_backOver hmoves hopcode position hdistinct
      refine ⟨live, if isLive then opcode :: kept else kept,
        if isLive then i :: keptInstructions else keptInstructions, ?_, hdistinct', ?_, ?_⟩
      · simp only [liveBefore, hafter, bind, Except.bind, hlive, pure, Except.pure]
      · cases isLive with
        | false => exact hkept
        | true =>
            exact (instructions_eq_ok_iff _ _ _).mpr
              (.cons hopcode ((instructions_eq_ok_iff _ _ _).mp hkept))
      · intro s s' t hexec hagree
        rw [Instruction.execAll_cons] at hexec
        obtain ⟨u, hu, hexec⟩ := Option.bind_eq_some_iff.mp hexec
        have hnext := hstep s u t hu hagree
        cases isLive with
        | false => exact hruns u s' t hexec hnext
        | true =>
            obtain ⟨v, hv, hagree'⟩ := hnext
            obtain ⟨t', ht', hend⟩ := hruns u s' v hexec hagree'
            refine ⟨t', ?_, hend⟩
            simp only [if_true, Instruction.execAll_cons, hv]
            exact ht'

/-- Introns are found, and dropping them keeps a span of the output wherever the whole program runs
without a fault. -/
theorem exists_eliminateIntrons {catalog : Catalog} (hmoves : catalog.MovesScalar)
    {program : Program} {instructions : List Instruction}
    (hprogram : program.instructions catalog = .ok instructions) (output : Register)
    (range : BitRange) :
    ∃ kept keptInstructions,
      program.eliminateIntrons catalog.accessTable output range = .ok kept ∧
      kept.instructions catalog = .ok keptInstructions ∧
      ∀ s t, Instruction.execAll instructions s = some t →
        ∃ u, Instruction.execAll keptInstructions s = some u ∧ u.AgreeAt t output range := by
  have hdistinct : Liveness.Distinct [(output, range)] := List.nodup_singleton output
  obtain ⟨live, kept, keptInstructions, hlive, -, hkept, hruns⟩ :=
    exists_liveBefore hmoves hdistinct hprogram 0
  refine ⟨kept, keptInstructions, ?_, hkept, fun s t hexec => ?_⟩
  · unfold eliminateIntrons
    rw [hlive]
    rfl
  · obtain ⟨u, hu, hagree⟩ := hruns s t s hexec fun _ _ _ => rfl
    refine ⟨u, hu, fun i hi => ?_⟩
    exact (hagree output i ⟨range, by simp [Liveness.range?], hi⟩).symm

/-- Dropping introns keeps the output.  The catalogs that can be built move single numbers only.  For
every such catalog, program over its opcodes and span of an output register, the introns are found;
and wherever the whole program runs without a fault, so does what is left of it, with the same bits
in the span. -/
theorem eliminateIntrons_preserves :
    (∀ host options catalog, Catalog.build host options = .ok catalog → catalog.MovesScalar) ∧
    ∀ catalog : Catalog, catalog.MovesScalar → ∀ program : Program, program.Known catalog →
      ∀ (output : Register) (range : BitRange), ∃ instructions kept keptInstructions,
        program.instructions catalog = .ok instructions ∧
        program.eliminateIntrons catalog.accessTable output range = .ok kept ∧
        kept.instructions catalog = .ok keptInstructions ∧
        ∀ s t, Instruction.execAll instructions s = some t →
          ∃ u, Instruction.execAll keptInstructions s = some u ∧
            ∀ i, range.Holds i → u.bit output i = t.bit output i := by
  refine ⟨fun host options catalog hbuild => Catalog.movesScalar_of_build hbuild, ?_⟩
  intro catalog hmoves program hknown output range
  obtain ⟨instructions, hinstructions⟩ := hknown.instructions
  obtain ⟨kept, keptInstructions, helim, hkept, hruns⟩ :=
    exists_eliminateIntrons hmoves hinstructions output range
  exact ⟨instructions, kept, keptInstructions, hinstructions, helim, hkept, hruns⟩

/-- A count that is never read is dropped from behind a division. -/
theorem eliminateIntrons_preserves_div : ∃ kept keptInstructions u,
    eliminateIntrons (Catalog.accessTable ⟨#[.div .rcx false, .unary .inc .rsi], .i64, false,
      Nat.two_pos, Nat.le_of_ble_eq_true rfl⟩) (.gpr .rax) .low64 [2, 3] = .ok kept ∧
    kept.instructions ⟨#[.div .rcx false, .unary .inc .rsi], .i64, false, Nat.two_pos,
      Nat.le_of_ble_eq_true rfl⟩ = .ok keptInstructions ∧
    Instruction.execAll keptInstructions ⟨14, 3, 0, 0, 0, 0, 0, 0⟩ = some u ∧
    ∀ i, BitRange.low64.Holds i → u.bit (.gpr .rax) i = (4#64).getLsbD i := by
  have hmoves : Catalog.MovesScalar ⟨#[.div .rcx false, .unary .inc .rsi], .i64, false,
      Nat.two_pos, Nat.le_of_ble_eq_true rfl⟩ := by
    intro i hi
    simp at hi
    rcases hi with rfl | rfl <;> trivial
  have hknown : Known ⟨#[.div .rcx false, .unary .inc .rsi], .i64, false,
      Nat.two_pos, Nat.le_of_ble_eq_true rfl⟩ [2, 3] := by
    intro opcode hopcode
    simp at hopcode
    rcases hopcode with rfl | rfl
    · exact ⟨_, rfl⟩
    · exact ⟨_, rfl⟩
  obtain ⟨instructions, kept, keptInstructions, hinstructions, helim, hkept, hruns⟩ :=
    eliminateIntrons_preserves.2 _ hmoves [2, 3] hknown (.gpr .rax) .low64
  have hfull : instructions = [.div .rcx false, .unary .inc .rsi] := by
    injection hinstructions.symm
  obtain ⟨u, hu, hbits⟩ := hruns ⟨14, 3, 0, 0, 0, 0, 0, 0⟩ ⟨4, 3, 2, 1, 0, 0, 0, 0⟩
    (by rw [hfull]; decide)
  exact ⟨kept, keptInstructions, u, helim, hkept, hu, hbits⟩

end Program

end LinearGP
