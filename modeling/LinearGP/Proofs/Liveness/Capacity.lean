import LinearGP.Proofs.Liveness.Bits

/-!
# The analysis of introns has room

The spans that matter stand in a table with one entry for each of the eight registers, and the reads
and writes of an instruction in tables of four and two.  None of them is ever full when an entry is
added: `Liveness.Compact` holds of every map that the analysis of a program goes through, also between
the reads and writes of one instruction.

So the analysis fails for two reasons only, and it meets the last opcode of the program first.
`liveBefore_eq_error_iff` says which opcode it turns down, and at which position.
-/

set_option autoImplicit false

namespace LinearGP

/-! ## Opcodes that are turned down -/

namespace AccessTable

/-- No entry of the table reads more than four spans or writes more than two. -/
def Fits (table : AccessTable) : Prop :=
  ∀ opcode accesses, table opcode = some accesses →
    (accesses.filterMap Access.read?).length ≤ 4 ∧ (accesses.filterMap Access.write?).length ≤ 2

/-- Every read in the table is one of at least a bit. -/
def ReadsBits (table : AccessTable) : Prop :=
  ∀ opcode accesses, table opcode = some accesses →
    ∀ (r : Register) (range : BitRange), .read r range ∈ accesses → range.Nonempty

/-- The table knows the opcode, and that it does not access memory. -/
def Handles (table : AccessTable) (opcode : Opcode) : Prop :=
  ∃ accesses, table opcode = some accesses ∧ ∀ access ∈ accesses, access.isMemory = false

/-- Why an opcode is turned down at a position of a program. -/
inductive Refuses (table : AccessTable) (opcode : Opcode) (position : Nat) : Failure → Prop
  | unknown (hopcode : table opcode = none) :
      Refuses table opcode position (.error (.unknownOpcode opcode))
  | memory {accesses : List Access} (hopcode : table opcode = some accesses) {access : Access}
      (hmem : access ∈ accesses) (hmemory : access.isMemory = true) :
      Refuses table opcode position (.error (.memoryOperand position))

variable {table : AccessTable} {opcode : Opcode}

/-- The opcodes that a fitting table handles have few accesses. -/
theorem Fits.exists_few (h : table.Fits) (hopcode : table.Handles opcode) :
    ∃ accesses, table opcode = some accesses ∧ Access.Few accesses := by
  obtain ⟨accesses, hentry, hmemory⟩ := hopcode
  obtain ⟨hreads, hwrites⟩ := h opcode accesses hentry
  exact ⟨accesses, hentry, hreads, hwrites, hmemory⟩

/-- There is a reason to turn down every opcode that the table does not handle. -/
theorem exists_refuses (hopcode : ¬ table.Handles opcode) (position : Nat) :
    ∃ failure, table.Refuses opcode position failure := by
  cases hentry : table opcode with
  | none => exact ⟨_, .unknown hentry⟩
  | some accesses =>
      have haccess : ∃ access ∈ accesses, access.isMemory = true := by
        by_contra hnone
        refine hopcode ⟨accesses, hentry, fun access hmem => ?_⟩
        exact Bool.eq_false_iff.mpr fun hmemory => hnone ⟨access, hmem, hmemory⟩
      obtain ⟨access, hmem, hmemory⟩ := haccess
      exact ⟨_, .memory hentry hmem hmemory⟩

end AccessTable

/-! ## Edits of a map -/

namespace Liveness

/-- A map as a table with one entry for each register can hold it. -/
structure Compact (live : Liveness) : Prop where
  /-- No register has two entries. -/
  distinct : live.Distinct
  length_le : live.length ≤ 8
  /-- To replace the span of a register is to write to the place of its entry. -/
  replace_eq : ∀ (n : Nat) (r : Register) (old new : BitRange), live[n]? = some (r, old) →
    live.update r (some new) = live.set n (r, new)
  /-- To drop it is to move the last entry to that place, -/
  drop_eq : ∀ (n : Nat) (r : Register) (old : BitRange), live[n]? = some (r, old) →
    ∃ last, live.getLast? = some last ∧ live.update r none = (live.set n last).dropLast
  /-- which leaves the entries of all other registers. -/
  drop_perm : ∀ (n : Nat) (r : Register) (old : BitRange), live[n]? = some (r, old) →
    (live.update r none).Perm (live.filter fun entry => entry.1 ≠ r)

/-- All spans of a map have bits. -/
def Filled (live : Liveness) : Prop := ∀ entry ∈ live, entry.2.Nonempty

variable {live other : Liveness} {r : Register} {range : BitRange}

/-- A map with at most one span for each register has at most as many entries as there are
registers. -/
theorem Distinct.length_le (h : live.Distinct) : live.length ≤ capacity := by
  have hle := (h.subperm fun q _ => Register.mem_all q).length_le
  simpa [capacity] using hle

/-- A map with at most one span for each register is compact. -/
theorem Distinct.compact (h : live.Distinct) : live.Compact where
  distinct := h
  length_le := h.length_le
  replace_eq n r old new hentry := by
    unfold Liveness.update
    rw [h.place?_eq hentry]
  drop_eq n r old hentry := by
    have hsome : live ≠ [] := List.ne_nil_of_mem (List.mem_of_getElem? hentry)
    refine ⟨live.getLast hsome, List.getLast?_eq_some_getLast hsome, ?_⟩
    unfold Liveness.update
    simp only [h.place?_eq hentry, swapRemove, List.getLast?_eq_some_getLast hsome]
  drop_perm n r old hentry :=
    h.update_perm_others (h.range?_eq_some_iff.mpr (List.mem_of_getElem? hentry)) none

/-! ## Spans with bits -/

/-- Where each register has one span, a map is filled when every span that is found has bits. -/
theorem Distinct.filled_iff (h : live.Distinct) :
    live.Filled ↔ ∀ r range, live.range? r = some range → range.Nonempty := by
  simp only [h.range?_eq_some_iff]
  exact ⟨fun hfilled r range hmem => hfilled _ hmem, fun hrange entry hmem => hrange _ _ hmem⟩

/-- A span that is found in a filled map has bits. -/
theorem Filled.range? (h : live.Filled) (hdistinct : live.Distinct)
    (hrange : live.range? r = some range) : range.Nonempty :=
  hdistinct.filled_iff.mp h r range hrange

/-- What is left of a span with bits has some of them. -/
theorem nonempty_remainder {live written rest : BitRange} (h : live.Nonempty)
    (hrest : remainder live written = some rest) : rest.Nonempty := by
  unfold remainder at hrest
  split at hrest
  · cases hrest
  · split at hrest
    · cases hrest
      decide
    · split at hrest
      · cases hrest
        decide
      · cases hrest
        exact h

/-- An edit that leaves a span with bits, or none, keeps all spans that way. -/
theorem Filled.update (h : live.Filled) (hdistinct : live.Distinct) (r : Register)
    {new : Option BitRange} (hnew : ∀ range, new = some range → range.Nonempty) :
    (live.update r new).Filled := by
  cases hrange : live.range? r with
  | none => rwa [update_of_range?_eq_none hrange]
  | some old =>
      refine (hdistinct.update r new).filled_iff.mpr fun q range hq => ?_
      rw [hdistinct.range?_update hrange] at hq
      split at hq
      · exact hnew range hq
      · exact h.range? hdistinct hq

/-- What a write leaves has bits. -/
theorem Filled.acrossWrite (h : live.Filled) (hdistinct : live.Distinct) (r : Register)
    (written : BitRange) (always : Bool) : (live.acrossWrite r written always).1.Filled := by
  unfold Liveness.acrossWrite
  split
  · exact h
  · next range hrange =>
    split
    · exact h
    · split
      · have hspan := h.range? hdistinct hrange
        exact h.update hdistinct r fun rest hrest => nonempty_remainder hspan hrest
      · exact h

/-- What the writes of an instruction leave has bits. -/
theorem Filled.acrossWrites (h : live.Filled) (hdistinct : live.Distinct)
    (writes : List (Register × BitRange × Bool)) : (live.acrossWrites writes).1.Filled := by
  induction writes generalizing live with
  | nil => exact h
  | cons write rest ih =>
      obtain ⟨r, written, always⟩ := write
      rw [acrossWrites_cons]
      exact ih (h.acrossWrite hdistinct r written always) (hdistinct.acrossWrite r written always)

/-- A read of bits adds no empty span. -/
theorem Filled.acrossRead (h : live.Filled) (hdistinct : live.Distinct) {read : BitRange}
    (hnonempty : read.Nonempty) {before : Liveness} (hread : live.acrossRead r read = .ok before) :
    before.Filled := by
  refine (hdistinct.acrossRead hread).filled_iff.mpr fun q range hq => ?_
  rw [hdistinct.range?_acrossRead hread] at hq
  split at hq
  · cases hold : live.range? r with
    | none =>
        rw [hold] at hq
        cases hq
        exact hnonempty
    | some old =>
        rw [hold] at hq
        cases hq
        exact (h.range? hdistinct hold).cover read
  · exact h.range? hdistinct hq

/-- Reads of bits add no empty span. -/
theorem Filled.acrossReads (h : live.Filled) (hdistinct : live.Distinct)
    {reads : List (Register × BitRange)} (hnonempty : ∀ read ∈ reads, read.2.Nonempty)
    {before : Liveness} (hreads : live.acrossReads reads = .ok before) : before.Filled := by
  induction reads generalizing live with
  | nil =>
      cases hreads
      exact h
  | cons read rest ih =>
      unfold Liveness.acrossReads at hreads ih
      rw [List.foldlM_cons] at hreads
      obtain ⟨first, hfirst, hrest⟩ := bind_eq_ok_iff.mp hreads
      obtain ⟨hread, hnonempty⟩ := List.forall_mem_cons.mp hnonempty
      exact ih (h.acrossRead hdistinct hread hfirst) (hdistinct.acrossRead hfirst) hnonempty hrest

/-! ## The order of entries -/

/-- Two maps with the same entries, and the same mark for an instruction. -/
def SameEntries (a b : Liveness × Bool) : Prop := a.1.Perm b.1 ∧ a.2 = b.2

/-- A write does the same to the same entries in any order. -/
theorem Distinct.acrossWrite_perm (h : live.Distinct) (hperm : live.Perm other) (r : Register)
    (written : BitRange) (always : Bool) :
    SameEntries (live.acrossWrite r written always) (other.acrossWrite r written always) := by
  unfold Liveness.acrossWrite
  rw [← h.range?_perm hperm]
  split
  · exact ⟨hperm, rfl⟩
  · split
    · exact ⟨hperm, rfl⟩
    · split
      · exact ⟨h.update_perm hperm r _, rfl⟩
      · exact ⟨hperm, rfl⟩

/-- The writes of an instruction do the same to the same entries in any order. -/
theorem Distinct.acrossWrites_perm (h : live.Distinct) (hperm : live.Perm other)
    (writes : List (Register × BitRange × Bool)) :
    SameEntries (live.acrossWrites writes) (other.acrossWrites writes) := by
  induction writes generalizing live other with
  | nil => exact ⟨hperm, rfl⟩
  | cons write rest ih =>
      obtain ⟨r, written, always⟩ := write
      obtain ⟨hfirst, hhit⟩ := h.acrossWrite_perm hperm r written always
      obtain ⟨hlive, hhits⟩ := ih (h.acrossWrite r written always) hfirst
      rw [acrossWrites_cons, acrossWrites_cons, hhit, hhits]
      exact ⟨hlive, rfl⟩

/-- A read lets the same entries matter.  As the first map has room, so has the second. -/
theorem Distinct.acrossRead_perm (h : live.Distinct) (hperm : live.Perm other) (r : Register)
    (read : BitRange) : SameResult (fun a b : Liveness => a.Distinct ∧ a.Perm b)
      (live.acrossRead r read) (other.acrossRead r read) := by
  obtain ⟨before, hbefore, hdistinct, -⟩ := exists_acrossRead h r read
  unfold Liveness.acrossRead at hbefore ⊢
  rw [← h.range?_perm hperm, ← hperm.length_eq]
  cases hrange : live.range? r with
  | some range =>
      simp only [hrange, Except.ok.injEq] at hbefore
      exact .ok ⟨hbefore ▸ hdistinct, h.update_perm hperm r _⟩
  | none =>
      have hroom := Nat.not_le.mpr (h.length_lt_capacity hrange)
      simp only [hrange, if_neg hroom, Except.ok.injEq] at hbefore ⊢
      exact .ok ⟨hbefore ▸ hdistinct, hperm.append_right _⟩

/-- Going back over an instruction does the same to the same entries in any order. -/
theorem Distinct.across_perm (h : live.Distinct) (hperm : live.Perm other) (operands : Operands) :
    SameResult SameEntries (live.across operands) (other.across operands) := by
  obtain ⟨hlive, hhit⟩ := h.acrossWrites_perm hperm operands.writes
  have hdistinct := h.acrossWrites operands.writes
  unfold across
  cases hwrites : live.acrossWrites operands.writes with
  | mk written hit =>
  cases hwrites' : other.acrossWrites operands.writes with
  | mk written' hit' =>
  rw [hwrites, hwrites'] at hlive hhit
  rw [hwrites] at hdistinct
  obtain rfl : hit = hit' := hhit
  cases hit with
  | false => exact .ok ⟨hlive, rfl⟩
  | true =>
      have hreads : SameResult (fun a b : Liveness => a.Distinct ∧ a.Perm b)
          (written.acrossReads operands.reads) (written'.acrossReads operands.reads) :=
        SameResult.foldlM (fun _ _ read hab => hab.1.acrossRead_perm hab.2 read.1 read.2) _
          ⟨hdistinct, hlive⟩
      exact hreads.bind fun _ _ hends => .ok ⟨hends.2, rfl⟩

/-! ## Maps on the way -/

/-- The maps between the accesses of an instruction: one after each write, and, if the instruction is
kept, one after each read. -/
inductive Passes (live : Liveness) (operands : Operands) : Liveness → Prop
  | writes (n : Nat) : Passes live operands (live.acrossWrites (operands.writes.take n)).1
  | reads (n : Nat) {written before : Liveness}
      (hwrites : live.acrossWrites operands.writes = (written, true))
      (hreads : written.acrossReads (operands.reads.take n) = .ok before) :
      Passes live operands before

variable {operands : Operands}

/-- The maps between the accesses of an instruction have at most one span for each register. -/
theorem Distinct.passes (h : live.Distinct) {inner : Liveness} (hinner : live.Passes operands inner) :
    inner.Distinct := by
  cases hinner with
  | writes n => exact h.acrossWrites _
  | reads n hwrites hreads =>
      have hwritten := h.acrossWrites operands.writes
      rw [hwrites] at hwritten
      exact hwritten.acrossReads hreads

/-- The spans of the maps between the accesses of an instruction have bits. -/
theorem Filled.passes (h : live.Filled) (hdistinct : live.Distinct)
    (hreads : ∀ read ∈ operands.reads, read.2.Nonempty) {inner : Liveness}
    (hinner : live.Passes operands inner) : inner.Filled := by
  cases hinner with
  | writes n => exact h.acrossWrites hdistinct _
  | reads n hwrites hbefore =>
      have hwritten := h.acrossWrites hdistinct operands.writes
      have hwrittenDistinct := hdistinct.acrossWrites operands.writes
      rw [hwrites] at hwritten hwrittenDistinct
      exact hwritten.acrossReads hwrittenDistinct
        (fun read hmem => hreads read (List.mem_of_mem_take hmem)) hbefore

/-- The last of the maps on the way is what going back over the instruction yields. -/
theorem passes_of_across {before : Liveness} {kept : Bool}
    (hacross : live.across operands = .ok (before, kept)) : live.Passes operands before := by
  unfold across at hacross
  cases hwrites : live.acrossWrites operands.writes with
  | mk written hit =>
  rw [hwrites] at hacross
  cases hit with
  | false =>
      cases hacross
      have hall : live.Passes operands _ := .writes operands.writes.length
      rwa [List.take_length, hwrites] at hall
  | true =>
      obtain ⟨found, hreads, hfound⟩ := bind_eq_ok_iff.mp hacross
      cases hfound
      exact .reads operands.reads.length hwrites (by rwa [List.take_length])

end Liveness

/-! ## Programs -/

namespace Program

/-- The maps that the analysis of a program goes through, in front of each opcode and between the
accesses of each. -/
inductive Visits (table : AccessTable) (output : Liveness) (program : Program) : Liveness → Prop
  | between {before after : Program} (hprogram : program = before ++ after) {live : Liveness}
      {kept : Program} (hlive : liveBefore table output before.length after = .ok (live, kept)) :
      Visits table output program live
  | within {before after : Program} {opcode : Opcode} (hprogram : program = before ++ opcode :: after)
      {live inner : Liveness} {kept : Program}
      (hlive : liveBefore table output (before.length + 1) after = .ok (live, kept))
      {accesses : List Access} (hopcode : table opcode = some accesses) {operands : Operands}
      (hoperands : Operands.ofAccesses accesses = .ok operands)
      (hinner : live.Passes operands inner) : Visits table output program inner

variable {table : AccessTable} {opcode : Opcode} {position : Nat} {output live before : Liveness}
  {program kept : Program} {failure : Failure}

/-- The map before an opcode has at most one span for each register if the one after it does. -/
theorem distinct_of_backOver {isLive : Bool} (h : live.Distinct)
    (hback : backOver table opcode position live = .ok (before, isLive)) : before.Distinct := by
  obtain ⟨_, operands, -, -, -, hacross⟩ := backOver_eq_ok_iff.mp hback
  exact h.passes (Liveness.passes_of_across hacross)

/-- The map before a program has at most one span for each register if the one after it does. -/
theorem distinct_of_liveBefore (houtput : output.Distinct)
    (h : liveBefore table output position program = .ok (live, kept)) : live.Distinct := by
  induction program generalizing position live kept with
  | nil =>
      cases h
      exact houtput
  | cons opcode rest ih =>
      obtain ⟨after, _, _, hrest, hback, -⟩ := liveBefore_cons_eq_ok_iff.mp h
      exact distinct_of_backOver (ih hrest) hback

/-- Every map that the analysis goes through has at most one span for each register. -/
theorem Visits.distinct (h : Visits table output program live) (houtput : output.Distinct) :
    live.Distinct := by
  cases h with
  | between _ hlive => exact distinct_of_liveBefore houtput hlive
  | within _ hlive _ _ hinner => exact (distinct_of_liveBefore houtput hlive).passes hinner

/-- The reads that are recorded of an entry are its own. -/
theorem nonempty_of_mem_reads (hfits : table.Fits) (hbits : table.ReadsBits) {accesses : List Access}
    (hopcode : table opcode = some accesses) {operands : Operands}
    (hoperands : Operands.ofAccesses accesses = .ok operands) :
    ∀ read ∈ operands.reads, read.2.Nonempty := by
  obtain ⟨hreads, hwrites⟩ := hfits opcode accesses hopcode
  rw [Operands.ofAccesses_eq_ok hreads hwrites] at hoperands
  cases hoperands
  exact fun read hmem => hbits opcode accesses hopcode _ _ (Access.mem_filterMap_read?.mp hmem)

/-- The spans of the map before a program have bits if those of the one after it do. -/
theorem filled_of_liveBefore (hfits : table.Fits) (hbits : table.ReadsBits)
    (houtput : output.Distinct) (hfilled : output.Filled)
    (h : liveBefore table output position program = .ok (live, kept)) : live.Filled := by
  induction program generalizing position live kept with
  | nil =>
      cases h
      exact hfilled
  | cons opcode rest ih =>
      obtain ⟨after, _, _, hrest, hback, -⟩ := liveBefore_cons_eq_ok_iff.mp h
      obtain ⟨_, operands, hopcode, hoperands, -, hacross⟩ := backOver_eq_ok_iff.mp hback
      exact (ih hrest).passes (distinct_of_liveBefore houtput hrest)
        (nonempty_of_mem_reads hfits hbits hopcode hoperands) (Liveness.passes_of_across hacross)

/-- The spans of every map that the analysis goes through have bits. -/
theorem Visits.filled (h : Visits table output program live) (hfits : table.Fits)
    (hbits : table.ReadsBits) (houtput : output.Distinct) (hfilled : output.Filled) :
    live.Filled := by
  cases h with
  | between _ hlive => exact filled_of_liveBefore hfits hbits houtput hfilled hlive
  | within _ hlive hopcode hoperands hinner =>
      exact (filled_of_liveBefore hfits hbits houtput hfilled hlive).passes
        (distinct_of_liveBefore houtput hlive)
        (nonempty_of_mem_reads hfits hbits hopcode hoperands) hinner

/-- The order of the entries does not matter to what comes before an opcode. -/
theorem backOver_perm {other : Liveness} (h : live.Distinct) (hperm : live.Perm other) :
    SameResult Liveness.SameEntries (backOver table opcode position live)
      (backOver table opcode position other) := by
  unfold backOver
  cases table opcode with
  | none => exact .error _
  | some accesses =>
      refine SameResult.bind (R := Eq) ?_ ?_
      · cases Operands.ofAccesses accesses with
        | error failure => exact .error failure
        | ok operands => exact .ok rfl
      · rintro operands _ rfl
        split
        · exact .error _
        · exact h.across_perm hperm operands

/-- An opcode that the table handles is gone over without a failure. -/
theorem exists_backOver_of_handles (hfits : table.Fits) (hdistinct : live.Distinct)
    (hopcode : table.Handles opcode) (position : Nat) :
    ∃ before isLive, backOver table opcode position live = .ok (before, isLive) := by
  obtain ⟨accesses, hentry, hfew⟩ := hfits.exists_few hopcode
  obtain ⟨before, isLive, hacross, -⟩ := Liveness.exists_across_few hdistinct accesses
  exact ⟨before, isLive, (backOver_of_few hentry hfew live).trans hacross⟩

/-- Going back over an opcode fails exactly where the opcode is turned down. -/
theorem backOver_eq_error_iff (hfits : table.Fits) (hdistinct : live.Distinct) :
    backOver table opcode position live = .error failure ↔ table.Refuses opcode position failure := by
  have hrefused : ∀ failure, table.Refuses opcode position failure →
      backOver table opcode position live = .error failure := by
    intro failure hrefuses
    cases hrefuses with
    | unknown hentry => simp only [backOver, hentry, refuse]
    | memory hentry hmem hmemory =>
        obtain ⟨hreads, hwrites⟩ := hfits _ _ hentry
        have hany := List.any_eq_true.mpr ⟨_, hmem, hmemory⟩
        simp only [backOver, hentry, Operands.ofAccesses_eq_ok hreads hwrites, bind, Except.bind, hany,
          if_true, refuse]
  refine ⟨fun h => ?_, hrefused failure⟩
  by_cases hopcode : table.Handles opcode
  · obtain ⟨before, isLive, hback⟩ :=
      exists_backOver_of_handles hfits hdistinct hopcode position
    rw [hback] at h
    cases h
  · obtain ⟨cause, hcause⟩ := AccessTable.exists_refuses hopcode position
    have heq := (hrefused cause hcause).symm.trans h
    cases heq
    exact hcause

/-- Going back over a program succeeds exactly if the table handles all of its opcodes. -/
theorem exists_liveBefore_iff (hfits : table.Fits) (houtput : output.Distinct) (position : Nat)
    (program : Program) :
    (∃ live kept, liveBefore table output position program = .ok (live, kept)) ↔
      ∀ opcode ∈ program, table.Handles opcode := by
  induction program generalizing position with
  | nil => exact ⟨fun _ => by simp, fun _ => ⟨output, [], rfl⟩⟩
  | cons opcode rest ih =>
      rw [List.forall_mem_cons, ← ih (position + 1)]
      constructor
      · rintro ⟨live, kept, h⟩
        obtain ⟨after, keptRest, isLive, hrest, hback, -⟩ := liveBefore_cons_eq_ok_iff.mp h
        refine ⟨?_, after, keptRest, hrest⟩
        by_contra hopcode
        obtain ⟨cause, hcause⟩ := AccessTable.exists_refuses hopcode position
        have hdistinct := distinct_of_liveBefore houtput hrest
        rw [(backOver_eq_error_iff hfits hdistinct).mpr hcause] at hback
        cases hback
      · rintro ⟨hopcode, after, keptRest, hrest⟩
        obtain ⟨before, isLive, hback⟩ :=
          exists_backOver_of_handles hfits (distinct_of_liveBefore houtput hrest) hopcode position
        exact ⟨before, _, liveBefore_cons_eq_ok_iff.mpr ⟨after, keptRest, isLive, hrest, hback, rfl⟩⟩

/-- A failure later in a program is the failure of the program. -/
theorem liveBefore_cons_of_error {rest : Program}
    (h : liveBefore table output (position + 1) rest = .error failure) :
    liveBefore table output position (opcode :: rest) = .error failure := by
  simp only [liveBefore, h, bind, Except.bind]

/-- When all that follows it can be gone over, an opcode decides about failure. -/
theorem liveBefore_cons_of_ok {rest : Program}
    (h : liveBefore table output (position + 1) rest = .ok (live, kept)) :
    liveBefore table output position (opcode :: rest) = .error failure ↔
      backOver table opcode position live = .error failure := by
  simp only [liveBefore, h, bind, Except.bind]
  cases backOver table opcode position live <;> simp [pure, Except.pure]

/-- Where a list is cut in front of one of its elements: at its head, or further on. -/
private theorem exists_cut_cons {α : Type} (P : List α → Prop) (Q : α → Nat → Prop) (first : α)
    (rest : List α) (position : Nat) :
    (∃ before a after, first :: rest = before ++ a :: after ∧ P after ∧
        Q a (position + before.length)) ↔
      P rest ∧ Q first position ∨ ∃ before a after, rest = before ++ a :: after ∧ P after ∧
        Q a (position + 1 + before.length) := by
  constructor
  · rintro ⟨_ | ⟨head, before⟩, a, after, hcut, hafter, ha⟩
    · cases hcut
      exact .inl ⟨hafter, ha⟩
    · cases hcut
      refine .inr ⟨before, a, after, rfl, hafter, ?_⟩
      rwa [List.length_cons, Nat.add_comm before.length, ← Nat.add_assoc] at ha
  · rintro (⟨hafter, ha⟩ | ⟨before, a, after, rfl, hafter, ha⟩)
    · exact ⟨[], first, rest, rfl, hafter, ha⟩
    · refine ⟨first :: before, a, after, rfl, hafter, ?_⟩
      rwa [List.length_cons, Nat.add_comm before.length, ← Nat.add_assoc]

/-- Going back over a program fails exactly at the last opcode that is turned down. -/
theorem liveBefore_eq_error_iff (hfits : table.Fits) (houtput : output.Distinct) (position : Nat)
    (program : Program) :
    liveBefore table output position program = .error failure ↔
      ∃ before opcode after, program = before ++ opcode :: after ∧
        (∀ later ∈ after, table.Handles later) ∧
        table.Refuses opcode (position + before.length) failure := by
  induction program generalizing position with
  | nil => simp [liveBefore]
  | cons opcode rest ih =>
      rw [exists_cut_cons (fun after => ∀ later ∈ after, table.Handles later)
        (fun opcode position => table.Refuses opcode position failure), ← ih (position + 1),
        ← exists_liveBefore_iff hfits houtput (position + 1)]
      cases hrest : liveBefore table output (position + 1) rest with
      | error cause =>
          rw [liveBefore_cons_of_error hrest]
          simp
      | ok result =>
          obtain ⟨live, kept⟩ := result
          rw [liveBefore_cons_of_ok hrest,
            backOver_eq_error_iff hfits (distinct_of_liveBefore houtput hrest)]
          simp

/-- The output alone is one span. -/
theorem distinct_output (r : Register) (range : BitRange) : Liveness.Distinct [(r, range)] :=
  List.nodup_singleton r

/-- Introns can be eliminated from the programs whose opcodes the table handles, and only from
these. -/
theorem exists_eliminateIntrons_iff (hfits : table.Fits) {r : Register} {range : BitRange} :
    (∃ kept, program.eliminateIntrons table r range = .ok kept) ↔
      ∀ opcode ∈ program, table.Handles opcode := by
  rw [← exists_liveBefore_iff hfits (distinct_output r range) 0, eliminateIntrons]
  cases liveBefore table [(r, range)] 0 program with
  | error failure => simp [Except.map]
  | ok result => exact ⟨fun _ => ⟨result.1, result.2, rfl⟩, fun _ => ⟨result.2, rfl⟩⟩

/-- Elimination fails with the reason why the last opcode that the table does not handle is turned
down. -/
theorem eliminateIntrons_eq_error_iff (hfits : table.Fits) {r : Register} {range : BitRange} :
    program.eliminateIntrons table r range = .error failure ↔
      ∃ before opcode after, program = before ++ opcode :: after ∧
        (∀ later ∈ after, table.Handles later) ∧ table.Refuses opcode before.length failure := by
  have hiff := @liveBefore_eq_error_iff table _ failure hfits (distinct_output r range) 0 program
  simp only [Nat.zero_add] at hiff
  rw [← hiff, eliminateIntrons]
  cases liveBefore table [(r, range)] 0 program <;> simp [Except.map]

/-- The analysis never runs out of room, and its failures are exact.  Every map that it goes through
has one entry for each register at most, and could list them in any order; none of the spans is empty
if those of the output and of the reads are not.  The analysis succeeds exactly if the table handles
all opcodes of the program, dead ones included.  Otherwise it fails at the last one that is not
handled. -/
theorem eliminateIntrons_outcome (hfits : table.Fits) (program : Program) (output : Register)
    (range : BitRange) :
    (∀ live, Visits table [(output, range)] program live → live.Compact ∧
      ∀ other, live.Perm other → ∀ opcode position, SameResult Liveness.SameEntries
        (backOver table opcode position live) (backOver table opcode position other)) ∧
    (range.Nonempty → table.ReadsBits →
      ∀ live, Visits table [(output, range)] program live → live.Filled) ∧
    (∀ cause, program.eliminateIntrons table output range ≠ breach cause) ∧
    ((∃ kept, program.eliminateIntrons table output range = .ok kept) ↔
      ∀ opcode ∈ program, table.Handles opcode) ∧
    ∀ failure, program.eliminateIntrons table output range = .error failure ↔
      ∃ before opcode after, program = before ++ opcode :: after ∧
        (∀ later ∈ after, table.Handles later) ∧
        table.Refuses opcode before.length failure := by
  refine ⟨fun live hlive => ?_, fun hrange hbits live hlive => ?_, fun cause hcause => ?_,
    exists_eliminateIntrons_iff hfits, fun failure => eliminateIntrons_eq_error_iff hfits⟩
  · have hdistinct := hlive.distinct (distinct_output output range)
    exact ⟨hdistinct.compact, fun other hperm opcode position => backOver_perm hdistinct hperm⟩
  · exact hlive.filled hfits hbits (distinct_output output range) (List.forall_mem_singleton.mpr hrange)
  · obtain ⟨_, _, _, -, -, hrefuses⟩ := (eliminateIntrons_eq_error_iff hfits).mp hcause
    cases hrefuses

/-- One instruction that reads all general purpose registers, one that reads all vector registers, and
one that reads memory. -/
private def crowdedEntries : List (Opcode × List Access) :=
  [(2, Gpr.all.map (fun r => .read (.gpr r) .low64) ++ [.write (.gpr .rax) .low64 true]),
    (3, Xmm.all.map (fun r => .read (.xmm r) .low128) ++ [.write (.gpr .rax) .low8 false]),
    (4, [.memoryRead 64])]

private def crowded : AccessTable := fun opcode => crowdedEntries.lookup opcode

/-- All eight registers matter in front of the third opcode.  The second one, which is dead, is turned
down, and the unknown one before it is never reached. -/
theorem eliminateIntrons_outcome_crowded :
    (∃ live kept, liveBefore crowded [(.gpr .rax, .low64)] 2 [3, 2] = .ok (live, kept) ∧
      live.length = 8 ∧ live.Compact ∧ live.Filled) ∧
    eliminateIntrons crowded (.gpr .rax) .low64 [9, 4, 3, 2] = refuse (.memoryOperand 1) := by
  have hmem : ∀ opcode accesses, crowded opcode = some accesses →
      (opcode, accesses) ∈ crowdedEntries := by
    intro opcode accesses h
    obtain ⟨front, back, hentries, -⟩ := List.lookup_eq_some_iff.mp h
    rw [hentries]
    exact List.mem_append_right _ List.mem_cons_self
  have hfits : AccessTable.Fits crowded := by
    intro opcode accesses h
    have hall : ∀ entry ∈ crowdedEntries, (entry.2.filterMap Access.read?).length ≤ 4 ∧
        (entry.2.filterMap Access.write?).length ≤ 2 := by decide
    exact hall _ (hmem opcode accesses h)
  have hbits : AccessTable.ReadsBits crowded := by
    intro opcode accesses h r range hread
    have hall : ∀ entry ∈ crowdedEntries, ∀ read ∈ entry.2.filterMap Access.read?,
        read.2.Nonempty := by decide
    exact hall _ (hmem opcode accesses h) _ (Access.mem_filterMap_read?.mpr hread)
  obtain ⟨hvisits, hfilled, -, -, hfailure⟩ :=
    eliminateIntrons_outcome hfits [9, 4, 3, 2] (.gpr .rax) .low64
  constructor
  · obtain ⟨live, kept, hlive, hlength⟩ : ∃ live kept,
        liveBefore crowded [(.gpr .rax, .low64)] 2 [3, 2] = .ok (live, kept) ∧ live.length = 8 :=
      ⟨_, _, rfl, rfl⟩
    have hprogram : ([9, 4, 3, 2] : Program) = [9, 4] ++ [3, 2] := rfl
    have hvisit := Visits.between hprogram hlive
    exact ⟨live, kept, hlive, hlength, (hvisits live hvisit).1,
      hfilled (by decide) hbits live hvisit⟩
  · refine (hfailure _).mpr ⟨[9], 4, [3, 2], rfl, fun later hlater => ?_, ?_⟩
    · rcases List.mem_pair.mp hlater with rfl | rfl
      · exact ⟨_, rfl, by decide⟩
      · exact ⟨_, rfl, by decide⟩
    · exact .memory rfl List.mem_cons_self rfl

end Program

end LinearGP
