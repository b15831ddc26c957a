import LinearGP.Proofs.Liveness.Idempotence

/-!
# Liveness bit by bit

The analysis knows one span of bits for each register.  `Program.bitLiveness` goes back over a program
with a set of single bits instead: an instruction that writes one of them is live, takes away the bits
that it always writes and adds those that it reads.

Spans are coarser than sets of bits, so more of the program may be kept than is live.  `Program.marks`
tells which instructions are kept, and `exists_marks` says that all live ones are among them.
-/

set_option autoImplicit false

namespace LinearGP

/-- A set of bits of registers. -/
abbrev Bits := Finset (Register × ℕ)

/-- The bits of a span of a register. -/
def BitRange.bits (range : BitRange) (r : Register) : Bits :=
  {r} ×ˢ Finset.Ico range.start range.stop

/-- The bits of a span of a register are those it holds, in this register. -/
theorem BitRange.mem_bits {range : BitRange} {r q : Register} {b : ℕ} :
    (q, b) ∈ range.bits r ↔ q = r ∧ range.Holds b := by
  rw [bits, Finset.mem_product, Finset.mem_singleton, Finset.mem_Ico, Holds]

/-! ## Bits of accesses -/

namespace Access

/-- The bits that are read. -/
def readBits (accesses : List Access) : Bits :=
  (accesses.filterMap read?).toFinset.biUnion fun (r, range) => range.bits r

/-- The bits that are written, perhaps on a condition. -/
def writtenBits (accesses : List Access) : Bits :=
  (accesses.filterMap write?).toFinset.biUnion fun (r, range, _) => range.bits r

/-- The bits that are written on every run. -/
def overwrittenBits (accesses : List Access) : Bits :=
  ((accesses.filterMap write?).filter fun (_, _, always) => always).toFinset.biUnion
    fun (r, range, _) => range.bits r

/-- Accesses are live where they write a bit that matters. -/
def IsLive (accesses : List Access) (live : Bits) : Prop := ¬ Disjoint (writtenBits accesses) live

instance (accesses : List Access) (live : Bits) : Decidable (IsLive accesses live) :=
  inferInstanceAs (Decidable (¬ _))

/-- The bits that matter before accesses. -/
def bitsBefore (accesses : List Access) (live : Bits) : Bits :=
  if IsLive accesses live then (live \ overwrittenBits accesses) ∪ readBits accesses else live

variable {accesses : List Access} {r : Register} {range : BitRange} {always : Bool} {b : ℕ}

/-- The reads among accesses. -/
theorem mem_filterMap_read? : (r, range) ∈ accesses.filterMap read? ↔ .read r range ∈ accesses := by
  rw [List.mem_filterMap]
  constructor
  · rintro ⟨access, hmem, hread⟩
    cases access <;> simp [read?] at hread
    obtain ⟨rfl, rfl⟩ := hread
    exact hmem
  · exact fun h => ⟨_, h, rfl⟩

/-- The writes among accesses. -/
theorem mem_filterMap_write? :
    (r, range, always) ∈ accesses.filterMap write? ↔ .write r range always ∈ accesses := by
  rw [List.mem_filterMap]
  constructor
  · rintro ⟨access, hmem, hwrite⟩
    cases access <;> simp [write?] at hwrite
    obtain ⟨rfl, rfl, rfl⟩ := hwrite
    exact hmem
  · exact fun h => ⟨_, h, rfl⟩

/-- A bit is read when some read holds it. -/
theorem mem_readBits : (r, b) ∈ readBits accesses ↔
    ∃ range, .read r range ∈ accesses ∧ range.Holds b := by
  simp only [readBits, Finset.mem_biUnion, List.mem_toFinset, Prod.exists, mem_filterMap_read?,
    BitRange.mem_bits]
  constructor
  · rintro ⟨_, range, hmem, rfl, hb⟩
    exact ⟨range, hmem, hb⟩
  · rintro ⟨range, hmem, hb⟩
    exact ⟨r, range, hmem, rfl, hb⟩

/-- A bit is written when some write holds it. -/
theorem mem_writtenBits : (r, b) ∈ writtenBits accesses ↔
    ∃ range always, .write r range always ∈ accesses ∧ range.Holds b := by
  simp only [writtenBits, Finset.mem_biUnion, List.mem_toFinset, Prod.exists, mem_filterMap_write?,
    BitRange.mem_bits]
  constructor
  · rintro ⟨_, range, always, hmem, rfl, hb⟩
    exact ⟨range, always, hmem, hb⟩
  · rintro ⟨range, always, hmem, hb⟩
    exact ⟨r, range, always, hmem, rfl, hb⟩

/-- A bit is overwritten when some write that is always made holds it. -/
theorem mem_overwrittenBits : (r, b) ∈ overwrittenBits accesses ↔
    ∃ range, .write r range true ∈ accesses ∧ range.Holds b := by
  simp only [overwrittenBits, Finset.mem_biUnion, List.mem_toFinset, List.mem_filter, Prod.exists,
    mem_filterMap_write?, BitRange.mem_bits]
  constructor
  · rintro ⟨_, range, always, ⟨hmem, rfl⟩, rfl, hb⟩
    exact ⟨range, hmem, hb⟩
  · rintro ⟨range, hmem, hb⟩
    exact ⟨r, range, true, ⟨hmem, rfl⟩, rfl, hb⟩

/-- Accesses are live when one of the writes holds a bit that matters. -/
theorem isLive_iff {live : Bits} : IsLive accesses live ↔
    ∃ r range always b, .write r range always ∈ accesses ∧ range.Holds b ∧ (r, b) ∈ live := by
  rw [IsLive, Finset.not_disjoint_iff]
  constructor
  · rintro ⟨⟨r, b⟩, hwritten, hlive⟩
    obtain ⟨range, always, hmem, hb⟩ := mem_writtenBits.mp hwritten
    exact ⟨r, range, always, b, hmem, hb, hlive⟩
  · rintro ⟨r, range, always, b, hmem, hb, hlive⟩
    exact ⟨(r, b), mem_writtenBits.mpr ⟨range, always, hmem, hb⟩, hlive⟩

/-- There are few enough accesses to registers for the analysis, and none to memory. -/
structure Few (accesses : List Access) : Prop where
  reads_le : (accesses.filterMap read?).length ≤ Operands.readCapacity
  writes_le : (accesses.filterMap write?).length ≤ Operands.writeCapacity
  isMemory_eq : ∀ access ∈ accesses, access.isMemory = false

end Access

namespace Operands

/-- The operands that are recorded are the reads and the writes, in their order. -/
theorem foldl_extend_eq (accesses : List Access) (o : Operands) :
    accesses.foldl extend o =
      { reads := o.reads ++ accesses.filterMap Access.read?
        writes := o.writes ++ accesses.filterMap Access.write?
        memory := o.memory || accesses.any Access.isMemory } := by
  induction accesses generalizing o with
  | nil => simp
  | cons access rest ih =>
      rw [List.foldl_cons, ih]
      cases access <;>
        simp [extend, List.filterMap_cons, Access.read?, Access.write?, Access.isMemory]

/-- As many accesses as there is room for are recorded. -/
theorem ofAccesses_eq_ok {accesses : List Access}
    (hreads : (accesses.filterMap Access.read?).length ≤ readCapacity)
    (hwrites : (accesses.filterMap Access.write?).length ≤ writeCapacity) :
    ofAccesses accesses = .ok
      { reads := accesses.filterMap Access.read?
        writes := accesses.filterMap Access.write?
        memory := accesses.any Access.isMemory } := by
  have hall : accesses.foldl extend empty = _ := foldl_extend_eq accesses empty
  simp only [empty, List.nil_append, Bool.false_or] at hall
  have hrecord := foldlM_record accesses empty (by rw [empty, hall]; exact hreads)
    (by rw [empty, hall]; exact hwrites)
  rw [ofAccesses, hrecord, empty, hall]

/-- The operands of few accesses are recorded in full. -/
theorem ofAccesses_of_few {accesses : List Access} (h : Access.Few accesses) :
    ofAccesses accesses = .ok
      { reads := accesses.filterMap Access.read?
        writes := accesses.filterMap Access.write?
        memory := false } := by
  have hmemory : accesses.any Access.isMemory = false := by simpa using h.isMemory_eq
  rw [ofAccesses_eq_ok h.reads_le h.writes_le, hmemory]

/-- Instructions have few accesses, and none to memory. -/
theorem few_accesses (i : Instruction) : Access.Few i.accesses := by
  obtain ⟨hreads, hwrites, hmemory⟩ := foldl_extend_accesses i
  rw [foldl_extend_eq] at hreads hwrites hmemory
  exact ⟨by simpa [empty] using hreads, by simpa [empty] using hwrites, by simpa [empty] using hmemory⟩

end Operands

/-! ## One instruction -/

namespace Liveness

/-- All bits of a set matter. -/
def Covers (live : Liveness) (bits : Bits) : Prop := ∀ r b, (r, b) ∈ bits → live.Holds r b

/-- Going back over few accesses.  They are kept when they write a bit that matters.  Of those that are
kept, the bits that are always written may be gone, and those that are read matter. -/
theorem exists_across_few {live : Liveness} (hdistinct : live.Distinct) (accesses : List Access) :
    ∃ before kept,
      live.across ⟨accesses.filterMap Access.read?, accesses.filterMap Access.write?, false⟩ =
        .ok (before, kept) ∧ before.Distinct ∧
      (∀ r range always, .write r range always ∈ accesses →
        ∀ b, range.Holds b → live.Holds r b → kept = true) ∧
      (∀ r b, live.Holds r b →
        before.Holds r b ∨ kept = true ∧ (r, b) ∈ Access.overwrittenBits accesses) ∧
      (kept = true → before.Covers (Access.readBits accesses)) := by
  have hkeeps := fun q b (hb : live.Holds q b) =>
    holds_acrossWrites hdistinct (accesses.filterMap Access.write?) hb
  have hwritten := hdistinct.acrossWrites (accesses.filterMap Access.write?)
  unfold across
  simp only
  cases hwrites : live.acrossWrites (accesses.filterMap Access.write?) with
  | mk written hit =>
  rw [hwrites] at hkeeps hwritten
  cases hit with
  | false =>
      obtain ⟨rfl, hmiss⟩ := acrossWrites_of_miss hwrites
      refine ⟨written, false, rfl, hdistinct, ?_, fun _ _ hb => .inl hb, fun h => by cases h⟩
      intro r range always hmem b hb hlive
      exact absurd hb (hmiss r range always (Access.mem_filterMap_write?.mpr hmem) b hlive)
  | true =>
      obtain ⟨before, hbefore, hbeforeDistinct, hkept, hreads⟩ :=
        exists_acrossReads hwritten (accesses.filterMap Access.read?)
      refine ⟨before, true, by simp only [hbefore]; rfl, hbeforeDistinct, fun _ _ _ _ _ _ _ => rfl, ?_,
        fun _ => ?_⟩
      · intro r b hb
        rcases hkeeps r b hb with hstays | ⟨range, hmem, hin⟩
        · exact .inl (hkept r b hstays)
        · exact .inr ⟨rfl, Access.mem_overwrittenBits.mpr
            ⟨range, Access.mem_filterMap_write?.mp hmem, hin⟩⟩
      · intro r b hb
        obtain ⟨range, hmem, hin⟩ := Access.mem_readBits.mp hb
        exact hreads r range (Access.mem_filterMap_read?.mpr hmem) b hin

end Liveness

/-! ## Programs -/

namespace Program

/-- The bits that matter before a program, when only the given ones matter after it, and for each of
its instructions whether it is live. -/
def bitLiveness (table : AccessTable) (output : Bits) : Program → Bits × List Bool
  | [] => (output, [])
  | opcode :: rest =>
    let (live, marks) := bitLiveness table output rest
    let accesses := (table opcode).getD []
    (Access.bitsBefore accesses live, decide (Access.IsLive accesses live) :: marks)

/-- The live instructions of a program. -/
def bitMarks (table : AccessTable) (output : Register) (range : BitRange) (program : Program) :
    List Bool :=
  (bitLiveness table (range.bits output) program).2

/-- The spans that matter before the rest of a program, which starts at a position, and for each
instruction of the rest whether it is kept. -/
def marksBefore (table : AccessTable) (output : Liveness) :
    (position : Nat) → Program → Except Failure (Liveness × List Bool)
  | _, [] => .ok (output, [])
  | position, opcode :: rest => do
    let (live, marks) ← marksBefore table output (position + 1) rest
    let (live, isLive) ← backOver table opcode position live
    return (live, isLive :: marks)

/-- For each instruction of a program, whether it is kept. -/
def marks (table : AccessTable) (output : Register) (range : BitRange) (program : Program) :
    Except Failure (List Bool) :=
  (marksBefore table [(output, range)] 0 program).map (·.2)

/-- The opcodes with a mark. -/
def marked (program : Program) (marks : List Bool) : Program :=
  (program.zip marks).filterMap fun (opcode, mark) => if mark then some opcode else none

/-- What is kept of a program are the opcodes with a mark. -/
theorem liveBefore_eq (table : AccessTable) (output : Liveness) (position : Nat) (program : Program) :
    liveBefore table output position program =
      (marksBefore table output position program).map fun (live, marks) =>
        (live, program.marked marks) := by
  induction program generalizing position with
  | nil => rfl
  | cons opcode rest ih =>
      simp only [liveBefore, marksBefore, ih]
      cases marksBefore table output (position + 1) rest with
      | error failure => rfl
      | ok result =>
          obtain ⟨live, marks⟩ := result
          simp only [Except.map, bind, Except.bind]
          cases backOver table opcode position live with
          | error failure => rfl
          | ok result =>
              obtain ⟨before, isLive⟩ := result
              cases isLive <;> simp [marked, pure, Except.pure]

/-- What is kept of a program are the instructions with a mark. -/
theorem eliminateIntrons_eq (table : AccessTable) (output : Register) (range : BitRange)
    (program : Program) : program.eliminateIntrons table output range =
      (program.marks table output range).map program.marked := by
  rw [eliminateIntrons, marks, liveBefore_eq]
  cases marksBefore table [(output, range)] 0 program <;> rfl

variable {table : AccessTable} {opcode : Opcode} {position : Nat}

/-- The mark of an opcode comes from going back over it, after all that follows it. -/
theorem marksBefore_cons {output live before : Liveness} {rest : Program} {marks : List Bool}
    {isLive : Bool} (hrest : marksBefore table output (position + 1) rest = .ok (live, marks))
    (hback : backOver table opcode position live = .ok (before, isLive)) :
    marksBefore table output position (opcode :: rest) = .ok (before, isLive :: marks) := by
  simp only [marksBefore, hrest, bind, Except.bind, hback, pure, Except.pure]

/-- Going back over an opcode with few accesses is going back over its reads and writes. -/
theorem backOver_of_few {accesses : List Access} (hopcode : table opcode = some accesses)
    (hfew : Access.Few accesses) (live : Liveness) : backOver table opcode position live =
      live.across ⟨accesses.filterMap Access.read?, accesses.filterMap Access.write?, false⟩ := by
  simp only [backOver, hopcode, Operands.ofAccesses_of_few hfew, bind, Except.bind,
    Bool.false_eq_true, if_false]

/-- Going back over a program finds spans that cover the bits that matter, and marks all live
instructions. -/
theorem exists_marksBefore {output : Liveness} {bits : Bits} (houtput : output.Distinct)
    (hcovers : output.Covers bits) {program : Program}
    (hprogram : ∀ opcode ∈ program, ∃ accesses, table opcode = some accesses ∧ Access.Few accesses)
    (position : Nat) :
    ∃ live marks, marksBefore table output position program = .ok (live, marks) ∧ live.Distinct ∧
      live.Covers (bitLiveness table bits program).1 ∧
      List.Forall₂ (fun bit mark => bit = true → mark = true) (bitLiveness table bits program).2
        marks := by
  induction program generalizing position with
  | nil => exact ⟨output, [], rfl, houtput, hcovers, .nil⟩
  | cons opcode rest ih =>
      obtain ⟨accesses, hopcode, hfew⟩ := hprogram opcode List.mem_cons_self
      obtain ⟨live, marks, hrest, hdistinct, hlive, hmarks⟩ :=
        ih (fun opcode hmem => hprogram opcode (List.mem_cons_of_mem _ hmem)) (position + 1)
      obtain ⟨before, kept, hacross, hbefore, hkept, hstays, hreads⟩ :=
        Liveness.exists_across_few hdistinct accesses
      -- a live instruction is kept, as the spans cover the bits that it writes
      have hmark : Access.IsLive accesses (bitLiveness table bits rest).1 → kept = true := by
        intro h
        obtain ⟨r, range, always, b, hmem, hb, hin⟩ := Access.isLive_iff.mp h
        exact hkept r range always hmem b hb (hlive r b hin)
      refine ⟨before, kept :: marks,
        marksBefore_cons hrest ((backOver_of_few hopcode hfew live).trans hacross), hbefore, ?_, ?_⟩
      · simp only [bitLiveness, hopcode, Option.getD_some]
        unfold Access.bitsBefore
        intro r b hb
        split at hb
        · next hisLive =>
          rcases Finset.mem_union.mp hb with hold | hread
          · obtain ⟨hin, hnot⟩ := Finset.mem_sdiff.mp hold
            exact (hstays r b (hlive r b hin)).resolve_right fun h => hnot h.2
          · exact hreads (hmark hisLive) r b hread
        · next hdead =>
          -- what is kept without being live always writes bits that do not matter
          refine (hstays r b (hlive r b hb)).resolve_right fun ⟨_, hover⟩ => hdead ?_
          obtain ⟨range, hmem, hin⟩ := Access.mem_overwrittenBits.mp hover
          exact Access.isLive_iff.mpr ⟨r, range, true, b, hmem, hin, hb⟩
      · simp only [bitLiveness, hopcode, Option.getD_some]
        exact .cons (fun h => hmark (of_decide_eq_true h)) hmarks

/-- At the end of a program the bits of its output matter. -/
theorem covers_output (output : Register) (range : BitRange) :
    Liveness.Covers [(output, range)] (range.bits output) := by
  intro r b hb
  obtain ⟨rfl, hin⟩ := BitRange.mem_bits.mp hb
  exact ⟨range, by simp [Liveness.range?], hin⟩

/-- Every live instruction is kept. -/
theorem exists_marks {program : Program}
    (hprogram : ∀ opcode ∈ program, ∃ accesses, table opcode = some accesses ∧ Access.Few accesses)
    (output : Register) (range : BitRange) :
    ∃ marks, program.marks table output range = .ok marks ∧
      List.Forall₂ (fun bit mark => bit = true → mark = true) (program.bitMarks table output range)
        marks := by
  have hdistinct : Liveness.Distinct [(output, range)] := List.nodup_singleton output
  obtain ⟨live, marks, hmarks, -, -, hlive⟩ :=
    exists_marksBefore hdistinct (covers_output output range) hprogram 0
  exact ⟨marks, by rw [Program.marks, hmarks]; rfl, hlive⟩

end Program

end LinearGP
