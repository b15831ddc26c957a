import LinearGP.Proofs.Liveness.Bits

/-!
# Where one span for each register is exact

Cutting a span and joining two may leave bits that do not matter in a span.  It never does as long as
general purpose registers are accessed as a whole, and vector registers as a whole or in their lower
half: then the bits of a register that matter are its lower half, its upper half or all of it, and the
spans stay exact.  Catalogs are built from such instructions, but for those that work on one single
precision number in each register.

`eliminateIntrons_precise` puts this beside what holds of all instructions.
-/

set_option autoImplicit false

namespace LinearGP

/-! ## Spans -/

namespace Register

/-- Spans that are read and written: whole registers, and lower halves of vector registers. -/
def Accessible : Register → BitRange → Prop
  | gpr _, range => range = .low64
  | xmm _, range => range = .low64 ∨ range = .low128

/-- Spans that matter: whole registers, lower halves, and upper halves of vector registers. -/
def Tidy : Register → BitRange → Prop
  | gpr _, range => range = .low32 ∨ range = .low64
  | xmm _, range => range = .low64 ∨ range = .low128 ∨ range = .upperHalf

variable {r : Register} {live written read : BitRange}

/-- A span that can be accessed is tidy. -/
theorem Accessible.tidy (h : r.Accessible read) : r.Tidy read := by
  cases r with
  | gpr r => exact .inr h
  | xmm r => exact h.imp_right .inl

/-- A tidy span has bits. -/
theorem Tidy.nonempty (h : r.Tidy live) : live.Nonempty := by
  cases r with
  | gpr r => obtain rfl | rfl := h <;> decide
  | xmm r => obtain rfl | rfl | rfl := h <;> decide

/-- What a write leaves of a tidy span is tidy, and has no bit that was written. -/
theorem Tidy.remainder (hlive : r.Tidy live) (hwritten : r.Accessible written) {rest : BitRange}
    (hrest : Liveness.remainder live written = some rest) :
    r.Tidy rest ∧ ∀ b, rest.Holds b → live.Holds b ∧ ¬ written.Holds b := by
  cases r with
  | gpr r =>
      obtain rfl := hwritten
      obtain rfl | rfl := hlive <;> cases hrest
  | xmm r =>
      obtain rfl | rfl | rfl := hlive <;> obtain rfl | rfl := hwritten <;> cases hrest
      · -- the lower half of a whole register is written
        refine ⟨.inr (.inr rfl), fun b hb => ?_⟩
        simp only [BitRange.Holds, BitRange.upperHalf, BitRange.low128, BitRange.low64] at hb ⊢
        omega
      · -- the lower half is written where the upper half matters
        refine ⟨.inr (.inr rfl), fun b hb => ⟨hb, ?_⟩⟩
        simp only [BitRange.Holds, BitRange.upperHalf, BitRange.low64] at hb ⊢
        omega

/-- A tidy span joined with a read is tidy, and has only bits of the two. -/
theorem Tidy.cover (hlive : r.Tidy live) (hread : r.Accessible read) :
    r.Tidy (live.cover read) ∧ ∀ b, (live.cover read).Holds b → live.Holds b ∨ read.Holds b := by
  have hmerge : ∀ b, (live.cover read).Holds b → read.start ≤ live.stop → live.start ≤ read.stop →
      live.Holds b ∨ read.Holds b := by
    intro b hb
    simp only [BitRange.Holds, BitRange.cover] at hb ⊢
    omega
  cases r with
  | gpr r =>
      obtain rfl := hread
      obtain rfl | rfl := hlive <;>
        exact ⟨.inr rfl, fun b hb => hmerge b hb (by decide) (by decide)⟩
  | xmm r =>
      obtain rfl | rfl | rfl := hlive <;> obtain rfl | rfl := hread
      · exact ⟨.inl rfl, fun b hb => hmerge b hb (by decide) (by decide)⟩
      all_goals exact ⟨.inr (.inl rfl), fun b hb => hmerge b hb (by decide) (by decide)⟩

end Register

/-! ## One instruction -/

/-- An access to a register keeps the spans exact. -/
def Access.Accessible : Access → Prop
  | read r range => r.Accessible range
  | write r range _ => r.Accessible range
  | _ => True

namespace Liveness

/-- The spans hold the bits that matter and no others. -/
def Exact (live : Liveness) (bits : Bits) : Prop := ∀ r b, live.Holds r b ↔ (r, b) ∈ bits

/-- Every span is one that cuts and joins keep exact. -/
def Tidy (live : Liveness) : Prop := ∀ r range, live.range? r = some range → r.Tidy range

namespace Tidy

variable {live before : Liveness}

/-- A write leaves tidy spans, and no bit that it overwrites. -/
theorem acrossWrite (h : live.Tidy) (hdistinct : live.Distinct) {r : Register} {written : BitRange}
    (hwritten : r.Accessible written) (always : Bool) :
    (live.acrossWrite r written always).1.Tidy ∧
      ∀ q b, (live.acrossWrite r written always).1.Holds q b →
        live.Holds q b ∧ ¬ (always = true ∧ q = r ∧ written.Holds b) := by
  unfold Liveness.acrossWrite
  -- the register has no span, or one that the write misses, or one that it hits
  split
  · next hnone =>
    refine ⟨h, fun q b hb => ⟨hb, ?_⟩⟩
    rintro ⟨-, rfl, -⟩
    obtain ⟨range, hrange, -⟩ := hb
    rw [hnone] at hrange
    cases hrange
  · next range hrange =>
    split
    · next hapart =>
      refine ⟨h, fun q b hb => ⟨hb, ?_⟩⟩
      rintro ⟨-, rfl, hin⟩
      obtain ⟨range', hrange', hlive⟩ := hb
      rw [hrange, Option.some.injEq] at hrange'
      subst hrange'
      simp [BitRange.overlaps_of_holds hin hlive] at hapart
    · split
      · have hnew : ∀ q rest, (live.update r (remainder range written)).range? q = some rest →
            q.Tidy rest ∧ ∀ b, rest.Holds b → live.Holds q b ∧ ¬ (q = r ∧ written.Holds b) := by
          intro q rest hrest
          rw [hdistinct.range?_update hrange] at hrest
          by_cases hq : q = r
          · subst hq
            rw [if_pos rfl] at hrest
            obtain ⟨htidy, hbits⟩ := (h q range hrange).remainder hwritten hrest
            refine ⟨htidy, fun b hb => ?_⟩
            exact ⟨⟨range, hrange, (hbits b hb).1⟩, fun hin => (hbits b hb).2 hin.2⟩
          · rw [if_neg hq] at hrest
            exact ⟨h q rest hrest, fun b hb => ⟨⟨rest, hrest, hb⟩, fun hin => hq hin.1⟩⟩
        refine ⟨fun q rest hrest => (hnew q rest hrest).1, ?_⟩
        rintro q b ⟨rest, hrest, hb⟩
        obtain ⟨hlive, hnot⟩ := (hnew q rest hrest).2 b hb
        exact ⟨hlive, fun hin => hnot hin.2⟩
      · next hsometimes => exact ⟨h, fun q b hb => ⟨hb, fun hin => hsometimes hin.1⟩⟩

/-- The writes of an instruction leave tidy spans, and no bit that one of them overwrites. -/
theorem acrossWrites (h : live.Tidy) (hdistinct : live.Distinct)
    {writes : List (Register × BitRange × Bool)}
    (hwrites : ∀ r written always, (r, written, always) ∈ writes → r.Accessible written) :
    (live.acrossWrites writes).1.Tidy ∧
      ∀ q b, (live.acrossWrites writes).1.Holds q b →
        live.Holds q b ∧ ∀ written, (q, written, true) ∈ writes → ¬ written.Holds b := by
  induction writes generalizing live with
  | nil => exact ⟨h, fun q b hb => ⟨hb, by simp⟩⟩
  | cons write rest ih =>
      obtain ⟨r, written, always⟩ := write
      obtain ⟨hfirst, hfirstBits⟩ :=
        h.acrossWrite hdistinct (hwrites r written always List.mem_cons_self) always
      obtain ⟨htidy, hbits⟩ := ih hfirst (hdistinct.acrossWrite r written always)
        fun r written always hmem => hwrites r written always (List.mem_cons_of_mem _ hmem)
      rw [acrossWrites_cons]
      refine ⟨htidy, fun q b hb => ?_⟩
      obtain ⟨hstays, hrest⟩ := hbits q b hb
      obtain ⟨hlive, hnot⟩ := hfirstBits q b hstays
      refine ⟨hlive, fun other hmem hin => ?_⟩
      rcases List.mem_cons.mp hmem with heq | hmem
      · simp only [Prod.mk.injEq] at heq
        obtain ⟨rfl, rfl, rfl⟩ := heq
        exact hnot ⟨rfl, rfl, hin⟩
      · exact hrest other hmem hin

/-- A read leaves tidy spans, and adds only bits that it reads. -/
theorem acrossRead (h : live.Tidy) (hdistinct : live.Distinct) {r : Register} {read : BitRange}
    (hread : r.Accessible read) (hbefore : live.acrossRead r read = .ok before) :
    before.Tidy ∧ ∀ q b, before.Holds q b → live.Holds q b ∨ q = r ∧ read.Holds b := by
  have hnew : ∀ q range, before.range? q = some range →
      q.Tidy range ∧ ∀ b, range.Holds b → live.Holds q b ∨ q = r ∧ read.Holds b := by
    intro q range hrange
    rw [hdistinct.range?_acrossRead hbefore] at hrange
    by_cases hq : q = r
    · subst hq
      rw [if_pos rfl, Option.some.injEq] at hrange
      cases hold : live.range? q with
      | none =>
          rw [hold] at hrange
          obtain rfl : read = range := hrange
          exact ⟨hread.tidy, fun b hb => .inr ⟨rfl, hb⟩⟩
      | some old =>
          rw [hold] at hrange
          obtain rfl : old.cover read = range := hrange
          obtain ⟨htidy, hbits⟩ := (h q old hold).cover hread
          refine ⟨htidy, fun b hb => (hbits b hb).imp ?_ ?_⟩
          · exact fun hin => ⟨old, hold, hin⟩
          · exact fun hin => ⟨rfl, hin⟩
    · rw [if_neg hq] at hrange
      exact ⟨h q range hrange, fun b hb => .inl ⟨range, hrange, hb⟩⟩
  refine ⟨fun q range hrange => (hnew q range hrange).1, ?_⟩
  rintro q b ⟨range, hrange, hb⟩
  exact (hnew q range hrange).2 b hb

/-- The reads of an instruction leave tidy spans, and add only bits that one of them reads. -/
theorem acrossReads (h : live.Tidy) (hdistinct : live.Distinct) {reads : List (Register × BitRange)}
    (hreads : ∀ r read, (r, read) ∈ reads → r.Accessible read)
    (hbefore : live.acrossReads reads = .ok before) :
    before.Tidy ∧ ∀ q b, before.Holds q b →
      live.Holds q b ∨ ∃ read, (q, read) ∈ reads ∧ read.Holds b := by
  induction reads generalizing live with
  | nil =>
      cases hbefore
      exact ⟨h, fun q b hb => .inl hb⟩
  | cons entry rest ih =>
      obtain ⟨r, read⟩ := entry
      unfold Liveness.acrossReads at hbefore ih
      rw [List.foldlM_cons] at hbefore
      obtain ⟨first, hfirst, hrest⟩ := bind_eq_ok_iff.mp hbefore
      obtain ⟨hfirstTidy, hfirstBits⟩ :=
        h.acrossRead hdistinct (hreads r read List.mem_cons_self) hfirst
      obtain ⟨htidy, hbits⟩ := ih hfirstTidy (hdistinct.acrossRead hfirst)
        (fun r read hmem => hreads r read (List.mem_cons_of_mem _ hmem)) hrest
      refine ⟨htidy, fun q b hb => ?_⟩
      rcases hbits q b hb with hstays | ⟨other, hmem, hin⟩
      · rcases hfirstBits q b hstays with hlive | ⟨rfl, hin⟩
        · exact .inl hlive
        · exact .inr ⟨read, List.mem_cons_self, hin⟩
      · exact .inr ⟨other, List.mem_cons_of_mem _ hmem, hin⟩

/-- Going back over such accesses lets no bits matter but those that did and those that are read. -/
theorem across (h : live.Tidy) (hdistinct : live.Distinct) {accesses : List Access}
    (haccesses : ∀ access ∈ accesses, access.Accessible) {kept : Bool} (hacross : live.across
      ⟨accesses.filterMap Access.read?, accesses.filterMap Access.write?, false⟩ =
        .ok (before, kept)) :
    before.Tidy ∧ ∀ r b, before.Holds r b →
      live.Holds r b ∧ (kept = true → (r, b) ∉ Access.overwrittenBits accesses) ∨
        kept = true ∧ (r, b) ∈ Access.readBits accesses := by
  have hwrites : ∀ r written always, (r, written, always) ∈ accesses.filterMap Access.write? →
      r.Accessible written := fun r written always hmem =>
    haccesses (.write r written always) (Access.mem_filterMap_write?.mp hmem)
  have hreads : ∀ r read, (r, read) ∈ accesses.filterMap Access.read? → r.Accessible read :=
    fun r read hmem => haccesses (.read r read) (Access.mem_filterMap_read?.mp hmem)
  obtain ⟨hwritten, hwrittenBits⟩ := h.acrossWrites hdistinct hwrites
  have hwrittenDistinct := hdistinct.acrossWrites (accesses.filterMap Access.write?)
  unfold Liveness.across at hacross
  simp only at hacross
  cases hfirst : live.acrossWrites (accesses.filterMap Access.write?) with
  | mk written hit =>
  rw [hfirst] at hacross hwritten hwrittenBits hwrittenDistinct
  cases hit with
  | false =>
      cases hacross
      obtain ⟨rfl, -⟩ := acrossWrites_of_miss hfirst
      exact ⟨h, fun r b hb => .inl ⟨hb, fun hkept => by cases hkept⟩⟩
  | true =>
      cases hsecond : written.acrossReads (accesses.filterMap Access.read?) with
      | error failure => simp [hsecond, Except.map] at hacross
      | ok after =>
          simp only [hsecond, Except.map] at hacross
          cases hacross
          obtain ⟨htidy, hbits⟩ := hwritten.acrossReads hwrittenDistinct hreads hsecond
          refine ⟨htidy, fun r b hb => ?_⟩
          rcases hbits r b hb with hstays | ⟨read, hmem, hin⟩
          · obtain ⟨hlive, hnot⟩ := hwrittenBits r b hstays
            refine .inl ⟨hlive, fun _ hover => ?_⟩
            obtain ⟨range, hmem, hin⟩ := Access.mem_overwrittenBits.mp hover
            exact hnot range (Access.mem_filterMap_write?.mpr hmem) hin
          · exact .inr ⟨rfl, Access.mem_readBits.mpr
              ⟨read, Access.mem_filterMap_read?.mp hmem, hin⟩⟩

/-- A write that is a hit writes a bit that matters. -/
theorem shares_of_acrossWrite (h : live.Tidy) {r : Register} {written : BitRange} {always : Bool}
    (hwritten : r.Accessible written) (hhit : (live.acrossWrite r written always).2 = true) :
    ∃ b, written.Holds b ∧ live.Holds r b := by
  unfold Liveness.acrossWrite at hhit
  split at hhit
  · cases hhit
  · next range hrange =>
    split at hhit
    · cases hhit
    · next hoverlaps =>
      rw [Bool.not_eq_true', Bool.not_eq_false] at hoverlaps
      have hspan := (h r range hrange).nonempty
      obtain ⟨b, hb, hlive⟩ := (BitRange.overlaps_iff hwritten.tidy.nonempty hspan).mp hoverlaps
      exact ⟨b, hb, range, hrange, hlive⟩

/-- Writes that are a hit write a bit that matters: the first hit does, and what comes before it takes
nothing away. -/
theorem shares_of_acrossWrites (h : live.Tidy) {writes : List (Register × BitRange × Bool)}
    (hwrites : ∀ r written always, (r, written, always) ∈ writes → r.Accessible written)
    (hhit : (live.acrossWrites writes).2 = true) :
    ∃ r written always b, (r, written, always) ∈ writes ∧ written.Holds b ∧ live.Holds r b := by
  induction writes with
  | nil => cases hhit
  | cons write rest ih =>
      obtain ⟨r, written, always⟩ := write
      rw [acrossWrites_cons] at hhit
      cases hfirst : live.acrossWrite r written always with
      | mk first hit =>
      rw [hfirst] at hhit
      cases hit with
      | true =>
          obtain ⟨b, hb, hlive⟩ := h.shares_of_acrossWrite
            (hwrites r written always List.mem_cons_self) (congrArg Prod.snd hfirst)
          exact ⟨r, written, always, b, List.mem_cons_self, hb, hlive⟩
      | false =>
          obtain ⟨rfl, -⟩ := acrossWrite_of_miss hfirst
          obtain ⟨q, other, sometimes, b, hmem, hb, hlive⟩ := ih
            (fun q other always hmem => hwrites q other always (List.mem_cons_of_mem _ hmem)) hhit
          exact ⟨q, other, sometimes, b, List.mem_cons_of_mem _ hmem, hb, hlive⟩

/-- Accesses that are kept write a bit that matters. -/
theorem shares_of_across (h : live.Tidy) {accesses : List Access}
    (haccesses : ∀ access ∈ accesses, access.Accessible) (hacross : live.across
      ⟨accesses.filterMap Access.read?, accesses.filterMap Access.write?, false⟩ =
        .ok (before, true)) :
    ∃ r range always b, .write r range always ∈ accesses ∧ range.Holds b ∧ live.Holds r b := by
  have hhit : (live.acrossWrites (accesses.filterMap Access.write?)).2 = true := by
    unfold Liveness.across at hacross
    split at hacross
    · cases hacross
    · next hwrites => rw [hwrites]
  obtain ⟨r, range, always, b, hmem, hb, hlive⟩ := h.shares_of_acrossWrites
    (fun r range always hmem => haccesses _ (Access.mem_filterMap_write?.mp hmem)) hhit
  exact ⟨r, range, always, b, Access.mem_filterMap_write?.mp hmem, hb, hlive⟩

end Tidy

/-- Exact spans stay exact, and an instruction is kept exactly when it is live. -/
theorem Exact.exists_across {live : Liveness} {bits : Bits} (h : live.Exact bits) (htidy : live.Tidy)
    (hdistinct : live.Distinct) {accesses : List Access}
    (haccesses : ∀ access ∈ accesses, access.Accessible) :
    ∃ before,
      live.across ⟨accesses.filterMap Access.read?, accesses.filterMap Access.write?, false⟩ =
        .ok (before, decide (Access.IsLive accesses bits)) ∧
      before.Distinct ∧ before.Tidy ∧ before.Exact (Access.bitsBefore accesses bits) := by
  obtain ⟨before, kept, hacross, hbefore, hkept, hstays, hreads⟩ :=
    exists_across_few hdistinct accesses
  obtain ⟨hbeforeTidy, hbits⟩ := htidy.across hdistinct haccesses hacross
  have hmark : kept = true ↔ Access.IsLive accesses bits := by
    rw [Access.isLive_iff]
    constructor
    · rintro rfl
      obtain ⟨r, range, always, b, hmem, hb, hlive⟩ := htidy.shares_of_across haccesses hacross
      exact ⟨r, range, always, b, hmem, hb, (h r b).mp hlive⟩
    · rintro ⟨r, range, always, b, hmem, hb, hin⟩
      exact hkept r range always hmem b hb ((h r b).mpr hin)
  obtain rfl : kept = decide (Access.IsLive accesses bits) := by
    rw [Bool.eq_iff_iff, hmark, decide_eq_true_eq]
  -- spans lose no bits whatever the instruction is, and add none as long as they are tidy
  refine ⟨before, hacross, hbefore, hbeforeTidy, fun r b => ?_⟩
  unfold Access.bitsBefore
  simp only [decide_eq_true_eq] at hbits hstays hreads
  split
  · next hisLive =>
    rw [Finset.mem_union, Finset.mem_sdiff]
    constructor
    · intro hb
      rcases hbits r b hb with ⟨hlive, hnot⟩ | ⟨-, hread⟩
      · exact .inl ⟨(h r b).mp hlive, hnot hisLive⟩
      · exact .inr hread
    · rintro (⟨hin, hnot⟩ | hread)
      · exact (hstays r b ((h r b).mpr hin)).resolve_right fun hover => hnot hover.2
      · exact hreads hisLive r b hread
  · next hdead =>
    constructor
    · intro hb
      rcases hbits r b hb with ⟨hlive, -⟩ | ⟨hisLive, -⟩
      · exact (h r b).mp hlive
      · exact absurd hisLive hdead
    · intro hin
      exact (hstays r b ((h r b).mpr hin)).resolve_right fun hover => hdead hover.1

end Liveness

/-! ## Instructions of built catalogs -/

namespace Instruction

/-- The form of the numbers that an instruction works on. -/
def form? : Instruction → Option FloatForm
  | float _ form _ _ => some form
  | moveLow form _ _ => some form
  | _ => none

/-- Numbers fill at least half of a vector register, unless they are single and on their own. -/
theorem accessible_range {form : FloatForm} (hform : form ≠ ⟨.single, false⟩) (r : Xmm) :
    (Register.xmm r).Accessible form.range := by
  obtain ⟨precision, packed⟩ := form
  cases packed with
  | true => cases precision <;> exact .inr rfl
  | false =>
      cases precision with
      | single => exact absurd rfl hform
      | double => exact .inl rfl

/-- Unless it works on one single precision number, an instruction accesses whole registers or lower
halves of vector registers. -/
theorem accessible_of_mem_accesses {i : Instruction} (hform : i.form? ≠ some ⟨.single, false⟩) :
    ∀ access ∈ i.accesses, access.Accessible := by
  cases i with
  | nop => simp [accesses]
  | int op dst src =>
      by_cases hzero : isZeroing op dst src = true <;> cases op <;>
        simp [accesses, hzero, readGpr, writeGpr, Access.Accessible, Register.Accessible]
  | unary op reg =>
      cases op <;> simp [accesses, readGpr, writeGpr, Access.Accessible, Register.Accessible]
  | bitCount op dst src =>
      simp [accesses, readGpr, writeGpr, Access.Accessible, Register.Accessible]
  | div src guarded =>
      cases guarded <;>
        simp [accesses, readGpr, writeGpr, Access.Accessible, Register.Accessible]
  | float op form dst src =>
      have hrange := accessible_range fun h => hform (congrArg some h)
      by_cases hsqrt : op = .sqrt <;> simp [accesses, hsqrt, Access.Accessible, hrange]
  | moveAll dst src => simp [accesses, Access.Accessible, Register.Accessible]
  | moveLow form dst src =>
      have hrange := accessible_range fun h => hform (congrArg some h)
      simp [accesses, Access.Accessible, hrange]

end Instruction

/-- All instructions of a family have the form that it was expanded in. -/
theorem Instruction.Expands.form?_eq {form other : FloatForm} {safeDivision : Bool} {i : Instruction}
    (h : i.Expands form safeDivision) (hother : i.form? = some other) : other = form := by
  cases i with
  | float op own dst src =>
      cases hother
      exact h
  | moveLow own dst src =>
      cases hother
      exact h.1.1
  | _ => cases hother

namespace Catalog

variable {host : Host} {options : CatalogOptions} {catalog : Catalog}

/-- The instructions of a catalog have its form, if any. -/
theorem form?_of_build (h : build host options = .ok catalog) {i : Instruction}
    (hi : i ∈ catalog.instructions) {form : FloatForm} (hform : i.form? = some form) :
    form = options.floatForm := by
  obtain ⟨-, hexpands, -⟩ := (mem_iff_of_build h).mp hi
  exact hexpands.form?_eq hform

/-- Catalogs for integers, for double precision numbers and for vectors keep the spans exact. -/
theorem accessible_of_build (h : build host options = .ok catalog)
    (hsingle : options.element = .f32 → options.vectorized = true) {i : Instruction}
    (hi : i ∈ catalog.instructions) : ∀ access ∈ i.accesses, access.Accessible := by
  apply Instruction.accessible_of_mem_accesses
  intro hform
  have heq := form?_of_build h hi hform
  simp only [CatalogOptions.floatForm, FloatForm.mk.injEq] at heq
  obtain ⟨hprecision, hpacked⟩ := heq
  by_cases hf32 : options.element = .f32
  · rw [hsingle hf32] at hpacked
    cases hpacked
  · rw [if_neg hf32] at hprecision
    cases hprecision

end Catalog

/-- The output that a layout reads is a tidy span. -/
theorem Layout.tidy_output {l : Layout} (hsingle : l.element = .f32 → l.isVectorized = true) :
    l.outputRegister.Tidy l.outputRange := by
  unfold outputRegister outputRange usesXmm
  cases hvector : l.isVectorized with
  | true =>
      rw [Bool.or_true, if_pos rfl, if_pos rfl]
      exact .inr (.inl rfl)
  | false =>
      rw [hvector] at hsingle
      cases helement : l.element with
      | f32 => exact absurd (hsingle helement) Bool.false_ne_true
      | f64 => exact .inl rfl
      | i32 => exact .inl rfl
      | i64 => exact .inr rfl

/-! ## Programs -/

namespace Program

variable {table : AccessTable}

/-- Going back over a program of such instructions, the spans stay exact, and the instructions that are
kept are the live ones. -/
theorem marksBefore_of_exact {output : Liveness} {bits : Bits} (hdistinct : output.Distinct)
    (htidy : output.Tidy) (hexact : output.Exact bits) {program : Program}
    (hprogram : ∀ opcode ∈ program, ∃ accesses, table opcode = some accesses ∧ Access.Few accesses ∧
      ∀ access ∈ accesses, access.Accessible) (position : Nat) :
    ∃ live, marksBefore table output position program =
        .ok (live, (bitLiveness table bits program).2) ∧
      live.Distinct ∧ live.Tidy ∧ live.Exact (bitLiveness table bits program).1 := by
  induction program generalizing position with
  | nil => exact ⟨output, rfl, hdistinct, htidy, hexact⟩
  | cons opcode rest ih =>
      obtain ⟨accesses, hopcode, hfew, haccesses⟩ := hprogram opcode List.mem_cons_self
      obtain ⟨live, hrest, hliveDistinct, hliveTidy, hlive⟩ :=
        ih (fun opcode hmem => hprogram opcode (List.mem_cons_of_mem _ hmem)) (position + 1)
      obtain ⟨before, hacross, hbefore⟩ := hlive.exists_across hliveTidy hliveDistinct haccesses
      refine ⟨before, ?_, ?_⟩
      · rw [marksBefore_cons hrest ((backOver_of_few hopcode hfew live).trans hacross)]
        simp only [bitLiveness, hopcode, Option.getD_some]
      · simpa only [bitLiveness, hopcode, Option.getD_some] using hbefore

/-- On accesses of tidy spans the marks are those of single bits. -/
theorem marks_of_exact {program : Program} {output : Register} {range : BitRange}
    (hrange : output.Tidy range)
    (hprogram : ∀ opcode ∈ program, ∃ accesses, table opcode = some accesses ∧ Access.Few accesses ∧
      ∀ access ∈ accesses, access.Accessible) :
    program.marks table output range = .ok (program.bitMarks table output range) := by
  have hlookup : ∀ r other, Liveness.range? [(output, range)] r = some other ↔
      r = output ∧ other = range := by
    intro r other
    by_cases hr : r = output
    · simp [Liveness.range?, hr, eq_comm]
    · have hne : (r == output) = false := by simpa using hr
      simp [Liveness.range?, List.lookup_cons, hne, hr]
  have htidy : Liveness.Tidy [(output, range)] := by
    intro r other hother
    obtain ⟨rfl, rfl⟩ := (hlookup r other).mp hother
    exact hrange
  have hexact : Liveness.Exact [(output, range)] (range.bits output) := by
    intro r b
    refine ⟨?_, covers_output output range r b⟩
    rintro ⟨other, hother, hb⟩
    obtain ⟨rfl, rfl⟩ := (hlookup r other).mp hother
    exact BitRange.mem_bits.mpr ⟨rfl, hb⟩
  have hdistinct : Liveness.Distinct [(output, range)] := List.nodup_singleton output
  obtain ⟨live, hmarks, -⟩ := marksBefore_of_exact hdistinct htidy hexact hprogram 0
  rw [marks, hmarks]
  rfl

/-- Dropping introns is as precise as liveness bit by bit.  Of instructions with few accesses, none of
them to memory, all that are live are kept.  Of the instructions of a catalog that was built for
integers, for double precision numbers or for vectors, exactly the live ones are kept. -/
theorem eliminateIntrons_precise :
    (∀ table : AccessTable,
      (∀ opcode accesses, table opcode = some accesses → Access.Few accesses) →
      ∀ program : Program, (∀ opcode ∈ program, (table opcode).isSome = true) →
      ∀ (output : Register) (range : BitRange), ∃ marks,
        program.marks table output range = .ok marks ∧
        program.eliminateIntrons table output range = .ok (program.marked marks) ∧
        List.Forall₂ (fun live kept => live = true → kept = true)
          (program.bitMarks table output range) marks) ∧
    ∀ host options catalog, Catalog.build host options = .ok catalog →
      (options.element = .f32 → options.vectorized = true) →
      ∀ layout : Layout, layout.element = catalog.element →
      layout.isVectorized = catalog.vectorized →
      ∀ program : Program, program.Known catalog →
        program.marks catalog.accessTable layout.outputRegister layout.outputRange =
          .ok (program.bitMarks catalog.accessTable layout.outputRegister layout.outputRange) ∧
        program.eliminateIntrons catalog.accessTable layout.outputRegister layout.outputRange =
          .ok (program.marked
            (program.bitMarks catalog.accessTable layout.outputRegister layout.outputRange)) := by
  constructor
  · intro table hfew program hknown output range
    have hprogram : ∀ opcode ∈ program, ∃ accesses,
        table opcode = some accesses ∧ Access.Few accesses := by
      intro opcode hmem
      obtain ⟨accesses, hopcode⟩ := Option.isSome_iff_exists.mp (hknown opcode hmem)
      exact ⟨accesses, hopcode, hfew opcode accesses hopcode⟩
    obtain ⟨marks, hmarks, hlive⟩ := exists_marks hprogram output range
    exact ⟨marks, hmarks, by rw [eliminateIntrons_eq, hmarks]; rfl, hlive⟩
  · intro host options catalog hbuild hsingle layout helement hvector program hknown
    obtain ⟨-, hcatalogElement, hcatalogVector⟩ := Catalog.build_eq_ok hbuild
    have hrange : layout.outputRegister.Tidy layout.outputRange := by
      apply Layout.tidy_output
      rw [helement, hvector, hcatalogElement, hcatalogVector]
      exact hsingle
    have hmarks : program.marks catalog.accessTable layout.outputRegister layout.outputRange =
        .ok (program.bitMarks catalog.accessTable layout.outputRegister layout.outputRange) := by
      apply marks_of_exact hrange
      intro opcode hmem
      obtain ⟨i, hi⟩ := hknown opcode hmem
      refine ⟨i.accesses, by rw [Catalog.accessTable, hi]; rfl, Operands.few_accesses i, ?_⟩
      exact Catalog.accessible_of_build hbuild hsingle (Catalog.mem_of_instruction? hi)
    exact ⟨hmarks, by rw [eliminateIntrons_eq, hmarks]; rfl⟩

/-- Instructions that write the lowest byte of the output. -/
private def lowestByte : AccessTable := fun opcode =>
  [(2, [.write (.gpr .rax) .low8 true])].lookup opcode

/-- Of two writes of the lowest byte the first is dead, but it is kept: the span is not cut.  Of a
vector register, the lower half is cut off, and a root that is only written there is dropped. -/
theorem eliminateIntrons_precise_halves :
    (bitMarks lowestByte (.gpr .rax) .low32 [2, 2] = [false, true] ∧
      ∃ marks, Program.marks lowestByte (.gpr .rax) .low32 [2, 2] = .ok marks ∧
        eliminateIntrons lowestByte (.gpr .rax) .low32 [2, 2] = .ok (marked [2, 2] marks) ∧
        List.Forall₂ (fun live kept => live = true → kept = true) [false, true] marks) ∧
    ∃ catalog, Catalog.build .full { element := .f64, instructions := some [.fsqrt]
                                     moves := some [.movaps, .movLow] } = .ok catalog ∧
      eliminateIntrons catalog.accessTable (.xmm .xmm0) .low64 [30, 18, 2] = .ok [18, 2] ∧
      bitMarks catalog.accessTable (.xmm .xmm0) .low64 [30, 18, 2] = [false, true, true] := by
  constructor
  · have hmarks : bitMarks lowestByte (.gpr .rax) .low32 [2, 2] = [false, true] := by
      decide +kernel
    have hfew : ∀ opcode accesses, lowestByte opcode = some accesses → Access.Few accesses := by
      intro opcode accesses h
      unfold lowestByte at h
      by_cases hopcode : opcode = 2
      · subst hopcode
        cases h
        exact ⟨by decide, by decide, by decide⟩
      · have hne : (opcode == 2) = false := by simpa using hopcode
        simp [List.lookup_cons, hne] at h
    obtain ⟨marks, hkept, helim, hlive⟩ :=
      eliminateIntrons_precise.1 lowestByte hfew [2, 2] (by simp [lowestByte])
        (.gpr .rax) .low32
    rw [hmarks] at hlive
    exact ⟨hmarks, marks, hkept, helim, hlive⟩
  · have hrun : (match Catalog.build .full { element := .f64, instructions := some [.fsqrt]
                                             moves := some [.movaps, .movLow] } with
        | .ok catalog =>
          decide (Program.marks catalog.accessTable (.xmm .xmm0) .low64 [30, 18, 2] =
            .ok [false, true, true]) &&
          [30, 18, 2].all fun opcode => (catalog.instruction? opcode).isSome
        | .error _ => false) = true := by decide +kernel
    split at hrun
    · next catalog hbuild =>
      rw [Bool.and_eq_true, decide_eq_true_eq, List.all_eq_true] at hrun
      obtain ⟨hkept, hknown⟩ := hrun
      have hfields := (Catalog.build_eq_ok hbuild).2
      have hexact := eliminateIntrons_precise.2 _ _ catalog hbuild (by decide)
        { element := .f64, rows := 1, arity := 1, lanes := 1, programs := 1 } hfields.1.symm
        hfields.2.symm [30, 18, 2] fun opcode hmem =>
          Option.isSome_iff_exists.mp (hknown opcode hmem)
      have hmarks : [false, true, true] =
          bitMarks catalog.accessTable (.xmm .xmm0) .low64 [30, 18, 2] :=
        Except.ok.inj (hkept.symm.trans hexact.1)
      have helim : eliminateIntrons catalog.accessTable (.xmm .xmm0) .low64 [30, 18, 2] =
          .ok (marked [30, 18, 2]
            (bitMarks catalog.accessTable (.xmm .xmm0) .low64 [30, 18, 2])) := hexact.2
      rw [← hmarks] at helim
      exact ⟨catalog, hbuild, helim, hmarks.symm⟩
    · cases hrun

end Program

end LinearGP
