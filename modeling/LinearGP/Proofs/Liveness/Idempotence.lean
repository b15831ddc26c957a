import LinearGP.Proofs.Liveness

/-!
# Dropping introns a second time

Going back over an instruction that is dropped leaves the bits that matter as they are.  So they are
the same at every instruction that is kept, whether the dropped ones are still there or not, and what
is left of a program has no introns.  `liveBefore_kept` says this of the rest of a program, at any
position: the instructions move up when others are dropped, and only failures tell positions.
-/

set_option autoImplicit false

namespace LinearGP

namespace Liveness

/-- Going back over an instruction that is dropped changes nothing. -/
theorem across_of_dropped {live before : Liveness} {operands : Operands}
    (h : live.across operands = .ok (before, false)) : before = live := by
  unfold across at h
  cases hwrites : live.acrossWrites operands.writes with
  | mk written hit =>
  rw [hwrites] at h
  cases hit with
  | false =>
      injection h with h
      cases h
      exact (acrossWrites_of_miss hwrites).1
  | true =>
      cases hreads : written.acrossReads operands.reads <;> simp [hreads, Except.map] at h

end Liveness

namespace Program

variable {table : AccessTable} {opcode : Opcode} {position : Nat} {live before : Liveness}
  {isLive : Bool}

/-- Going back over an opcode succeeds with its operands, none of which is in memory. -/
theorem backOver_eq_ok_iff {result : Liveness × Bool} :
    backOver table opcode position live = .ok result ↔
      ∃ accesses operands, table opcode = some accesses ∧
        Operands.ofAccesses accesses = .ok operands ∧ operands.memory = false ∧
        live.across operands = .ok result := by
  unfold backOver
  cases table opcode with
  | none => simp [refuse]
  | some accesses =>
      simp only [bind_eq_ok_iff, Option.some.injEq, exists_and_left, exists_eq_left']
      refine exists_congr fun operands => and_congr_right fun _ => ?_
      cases operands.memory <;> simp [refuse]

/-- What going back over an opcode yields does not depend on its position. -/
theorem backOver_of_eq_ok {result : Liveness × Bool}
    (h : backOver table opcode position live = .ok result) (other : Nat) :
    backOver table opcode other live = .ok result :=
  backOver_eq_ok_iff.mpr (backOver_eq_ok_iff.mp h)

/-- Going back over an opcode that is dropped changes nothing. -/
theorem backOver_of_dropped (h : backOver table opcode position live = .ok (before, false)) :
    before = live := by
  obtain ⟨_, _, -, -, -, hacross⟩ := backOver_eq_ok_iff.mp h
  exact Liveness.across_of_dropped hacross

/-- The bits that matter before a program are found from those that matter before its rest. -/
theorem liveBefore_cons_eq_ok_iff {output : Liveness} {rest kept : Program} :
    liveBefore table output position (opcode :: rest) = .ok (before, kept) ↔
      ∃ live keptRest isLive, liveBefore table output (position + 1) rest = .ok (live, keptRest) ∧
        backOver table opcode position live = .ok (before, isLive) ∧
        kept = if isLive then opcode :: keptRest else keptRest := by
  simp only [liveBefore, bind_eq_ok_iff, pure, Except.pure, Except.ok.injEq, Prod.exists,
    Prod.mk.injEq]
  constructor
  · rintro ⟨live, keptRest, hrest, before', isLive, hback, rfl, rfl⟩
    exact ⟨live, keptRest, isLive, hrest, hback, rfl⟩
  · rintro ⟨live, keptRest, isLive, hrest, hback, rfl⟩
    exact ⟨live, keptRest, hrest, before, isLive, hback, rfl, rfl⟩

/-- What is kept of a program is a part of it in its order.  Going back over that part keeps all of it
and ends with the same bits. -/
theorem liveBefore_kept {output : Liveness} {program kept : Program}
    (h : liveBefore table output position program = .ok (live, kept)) :
    kept.Sublist program ∧ ∀ other, liveBefore table output other kept = .ok (live, kept) := by
  induction program generalizing position live kept with
  | nil =>
      cases h
      exact ⟨List.Sublist.refl [], fun _ => rfl⟩
  | cons opcode rest ih =>
      obtain ⟨after, keptRest, isLive, hrest, hback, rfl⟩ := liveBefore_cons_eq_ok_iff.mp h
      obtain ⟨hsublist, hagain⟩ := ih hrest
      cases isLive with
      | false =>
          obtain rfl := backOver_of_dropped hback
          exact ⟨hsublist.cons opcode, hagain⟩
      | true =>
          refine ⟨hsublist.cons_cons opcode, fun other => ?_⟩
          exact liveBefore_cons_eq_ok_iff.mpr
            ⟨after, keptRest, true, hagain (other + 1), backOver_of_eq_ok hback other, rfl⟩

/-- Whatever the instructions access: what is left of a program are some of its instructions in their
order, and dropping its introns again succeeds and drops nothing. -/
theorem eliminateIntrons_idempotent {program kept : Program} {output : Register} {range : BitRange}
    (h : program.eliminateIntrons table output range = .ok kept) :
    kept.Sublist program ∧ kept.eliminateIntrons table output range = .ok kept := by
  unfold eliminateIntrons at h ⊢
  cases hlive : liveBefore table [(output, range)] 0 program with
  | error failure =>
      rw [hlive] at h
      cases h
  | ok result =>
      rw [hlive] at h
      cases h
      obtain ⟨hsublist, hagain⟩ := liveBefore_kept hlive
      exact ⟨hsublist, by rw [hagain 0]; rfl⟩

/-- Instructions that write the output partly, on a condition, or beside another register. -/
private def partialWrites : AccessTable := fun opcode =>
  [(2, [.write (.gpr .rax) .low64 true]),
    (3, [.write (.gpr .rcx) .low64 true]),
    (4, [.read (.gpr .rcx) .low64, .write (.gpr .rax) .low16 true, .write (.gpr .rdx) .low64 true]),
    (5, [.read (.gpr .rsi) .low8, .write (.gpr .rax) .low8 false])].lookup opcode

/-- The condition keeps the write before it; the whole write before that and the last one are dropped. -/
theorem eliminateIntrons_idempotent_partial :
    eliminateIntrons partialWrites (.gpr .rax) .low16 [3, 2, 4, 5, 3] = .ok [3, 4, 5] ∧
      List.Sublist ([3, 4, 5] : Program) [3, 2, 4, 5, 3] ∧
      eliminateIntrons partialWrites (.gpr .rax) .low16 [3, 4, 5] = .ok [3, 4, 5] := by
  have h : eliminateIntrons partialWrites (.gpr .rax) .low16 [3, 2, 4, 5, 3] = .ok [3, 4, 5] := by
    decide
  exact ⟨h, eliminateIntrons_idempotent h⟩

end Program

end LinearGP
