import Mathlib
import LinearGP.Proofs.Selection.Offspring
import LinearGP.Proofs.Store.Reachable

/-!
# Replacement

Reproduction is one replacement: places in a store get the programs that sources held at the start, one
each from the first place on, until one of the two lists runs out.  `Replaced` says what that leaves,
the sentinels between programs included.  It holds for whatever numbers of wins there are, also those
that no selection hands out.
-/

set_option autoImplicit false

namespace LinearGP

/-! ## Sentinels -/

/-- A role that admits a sentinel admits nothing else. -/
theorem SlotRole.Admits.eq_of_sentinel {role : SlotRole} {opcode other : Opcode}
    (h : role.Admits opcode) (hopcode : opcode.isSentinel = true) (hother : role.Admits other) :
    other = opcode := by
  cases role with
  | instruction => exact absurd (h.symm.trans hopcode) Bool.false_ne_true
  | programEnd => exact hother.trans h.symm
  | partitionEnd => exact hother.trans h.symm

namespace Store

/-- A sentinel stands where the dimensions of the store admit it. -/
theorem WellFormed.getElem?_eq_sentinel_iff {s : Store} (h : s.WellFormed) {i : Nat} {opcode : Opcode}
    (hopcode : opcode.isSentinel = true) :
    s.slots[i]? = some opcode ↔ i < s.threads * s.partitionLength ∧ (s.role i).Admits opcode := by
  rw [← h.size_eq]
  constructor
  · intro hslot
    have hin := (Array.getElem?_eq_some_iff.mp hslot).1
    have hadmits := h.admits i hin
    rw [Array.getD_eq_getD_getElem?, hslot] at hadmits
    exact ⟨hin, hadmits⟩
  · rintro ⟨hin, hadmits⟩
    have hslot := h.admits i hin
    rw [Array.getD_eq_getD_getElem?, Array.getElem?_eq_getElem hin, Option.getD_some] at hslot
    rw [Array.getElem?_eq_getElem hin, hadmits.eq_of_sentinel hopcode hslot]

/-- Stores of the same dimensions have the same sentinels. -/
theorem SameShape.sentinel_iff {s t : Store} (h : t.SameShape s) (hs : s.WellFormed)
    (ht : t.WellFormed) (i : Nat) {opcode : Opcode} (hopcode : opcode.isSentinel = true) :
    t.slots[i]? = some opcode ↔ s.slots[i]? = some opcode := by
  rw [hs.getElem?_eq_sentinel_iff hopcode, ht.getElem?_eq_sentinel_iff hopcode]
  unfold role partitionLength programStride
  rw [h.threads_eq, h.perThread_eq, h.programSize_eq]

/-! ## Places and sources -/

/-- The places of `t` hold what the sources held in `s`, as far as there are sources, and the rest is as
in `s`. -/
structure Replaced (s t : Store) (places sources : List Nat) : Prop where
  shape : t.SameShape s
  copied : ∀ k place source : Nat, places[k]? = some place → sources[k]? = some source →
    ∃ program, s.program source = .ok program ∧ t.program place = .ok program
  kept : ∀ q < s.programCount, q ∉ places.take sources.length →
    ∃ program, s.program q = .ok program ∧ t.program q = .ok program
  sentinel_iff : ∀ (i : Nat) (opcode : Opcode), opcode.isSentinel = true →
    (t.slots[i]? = some opcode ↔ s.slots[i]? = some opcode)

/-- The places that get a copy are the first ones, one for each source. -/
theorem map_snd_offspring (wins : Array UInt8) :
    (offspring wins).map (·.2) = (vacancies wins).take (parents wins).length := by
  rw [offspring, List.zip_eq_zip_take_min, List.map_snd_zip (by simp), ← List.take_eq_take_min]

/-- Programs without wins are replaced from the first one on, by as many copies of each other program as
it has wins beyond its first, in the order of the programs.  The copies are of programs as they were at
the start. -/
theorem reproduce_replaces {s : Store} (h : s.Reachable) {wins : Array UInt8}
    (hwins : s.programCount = wins.size) :
    let places := (List.range wins.size).filter fun p => wins.getD p 0 = 0
    let sources := (List.range wins.size).flatMap fun p =>
      List.replicate ((wins.getD p 0).toNat - 1) p
    ∃ t, s.reproduce wins = .ok (t, min places.length sources.length) ∧ s.Replaced t places sources := by
  intro places sources
  have hplaces : vacancies wins = places := vacancies_eq wins
  have hsources : parents wins = sources := parents_eq wins
  have hwell := h.wellFormed
  obtain ⟨t, copies, hreproduce⟩ := hwell.exists_reproduce hwins
  obtain ⟨hcopies, ht, hshape, hcopied, hkept⟩ := hwell.programAt_reproduce hreproduce
  have hcount := hshape.programCount_eq
  refine ⟨t, ?_, hshape, ?_, ?_, fun i opcode => hshape.sentinel_iff hwell ht i⟩
  · rw [hreproduce, hcopies, offspring, List.length_zip, hplaces, hsources, Nat.min_comm]
  · intro k place source hplace hsource
    have hpair : (source, place) ∈ offspring wins := by
      refine List.mem_iff_getElem?.mpr ⟨k, List.getElem?_zip_eq_some.mpr ?_⟩
      rw [hplaces, hsources]
      exact ⟨hsource, hplace⟩
    obtain ⟨hin, hin'⟩ := lt_of_mem_offspring hpair
    refine ⟨s.programAt source, program_eq hwell (hwins ▸ hin), ?_⟩
    rw [program_eq ht (hcount ▸ hwins ▸ hin'), hcopied _ hpair]
  · intro q hq hnot
    refine ⟨s.programAt q, program_eq hwell hq, ?_⟩
    rw [program_eq ht (hcount ▸ hq), hkept q hq]
    rwa [map_snd_offspring, hplaces, hsources]

/-- Of three places without wins, the first two go to a program with three wins and the last one to a
program with two. -/
theorem reproduce_replaces_three :
    let s : Store := { threads := 1, perThread := 5, programSize := 1
                       slots := #[10, 0, 11, 0, 12, 0, 13, 0, 14, 0, 1], initialized := true }
    s.Reachable ∧ s.programCount = (#[0, 3, 0, 2, 0] : Array UInt8).size ∧
      ∃ t, s.reproduce #[0, 3, 0, 2, 0] = .ok (t, 3) ∧
        (List.range 5).mapM t.program = .ok [[11], [11], [11], [13], [13]] := by
  intro s
  have hcreate : create 1 5 1 = .ok {
      threads := 1, perThread := 5, programSize := 1, slots := Array.replicate 11 Opcode.END
      initialized := false } := rfl
  have hreachable : s.Reachable := (Reachable.prepare hcreate rfl)
    |>.set (rfl : Store.set _ 0 0 10 = .ok _)
    |>.set (rfl : Store.set _ 1 0 11 = .ok _)
    |>.set (rfl : Store.set _ 2 0 12 = .ok _)
    |>.set (rfl : Store.set _ 3 0 13 = .ok _)
    |>.set (rfl : Store.set _ 4 0 14 = .ok _)
  have hwins : s.programCount = (#[0, 3, 0, 2, 0] : Array UInt8).size := rfl
  obtain ⟨t, hreproduce, hreplaced⟩ := reproduce_replaces hreachable hwins
  have hparent : s.program 1 = .ok [11] := by cbv
  have hother : s.program 3 = .ok [13] := by cbv
  have hcopied : ∀ (k place source : Nat) (program : Program), [0, 2, 4][k]? = some place →
      [1, 1, 3][k]? = some source → s.program source = .ok program →
      t.program place = .ok program := by
    intro k place source program hplace hsource hprogram
    obtain ⟨found, hfound, hcopy⟩ := hreplaced.copied k place source hplace hsource
    rwa [← Except.ok.inj (hfound.symm.trans hprogram)]
  have hkept : ∀ q < 5, q ∉ [0, 2, 4] → t.program q = s.program q := by
    intro q hq hnot
    obtain ⟨found, hfound, hkept⟩ := hreplaced.kept q hq hnot
    rw [hkept, hfound]
  refine ⟨hreachable, hwins, t, hreproduce, mapM_eq_ok_iff.mpr ?_⟩
  show List.Forall₂ _ [0, 1, 2, 3, 4] _
  exact .cons (hcopied 0 0 1 _ rfl rfl hparent) <|
    .cons ((hkept 1 (by decide) (by decide)).trans hparent) <|
    .cons (hcopied 1 2 1 _ rfl rfl hparent) <|
    .cons ((hkept 3 (by decide) (by decide)).trans hother) <|
    .cons (hcopied 2 4 3 _ rfl rfl hother) .nil

end Store

end LinearGP
