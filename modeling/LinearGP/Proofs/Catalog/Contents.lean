import Mathlib
import LinearGP.Catalog.Build
import LinearGP.Proofs.Catalog.Opcodes

/-!
# What a catalog contains

Options ask for families of instructions by two lists, one of them for moves, and every family is
expanded over the register file.  `CatalogOptions.mem_instructionList_iff` says which instructions come
out, and `nodup_instructionList` that none of them comes out twice.  Only the members of the lists matter:
`BuiltFrom` has the same catalog for lists with the same members, and a catalog with more instructions
in between for longer ones.
-/

set_option autoImplicit false

namespace LinearGP

/-! ## Expansion -/

/-- A family is expanded to the instructions of the given form, over all operands but these: moves
have two different registers, and divisions have one of two divisors. -/
def Instruction.Expands (form : FloatForm) (safeDivision : Bool) : Instruction → Prop
  | nop => True
  | int op dst src => op = .mov → dst ≠ src
  | unary _ _ => True
  | bitCount _ _ _ => True
  | div src guarded => (src = .rcx ∨ src = .rsi) ∧ guarded = safeDivision
  | float _ own _ _ => own = form
  | moveAll dst src => dst ≠ src
  | moveLow own dst src => (own = form ∧ form.packed = false) ∧ dst ≠ src

section Operands

variable {α : Type} [DecidableEq α] {registers : List α}

/-- Over the whole register file, all pairs are there that may be. -/
theorem mem_operandPairs (hall : ∀ r, r ∈ registers) {allowSame : Bool} {dst src : α} :
    (dst, src) ∈ operandPairs registers allowSame ↔ allowSame = true ∨ dst ≠ src := by
  simp [operandPairs, hall]

/-- No pair of operands is listed twice. -/
theorem nodup_operandPairs (h : registers.Nodup) (allowSame : Bool) :
    (operandPairs registers allowSame).Nodup :=
  (h.product h).filter _

/-- There are at most as many pairs of operands as pairs of registers. -/
theorem length_operandPairs_le (allowSame : Bool) :
    (operandPairs registers allowSame).length ≤ registers.length * registers.length :=
  (List.length_filter_le _ _).trans_eq (List.length_product registers registers)

end Operands

/-- The list of general purpose registers has every one of them. -/
theorem Gpr.mem_all (r : Gpr) : r ∈ Gpr.all := by
  cases r <;> decide

/-- The list of vector registers has every one of them. -/
theorem Xmm.mem_all (r : Xmm) : r ∈ Xmm.all := by
  cases r <;> decide

namespace Mnemonic

variable {form : FloatForm} {safeDivision : Bool} {m : Mnemonic} {i : Instruction}

/-- A family holds instructions of its own, with operands that it may have. -/
theorem expands_of_mem_expand (h : i ∈ m.expand form safeDivision) :
    i.mnemonic = m ∧ i.Expands form safeDivision := by
  cases m with
  | nop =>
      cases List.mem_singleton.mp h
      exact ⟨rfl, trivial⟩
  | mov =>
      obtain ⟨⟨dst, src⟩, hpair, rfl⟩ := List.mem_map.mp h
      have hne := ((mem_operandPairs Gpr.mem_all).mp hpair).resolve_left Bool.false_ne_true
      exact ⟨rfl, fun _ => hne⟩
  | add | sub | imul | and | or | xor =>
      obtain ⟨pair, -, rfl⟩ := List.mem_map.mp h
      refine ⟨rfl, fun hmov => ?_⟩
      cases hmov
  | neg | not | inc | dec | popcnt | lzcnt | tzcnt =>
      obtain ⟨operands, -, rfl⟩ := List.mem_map.mp h
      exact ⟨rfl, trivial⟩
  | div =>
      obtain ⟨src, hsrc, rfl⟩ := List.mem_map.mp h
      exact ⟨rfl, by simpa using hsrc, rfl⟩
  | movaps =>
      obtain ⟨⟨dst, src⟩, hpair, rfl⟩ := List.mem_map.mp h
      exact ⟨rfl, ((mem_operandPairs Xmm.mem_all).mp hpair).resolve_left Bool.false_ne_true⟩
  | movLow =>
      rw [expand] at h
      split at h
      · cases h
      · next hscalar =>
        obtain ⟨⟨dst, src⟩, hpair, rfl⟩ := List.mem_map.mp h
        have hne := ((mem_operandPairs Xmm.mem_all).mp hpair).resolve_left Bool.false_ne_true
        exact ⟨rfl, ⟨rfl, Bool.eq_false_iff.mpr hscalar⟩, hne⟩
  | fadd | fsub | fmul | fdiv | fmin | fmax | fsqrt =>
      obtain ⟨pair, -, rfl⟩ := List.mem_map.mp h
      exact ⟨rfl, rfl⟩

/-- It holds all of them. -/
theorem mem_expand_of_expands (h : i.Expands form safeDivision) :
    i ∈ i.mnemonic.expand form safeDivision := by
  have hgprs : ∀ {allowSame : Bool} {dst src : Gpr}, allowSame = true ∨ dst ≠ src →
      (dst, src) ∈ operandPairs Gpr.all allowSame := (mem_operandPairs Gpr.mem_all).mpr
  have hxmms : ∀ {allowSame : Bool} {dst src : Xmm}, allowSame = true ∨ dst ≠ src →
      (dst, src) ∈ operandPairs Xmm.all allowSame := (mem_operandPairs Xmm.mem_all).mpr
  cases i with
  | nop => exact List.mem_singleton.mpr rfl
  | int op dst src =>
      cases op with
      | mov => exact List.mem_map.mpr ⟨(dst, src), hgprs (.inr (h rfl)), rfl⟩
      | add | sub | imul | and | or | xor =>
          exact List.mem_map.mpr ⟨(dst, src), hgprs (.inl rfl), rfl⟩
  | unary op reg => cases op <;> exact List.mem_map.mpr ⟨reg, reg.mem_all, rfl⟩
  | bitCount op dst src =>
      cases op <;> exact List.mem_map.mpr ⟨(dst, src), hgprs (.inl rfl), rfl⟩
  | div src guarded =>
      obtain ⟨hsrc, rfl⟩ := h
      exact List.mem_map.mpr ⟨src, by simpa using hsrc, rfl⟩
  | float op own dst src =>
      cases h
      cases op <;> exact List.mem_map.mpr ⟨(dst, src), hxmms (.inl rfl), rfl⟩
  | moveAll dst src => exact List.mem_map.mpr ⟨(dst, src), hxmms (.inr h), rfl⟩
  | moveLow own dst src =>
      obtain ⟨⟨rfl, hscalar⟩, hne⟩ := h
      show _ ∈ ite _ _ _
      rw [if_neg (by simp [hscalar])]
      exact List.mem_map.mpr ⟨(dst, src), hxmms (.inr hne), rfl⟩

/-- A mnemonic expands to the instructions of its name that a catalog of the form can have. -/
theorem mem_expand_iff :
    i ∈ m.expand form safeDivision ↔ i.mnemonic = m ∧ i.Expands form safeDivision := by
  refine ⟨expands_of_mem_expand, ?_⟩
  rintro ⟨rfl, hexpands⟩
  exact mem_expand_of_expands hexpands

/-- No instruction of a family comes twice. -/
theorem nodup_expand (form : FloatForm) (safeDivision : Bool) (m : Mnemonic) :
    (m.expand form safeDivision).Nodup := by
  have hgprs : Gpr.all.Nodup := by decide
  have hxmms : Xmm.all.Nodup := by decide
  cases m with
  | nop => exact List.nodup_singleton _
  | mov | add | sub | imul | and | or | xor | popcnt | lzcnt | tzcnt =>
      refine (nodup_operandPairs hgprs _).map ?_
      rintro ⟨dst, src⟩ ⟨dst', src'⟩ heq
      cases heq
      rfl
  | neg | not | inc | dec =>
      refine hgprs.map ?_
      rintro reg reg' heq
      cases heq
      rfl
  | div => simp [expand]
  | movaps | fadd | fsub | fmul | fdiv | fmin | fmax | fsqrt =>
      refine (nodup_operandPairs hxmms _).map ?_
      rintro ⟨dst, src⟩ ⟨dst', src'⟩ heq
      cases heq
      rfl
  | movLow =>
      rw [expand]
      split
      · exact List.nodup_nil
      · refine (nodup_operandPairs hxmms _).map ?_
        rintro ⟨dst, src⟩ ⟨dst', src'⟩ heq
        cases heq
        rfl

/-- There are at most as many as pairs of registers. -/
theorem length_expand_le (form : FloatForm) (safeDivision : Bool) (m : Mnemonic) :
    (m.expand form safeDivision).length ≤ 16 := by
  cases m with
  | nop | neg | not | inc | dec | div => exact Nat.le_of_ble_eq_true rfl
  | mov | add | sub | imul | and | or | xor | popcnt | lzcnt | tzcnt | movaps | fadd | fsub | fmul
  | fdiv | fmin | fmax | fsqrt =>
      exact (List.length_map _).trans_le (length_operandPairs_le _)
  | movLow =>
      rw [expand]
      split
      · exact Nat.zero_le _
      · exact (List.length_map _).trans_le (length_operandPairs_le _)

end Mnemonic

/-! ## Selection -/

namespace Mnemonic

/-- Mnemonics in catalog order, each of them once. -/
def Ordered (list : List Mnemonic) : Prop := list.Pairwise fun m n => m.ctorIdx < n.ctorIdx

variable {m n : Mnemonic} {list : List Mnemonic}

/-- Mnemonics are told apart by their place in the declaration. -/
theorem ctorIdx_inj (h : m.ctorIdx = n.ctorIdx) : m = n := by
  cases m <;> cases n <;> first | rfl | cases h

/-- The list of all mnemonics is in their order. -/
theorem ordered_all : Ordered all := by
  unfold Ordered
  decide

/-- Insertion adds one mnemonic and keeps all others. -/
theorem mem_insert_iff : m ∈ insert n list ↔ m = n ∨ m ∈ list := by
  induction list with
  | nil => simp [insert]
  | cons next rest ih =>
      unfold insert
      split
      · next heq => simp [heq]
      · split
        · simp
        · simp [ih, or_left_comm]

/-- Putting in a mnemonic keeps the order. -/
theorem Ordered.insert (h : Ordered list) (m : Mnemonic) : Ordered (insert m list) := by
  induction list with
  | nil => exact List.pairwise_singleton _ m
  | cons next rest ih =>
      have hrest := List.pairwise_cons.mp h
      unfold Mnemonic.insert
      split
      · exact h
      · next hne =>
        split
        · next hlt =>
          refine List.pairwise_cons.mpr ⟨fun other hother => ?_, h⟩
          rcases List.mem_cons.mp hother with rfl | hother
          · exact hlt
          · exact hlt.trans (hrest.1 other hother)
        · next hge =>
          refine List.pairwise_cons.mpr ⟨fun other hother => ?_, ih hrest.2⟩
          rcases mem_insert_iff.mp hother with rfl | hother
          · have hdistinct : other.ctorIdx ≠ next.ctorIdx := fun heq => hne (ctorIdx_inj heq)
            omega
          · exact hrest.1 other hother

/-- The members of a list are put in order, and no others. -/
theorem ordered_ordered (list : List Mnemonic) :
    Ordered (ordered list) ∧ ∀ m, m ∈ ordered list ↔ m ∈ list := by
  have hfold : ∀ set : List Mnemonic, Ordered set →
      Ordered (list.foldl (fun set m => Mnemonic.insert m set) set) ∧
        ∀ m, m ∈ list.foldl (fun set m => Mnemonic.insert m set) set ↔ m ∈ set ∨ m ∈ list := by
    induction list with
    | nil => exact fun set hset => ⟨hset, by simp⟩
    | cons next rest ih =>
        intro set hset
        obtain ⟨hordered, hmem⟩ := ih _ (hset.insert next)
        refine ⟨hordered, fun m => ?_⟩
        rw [List.foldl_cons, hmem, mem_insert_iff, List.mem_cons, or_comm (a := m = next), or_assoc]
  obtain ⟨hordered, hmem⟩ := hfold [] List.Pairwise.nil
  refine ⟨hordered, fun m => ?_⟩
  rw [ordered, hmem]
  simp

end Mnemonic

/-- A list of mnemonics names a family; an absent list names all of them. -/
def Listed (list : Option (List Mnemonic)) (m : Mnemonic) : Prop := m ∈ list.getD Mnemonic.all

instance (list : Option (List Mnemonic)) (m : Mnemonic) : Decidable (Listed list m) :=
  inferInstanceAs (Decidable (m ∈ list.getD Mnemonic.all))

namespace CatalogOptions

variable {o : CatalogOptions} {host : Host} {instructions moves : Option (List Mnemonic)}

/-- The options ask for a family: it fits the samples and its own list names it. -/
def Asks (o : CatalogOptions) (m : Mnemonic) : Prop :=
  m.fits o.element = true ∧ Listed (if m.isMove then o.moves else o.instructions) m

instance (o : CatalogOptions) (m : Mnemonic) : Decidable (o.Asks m) :=
  inferInstanceAs (Decidable (_ ∧ _))

/-- The mnemonics that are chosen are those that the options ask for. -/
theorem mem_selected_iff {m : Mnemonic} : m ∈ o.selected ↔ o.Asks m := by
  unfold selected Asks Listed
  rw [(Mnemonic.ordered_ordered _).2]
  simp only [List.mem_filter, List.mem_append]
  cases m.isMove <;> simp [and_comm]

/-- The families that are asked for are expanded in catalog order. -/
theorem selected_eq (o : CatalogOptions) : o.selected = Mnemonic.all.filter fun m => o.Asks m := by
  have hirreflexive : Std.Irrefl fun m n : Mnemonic => m.ctorIdx < n.ctorIdx :=
    ⟨fun m => Nat.lt_irrefl m.ctorIdx⟩
  refine (Mnemonic.ordered_ordered _).1.eq_of_mem_iff (Mnemonic.ordered_all.filter _) fun m => ?_
  rw [List.mem_filter, decide_eq_true_eq, ← mem_selected_iff]
  exact ⟨fun h => ⟨m.mem_all, h⟩, And.right⟩

/-- The options list an instruction when they ask for its mnemonic, one of the chosen form can be
so, and neither danger nor the machine speaks against it. -/
theorem mem_instructionList_iff {i : Instruction} : i ∈ o.instructionList host ↔
    o.Asks i.mnemonic ∧ i.Expands o.floatForm o.safeDivision ∧
      (i.isUnsafe = true → o.allowUnsafe = true) ∧
      (i.isSupported host = false → o.allowUnsupported = true) := by
  have hadmits : o.admits host i = true ↔ (i.isUnsafe = true → o.allowUnsafe = true) ∧
      (i.isSupported host = false → o.allowUnsupported = true) := by
    unfold admits
    cases i.isUnsafe <;> cases o.allowUnsafe <;> cases i.isSupported host <;> simp
  unfold instructionList
  simp only [List.mem_filter, List.mem_flatMap, Mnemonic.mem_expand_iff, hadmits, mem_selected_iff]
  constructor
  · rintro ⟨⟨m, hasks, rfl, hexpands⟩, hallowed⟩
    exact ⟨hasks, hexpands, hallowed⟩
  · rintro ⟨hasks, hexpands, hallowed⟩
    exact ⟨⟨_, hasks, rfl, hexpands⟩, hallowed⟩

/-- No instruction is listed twice. -/
theorem nodup_instructionList (host : Host) (o : CatalogOptions) :
    (o.instructionList host).Nodup := by
  have hselected : o.selected.Nodup := by
    rw [selected_eq]
    exact List.Nodup.filter _ (by decide)
  refine List.Nodup.filter _ (List.nodup_flatMap.mpr ⟨?_, hselected.imp ?_⟩)
  · exact fun m _ => Mnemonic.nodup_expand _ _ m
  · -- an instruction belongs to one family
    intro m m' hne i hi hi'
    exact hne ((Mnemonic.mem_expand_iff.mp hi).1.symm.trans (Mnemonic.mem_expand_iff.mp hi').1)

/-- All families together have far fewer instructions than there are opcodes. -/
theorem length_instructionList_le (host : Host) (o : CatalogOptions) :
    (o.instructionList host).length ≤ 400 := by
  have hselected : o.selected.length ≤ 25 := by
    rw [selected_eq]
    exact List.length_filter_le _ _
  calc (o.instructionList host).length
      ≤ (o.selected.flatMap (Mnemonic.expand o.floatForm o.safeDivision)).length :=
        List.length_filter_le _ _
    _ = (o.selected.map fun m => (m.expand o.floatForm o.safeDivision).length).sum :=
        List.length_flatMap
    _ ≤ (o.selected.map fun _ => 16).sum :=
        List.sum_le_sum fun m _ => Mnemonic.length_expand_le _ _ m
    _ = o.selected.length * 16 := by simp
    _ ≤ 25 * 16 := Nat.mul_le_mul_right 16 hselected

/-- With longer lists, instructions are added and none is lost or moved. -/
theorem instructionList_sublist
    (hinstructions : ∀ m, Listed o.instructions m → Listed instructions m)
    (hmoves : ∀ m, Listed o.moves m → Listed moves m) :
    (o.instructionList host).Sublist ({ o with instructions, moves }.instructionList host) := by
  have hselected : o.selected.Sublist { o with instructions, moves }.selected := by
    rw [selected_eq, selected_eq]
    refine List.monotone_filter_right _ fun m hm => ?_
    obtain ⟨hfits, hlisted⟩ := of_decide_eq_true hm
    refine decide_eq_true ⟨hfits, ?_⟩
    cases hmove : m.isMove with
    | true =>
        rw [hmove, if_pos rfl] at hlisted
        exact hmoves m hlisted
    | false =>
        rw [hmove, if_neg Bool.false_ne_true] at hlisted
        exact hinstructions m hlisted
  exact (hselected.flatMap _).filter _

/-- Lists with the same members stand for the same instructions. -/
theorem instructionList_congr (hinstructions : ∀ m, Listed o.instructions m ↔ Listed instructions m)
    (hmoves : ∀ m, Listed o.moves m ↔ Listed moves m) :
    { o with instructions, moves }.instructionList host = o.instructionList host :=
  List.Sublist.antisymm
    (instructionList_sublist (o := { o with instructions, moves }) (fun m => (hinstructions m).mpr)
      fun m => (hmoves m).mpr)
    (instructionList_sublist (fun m => (hinstructions m).mp) fun m => (hmoves m).mp)

end CatalogOptions

/-! ## Catalogs -/

namespace Catalog

variable {host : Host} {o : CatalogOptions} {c : Catalog}

/-- A catalog is built of the instructions that the options come to. -/
theorem build_eq_ok (h : build host o = .ok c) : c.instructions = (o.instructionList host).toArray ∧
    c.element = o.element ∧ c.vectorized = o.vectorized := by
  unfold build at h
  split at h
  · simp [refuse] at h
  · exact (ofInstructions_eq_ok_iff.mp h).2

/-- The instructions of a catalog that was built are those that the options list. -/
theorem mem_iff_of_build (h : build host o = .ok c) {i : Instruction} : i ∈ c.instructions ↔
    o.Asks i.mnemonic ∧ i.Expands o.floatForm o.safeDivision ∧
      (i.isUnsafe = true → o.allowUnsafe = true) ∧
      (i.isSupported host = false → o.allowUnsupported = true) := by
  rw [(build_eq_ok h).1, List.mem_toArray, CatalogOptions.mem_instructionList_iff]

/-- There is a catalog unless vectors of integers are asked for, or no instruction is left. -/
theorem exists_build_iff : (∃ c, build host o = .ok c) ↔
    (o.vectorized = true → o.element.isFloat = true) ∧ o.instructionList host ≠ [] := by
  have hlength := o.length_instructionList_le host
  unfold build
  split
  · next hvector =>
    obtain ⟨hvectorized, hinteger⟩ := Bool.and_eq_true_iff.mp hvector
    simp_all [refuse]
  · next hscalar =>
    rw [exists_ofInstructions_iff, List.size_toArray, Nat.one_le_iff_ne_zero, Ne,
      List.length_eq_zero_iff]
    constructor
    · rintro ⟨hsome, -⟩
      refine ⟨fun hvectorized => ?_, hsome⟩
      simpa [hvectorized] using hscalar
    · rintro ⟨-, hsome⟩
      exact ⟨hsome, by omega⟩

/-- What a catalog owes to its options. -/
structure BuiltFrom (host : Host) (o : CatalogOptions) (c : Catalog) : Prop where
  /-- No instruction is listed twice, -/
  nodup : c.instructions.toList.Nodup
  /-- so that instructions and opcodes are found from each other, -/
  opcode_iff : ∀ i opcode, c.opcode? i = some opcode ↔ c.instruction? opcode = some i
  exists_opcode : ∀ i, i ∈ c.instructions ↔ ∃ opcode, c.opcode? i = some opcode
  exists_instruction : ∀ opcode, (Opcode.first ≤ opcode ∧ opcode < c.endOpcode) ↔
    ∃ i, c.instruction? opcode = some i
  /-- and they are the instructions of the families that are asked for. -/
  mem_iff : ∀ i, i ∈ c.instructions ↔ o.Asks i.mnemonic ∧ i.Expands o.floatForm o.safeDivision ∧
    (i.isUnsafe = true → o.allowUnsafe = true) ∧
    (i.isSupported host = false → o.allowUnsupported = true)
  /-- Where the machine has every instruction, all of them are there but for the unsafe ones. -/
  mem_iff_of_supported : (∀ i : Instruction, i.isSupported host = true) → ∀ i,
    i ∈ c.instructions ↔ o.Asks i.mnemonic ∧ i.Expands o.floatForm o.safeDivision ∧
      (i.isUnsafe = true → o.allowUnsafe = true)
  /-- Lists with the same members give the same catalog, -/
  congr : ∀ instructions moves, (∀ m, Listed o.instructions m ↔ Listed instructions m) →
    (∀ m, Listed o.moves m ↔ Listed moves m) → build host { o with instructions, moves } = .ok c
  /-- and longer lists one with more instructions. -/
  mono : ∀ instructions moves, (∀ m, Listed o.instructions m → Listed instructions m) →
    (∀ m, Listed o.moves m → Listed moves m) →
    ∃ more, build host { o with instructions, moves } = .ok more ∧
      c.instructions.toList.Sublist more.instructions.toList

/-- In a catalog without duplicates an opcode is the only one of its instruction. -/
theorem opcode?_eq_some_iff_of_nodup (h : c.instructions.toList.Nodup) (i : Instruction)
    (opcode : Opcode) : c.opcode? i = some opcode ↔ c.instruction? opcode = some i := by
  rw [opcode?_eq_some_iff]
  refine ⟨And.left, fun hopcode => ⟨hopcode, fun other hother => ?_⟩⟩
  obtain ⟨n, hn, hi⟩ := instruction?_eq_some_iff.mp hopcode
  obtain ⟨m, hm, hi'⟩ := instruction?_eq_some_iff.mp hother
  rw [← Array.getElem?_toList] at hi hi'
  have hin := (List.getElem?_eq_some_iff.mp hi).1
  have hsame : n = m := (List.getElem?_inj hin h).mp (hi.trans hi'.symm)
  rw [UInt16.le_iff_toNat_le]
  omega

/-- The instructions of a catalog are those that have an opcode. -/
theorem mem_instructions_iff {i : Instruction} :
    i ∈ c.instructions ↔ ∃ opcode, c.opcode? i = some opcode := by
  rw [← Option.isSome_iff_exists, Option.isSome_iff_ne_none, Ne, opcode?_eq_none_iff]
  simp only [not_forall, not_not]
  constructor
  · intro h
    obtain ⟨n, hi⟩ := Array.mem_iff_getElem?.mp h
    exact ⟨_, instruction?_opcodeAt hi⟩
  · rintro ⟨opcode, hopcode⟩
    exact mem_of_instruction? hopcode

/-- A catalog holds every instruction once, and those are the instructions of the families that its options
ask for; lists with the same members give the same catalog, and longer ones add instructions to it. -/
theorem build_contents (h : build host o = .ok c) : c.BuiltFrom host o where
  nodup := by
    rw [(build_eq_ok h).1]
    exact o.nodup_instructionList host
  opcode_iff := by
    refine opcode?_eq_some_iff_of_nodup ?_
    rw [(build_eq_ok h).1]
    exact o.nodup_instructionList host
  exists_opcode _ := mem_instructions_iff
  exists_instruction _ := exists_instruction?_iff.symm
  mem_iff _ := mem_iff_of_build h
  mem_iff_of_supported hsupported i := by
    rw [mem_iff_of_build h]
    simp [hsupported]
  congr instructions moves hinstructions hmoves := by
    rw [← h]
    unfold build
    rw [CatalogOptions.instructionList_congr hinstructions hmoves]
  mono instructions moves hinstructions hmoves := by
    have hsublist : (o.instructionList host).Sublist
        ({ o with instructions, moves }.instructionList host) :=
      CatalogOptions.instructionList_sublist hinstructions hmoves
    obtain ⟨hfloat, hsome⟩ := exists_build_iff.mp ⟨c, h⟩
    obtain ⟨more, hmore⟩ := exists_build_iff (o := { o with instructions, moves }).mpr
      ⟨hfloat, fun hnil => hsome (List.sublist_nil.mp (hnil ▸ hsublist))⟩
    refine ⟨more, hmore, ?_⟩
    rw [(build_eq_ok h).1, (build_eq_ok hmore).1]
    exact hsublist

/-- Sums, products and moves of doubles; the lists name some families twice, others in vain. -/
theorem build_contents_doubles : ∃ c,
    build .full { element := .f64, instructions := some [.fmul, .nop, .fmul, .movaps, .add]
                  moves := some [.movLow] } = .ok c ∧
      c.instructions.toList.Nodup ∧ Instruction.moveLow ⟨.double, false⟩ .xmm1 .xmm0 ∈ c.instructions ∧
      Instruction.moveAll .xmm1 .xmm0 ∉ c.instructions ∧
      build .full { element := .f64, instructions := some [.nop, .movaps, .add, .fmul]
                    moves := some [.movLow, .movLow] } = .ok c ∧
      ∃ more, build .full { element := .f64, instructions := none, moves := some [.movLow] } =
        .ok more ∧ c.instructions.toList.Sublist more.instructions.toList := by
  obtain ⟨c, hc⟩ : ∃ c,
      build .full { element := .f64, instructions := some [.fmul, .nop, .fmul, .movaps, .add]
                    moves := some [.movLow] } = .ok c :=
    exists_build_iff.mpr ⟨nofun, by decide⟩
  have h := build_contents hc
  refine ⟨c, hc, h.nodup, ?_, ?_, h.congr _ _ ?_ ?_, h.mono _ _ ?_ ?_⟩
  · exact (h.mem_iff _).mpr ⟨⟨rfl, by decide⟩, ⟨⟨rfl, rfl⟩, by decide⟩, nofun, nofun⟩
  · exact fun hmem => absurd ((h.mem_iff _).mp hmem).1.2 (by decide)
  · intro m
    simp only [Listed, Option.getD_some, List.mem_cons]
    tauto
  · intro m
    simp [Listed]
  · exact fun m _ => m.mem_all
  · exact fun m hm => hm

end Catalog

end LinearGP
