import Mathlib
import LinearGP.Proofs.Evaluation
import LinearGP.Proofs.Instruction.Effects
import LinearGP.Proofs.Samples
import LinearGP.Proofs.Standalone

/-!
# One lane at a time

Instructions on floating point numbers do the same to every lane that they cover, whatever the other
lanes hold.  So a lane of one run and a lane of another one stay equal when both runs execute the same
instructions, each in a form that covers its lane, packed or scalar.  `exists_evaluate_lane` says this
of the outputs: they only depend on the sample whose inputs were in the lane.
-/

set_option autoImplicit false

namespace LinearGP

variable {k : ElementKind}

/-! ## Lanes that are set -/

/-- Setting a lane changes no other lane. -/
theorem lane_setLane {w : Nat} (x : BitVec 128) (n m : Nat) (v : BitVec w)
    (hfits : w * n + w ≤ 128) :
    lane w (setLane x m v) n = if n = m then v else lane w x n := by
  apply BitVec.eq_of_getLsbD_eq
  intro b hb
  rw [getLsbD_lane, getLsbD_setLane _ _ _ _ (by omega)]
  by_cases hnm : n = m
  · subst hnm
    rw [if_pos rfl, if_pos ⟨by omega, by omega⟩, Nat.add_sub_cancel_left]
    simp [hb]
  · have houtside : ¬ (w * m ≤ w * n + b ∧ w * n + b < w * m + w) := by
      rcases Nat.lt_or_gt_of_ne hnm with hlt | hgt
      · have hle : w * n + w ≤ w * m := Nat.mul_le_mul_left w hlt
        omega
      · have hle : w * m + w ≤ w * n := Nat.mul_le_mul_left w hgt
        omega
    rw [if_neg houtside, if_neg hnm, getLsbD_lane]

/-- A lane after the first lanes of a register were set. -/
theorem lane_setLanes {w : Nat} (x : BitVec 128) (count : Nat) (f : Nat → BitVec w) (n : Nat)
    (hfits : w * n + w ≤ 128) :
    lane w (setLanes x count f) n = if n < count then f n else lane w x n := by
  induction count with
  | zero => rfl
  | succ count ih =>
      have hstep : setLanes x (count + 1) f = setLane (setLanes x count f) count (f count) := by
        rw [setLanes, List.range_succ, List.foldl_append]
        rfl
      rw [hstep, lane_setLane _ _ _ _ hfits, ih]
      by_cases hlast : n = count
      · rw [if_pos hlast, if_pos (by omega), hlast]
      · rw [if_neg hlast]
        by_cases hbefore : n < count
        · rw [if_pos hbefore, if_pos (by omega)]
        · rw [if_neg hbefore, if_neg (by omega)]

/-- A register that is built from values has them in its lanes. -/
theorem lane_ofLanes {w : Nat} (values : List (BitVec w)) {n : Nat} (hn : n < values.length)
    (hfits : w * n + w ≤ 128) : lane w (ofLanes values) n = values.getD n 0 := by
  rw [ofLanes, lane_setLanes _ _ _ _ hfits, if_pos hn]

/-! ## Forms -/

/-- The precision of the numbers that samples of a type are made of. -/
def ElementKind.precision (k : ElementKind) : Precision := if k = .f32 then .single else .double

/-- A floating point number is as wide as its precision says. -/
theorem ElementKind.precision_bits (hfloat : k.isFloat = true) : k.precision.bits = k.bits := by
  cases k <;> first | rfl | cases hfloat

/-- The packed form of a floating point type has all of its lanes, and the scalar form has one. -/
theorem FloatForm.lanes_precision (hfloat : k.isFloat = true) (packed : Bool) :
    lanes ⟨k.precision, packed⟩ = if packed then k.lanes else 1 := by
  cases k <;> cases packed <;> first | rfl | cases hfloat

namespace Instruction

/-- The instruction in packed or in scalar form. -/
def inForm (packed : Bool) : Instruction → Instruction
  | float op form dst src => float op { form with packed } dst src
  | i => i

/-- The instruction works on numbers of a precision, each in its lane, and on nothing else. -/
def Lanewise (precision : Precision) : Instruction → Prop
  | nop => True
  | float _ form _ _ => form.precision = precision
  | moveAll _ _ => True
  | _ => False

end Instruction

/-! ## Runs -/

/-- Lane `n` of every vector register of one file is lane `m` of that register of the other. -/
def Registers.SameLane (w n m : Nat) (s t : Registers) : Prop :=
  ∀ r, lane w (s.xmm r) n = lane w (t.xmm r) m

/-- Writes of vectors with the same lane keep files alike in that lane. -/
theorem Registers.SameLane.setXmm {w n m : Nat} {s t : Registers} (h : SameLane w n m s t) (r : Xmm)
    {x y : BitVec 128} (hxy : lane w x n = lane w y m) :
    SameLane w n m (s.setXmm r x) (t.setXmm r y) := by
  intro q
  rw [xmm_setXmm, xmm_setXmm]
  split
  · exact hxy
  · exact h q

/-- Cleared files are alike in any lanes. -/
theorem Registers.sameLane_cleared (w n m : Nat) : SameLane w n m cleared cleared := by
  intro r
  have hzero : cleared.xmm r = 0 := by cases r <;> rfl
  rw [hzero]
  simp [lane]

/-- Floating point arithmetic works on each lane of its form by itself. -/
theorem Registers.lane_floatLanes (s : Registers) (op : FloatOp) (form : FloatForm) (dst src : Xmm)
    {n : Nat} (hn : n < form.lanes) :
    lane form.precision.bits (s.floatLanes op form dst src) n =
      op.apply form.precision (lane form.precision.bits (s.xmm dst) n)
        (lane form.precision.bits (s.xmm src) n) := by
  have hend : form.precision.bits * n + form.precision.bits ≤ form.precision.bits * form.lanes :=
    Nat.mul_le_mul_left _ hn
  rw [floatLanes, lane_setLanes _ _ _ _ (hend.trans form.bits_mul_lanes_le), if_pos hn]

namespace Instruction

variable {precision : Precision} {packed packed' : Bool} {n m : Nat}

/-- Two forms of an instruction keep the lanes that they cover the same. -/
theorem exec_sameLane {i : Instruction} (hi : i.Lanewise precision)
    (hn : n < FloatForm.lanes ⟨precision, packed⟩) (hm : m < FloatForm.lanes ⟨precision, packed'⟩)
    {s t : Registers} (h : Registers.SameLane precision.bits n m s t) :
    ∃ s' t', (i.inForm packed).exec s = some s' ∧ (i.inForm packed').exec t = some t' ∧
      Registers.SameLane precision.bits n m s' t' := by
  cases i with
  | nop => exact ⟨s, t, rfl, rfl, h⟩
  | moveAll dst src => exact ⟨_, _, rfl, rfl, h.setXmm dst (h src)⟩
  | float op form dst src =>
      obtain ⟨precision', _⟩ := form
      obtain rfl : precision' = precision := hi
      refine ⟨_, _, rfl, rfl, h.setXmm dst ?_⟩
      rw [Registers.lane_floatLanes s op ⟨precision', packed⟩ dst src hn,
        Registers.lane_floatLanes t op ⟨precision', packed'⟩ dst src hm, h dst, h src]
  | int | unary | bitCount | div | moveLow => cases hi

/-- Lanewise instructions in any two forms keep lanes alike that both of them work on. -/
theorem execAll_sameLane {instructions : List Instruction}
    (hi : ∀ i ∈ instructions, i.Lanewise precision) (hn : n < FloatForm.lanes ⟨precision, packed⟩)
    (hm : m < FloatForm.lanes ⟨precision, packed'⟩) {s t : Registers}
    (h : Registers.SameLane precision.bits n m s t) :
    ∃ s' t', execAll (instructions.map (inForm packed)) s = some s' ∧
      execAll (instructions.map (inForm packed')) t = some t' ∧
      Registers.SameLane precision.bits n m s' t' := by
  induction instructions generalizing s t with
  | nil => exact ⟨s, t, rfl, rfl, h⟩
  | cons i rest ih =>
      obtain ⟨s₁, t₁, hs, ht, h₁⟩ := exec_sameLane (hi i (by simp)) hn hm h
      obtain ⟨s', t', hs', ht', h'⟩ := ih (fun i hmem => hi i (List.mem_cons_of_mem _ hmem)) h₁
      refine ⟨s', t', ?_, ?_, h'⟩
      · rw [List.map_cons, execAll_cons, hs]
        exact hs'
      · rw [List.map_cons, execAll_cons, ht]
        exact ht'

end Instruction

namespace Layout

variable {l l' : Layout} {inputs inputs' : Array k.Value} {n m : Nat} {sample : Sample k}

/-- A lane lies in the register. -/
theorem Accepted.lane_fits (h : l.Accepted) (hk : l.element = k) (hn : n < l.lanes) :
    k.bits * n + k.bits ≤ 128 := by
  subst hk
  exact (Nat.mul_le_mul_left _ hn).trans h.lanes_mul_bits_le

/-- The columns of a row hold the inputs of a sample in the lane that carries it. -/
theorem Carries.lane_columnValues (h : l.Carries inputs n sample) (hn : n < l.lanes) {column : Nat}
    (hcolumn : column < l.arity) (hfits : k.bits * n + k.bits ≤ 128) :
    lane k.bits (ofLanes (l.columnValues inputs 0 column)) n = sample.inputs.getD column 0 := by
  have hlength : (l.columnValues inputs 0 column).length = l.lanes := by
    rw [columnValues, List.length_map, List.length_range]
  rw [lane_ofLanes _ (by rwa [hlength]) hfits, columnValues, List.getD_eq_getElem?_getD,
    List.getElem?_map, List.getElem?_range hn, Option.map_some, Option.getD_some, Nat.zero_mul,
    Nat.zero_add, Array.getD_eq_getD_getElem?, h.2 column hcolumn, Array.getD_eq_getD_getElem?]

/-- Two rows that carry the same sample start with the same lane. -/
theorem initialRegisters_sameLane (hl : l.Accepted) (hl' : l'.Accepted) (hk : l.element = k)
    (hk' : l'.element = k) (hfloat : k.isFloat = true) (harity : l.arity = l'.arity)
    (hn : n < l.lanes) (hm : m < l'.lanes) (h : l.Carries inputs n sample)
    (h' : l'.Carries inputs' m sample) :
    Registers.SameLane k.bits n m (l.initialRegisters inputs 0) (l'.initialRegisters inputs' 0) := by
  have hregister : ∀ column, l.registerAt? column = (Xmm.ofNat? column).map .xmm ∧
      l'.registerAt? column = (Xmm.ofNat? column).map .xmm := by
    intro column
    simp [registerAt?, usesXmm, hk, hk', hfloat]
  unfold initialRegisters
  rw [← harity]
  refine List.foldl_rel (Registers.sameLane_cleared k.bits n m) ?_
  intro column hmem s t hst
  have hcolumn := List.mem_range.mp hmem
  have hsame : lane k.bits (ofLanes (l.columnValues inputs 0 column)) n =
      lane k.bits (ofLanes (l'.columnValues inputs' 0 column)) m := by
    rw [h.lane_columnValues hn hcolumn (hl.lane_fits hk hn),
      h'.lane_columnValues hm (harity ▸ hcolumn) (hl'.lane_fits hk' hm)]
  unfold loadColumn
  rw [(hregister column).1, (hregister column).2]
  cases Xmm.ofNat? column with
  | none => exact hst
  | some r => exact hst.setXmm r hsame

/-- Instructions that work lane by lane do to a sample the same in every lane of every layout, each
in the form for the layout, and whatever is in the other lanes. -/
theorem exists_evaluate_lane (hl : l.Accepted) (hl' : l'.Accepted) (hk : l.element = k)
    (hk' : l'.element = k) (hfloat : k.isFloat = true) (harity : l.arity = l'.arity)
    (hn : n < l.lanes) (hm : m < l'.lanes) (h : l.Carries inputs n sample)
    (h' : l'.Carries inputs' m sample) {instructions : List Instruction}
    (hi : ∀ i ∈ instructions, i.Lanewise k.precision) :
    ∃ values values',
      l.evaluate (instructions.map (Instruction.inForm l.isVectorized)) inputs 0 = some values ∧
      l'.evaluate (instructions.map (Instruction.inForm l'.isVectorized)) inputs' 0 = some values' ∧
      values[n]? = values'[m]? := by
  have hform : l.lanes = FloatForm.lanes ⟨k.precision, l.isVectorized⟩ := by
    rw [FloatForm.lanes_precision hfloat, hl.lanes_eq_ite, hk]
  have hform' : l'.lanes = FloatForm.lanes ⟨k.precision, l'.isVectorized⟩ := by
    rw [FloatForm.lanes_precision hfloat, hl'.lanes_eq_ite, hk']
  have hstart := initialRegisters_sameLane hl hl' hk hk' hfloat harity hn hm h h'
  rw [← k.precision_bits hfloat] at hstart
  obtain ⟨s, t, hs, ht, hsame⟩ :=
    Instruction.execAll_sameLane hi (hform ▸ hn) (hform' ▸ hm) hstart
  rw [k.precision_bits hfloat] at hsame
  have houtput : l.outputRegister = .xmm .xmm0 ∧ l'.outputRegister = .xmm .xmm0 := by
    simp [outputRegister, usesXmm, hk, hk', hfloat]
  refine ⟨l.readOutput k s, l'.readOutput k t, ?_, ?_, ?_⟩
  · rw [evaluate, hs, Option.map_some]
  · rw [evaluate, ht, Option.map_some]
  · unfold readOutput toLanes
    simp only [houtput.1, houtput.2]
    rw [List.getElem?_map, List.getElem?_map, List.getElem?_range hn, List.getElem?_range hm,
      Option.map_some, Option.map_some, hsame .xmm0]

end Layout

end LinearGP
