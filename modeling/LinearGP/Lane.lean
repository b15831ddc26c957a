/-!
# Lanes of a vector register

A vector register of 128 bits is also a row of narrower lanes, the first of them in the lowest bits.
-/

set_option autoImplicit false

namespace LinearGP

/-- Lane `i` of width `w`. -/
def lane (w : Nat) (x : BitVec 128) (i : Nat) : BitVec w := x.extractLsb' (w * i) w

/-- Replace lane `i`, leaving every other bit as it is. -/
def setLane {w : Nat} (x : BitVec 128) (i : Nat) (v : BitVec w) : BitVec 128 :=
  (x &&& ~~~((BitVec.allOnes w).setWidth 128 <<< (w * i))) ||| (v.setWidth 128 <<< (w * i))

/-- Replace the lowest `n` lanes by `f 0`, `f 1`, and so on. -/
def setLanes {w : Nat} (x : BitVec 128) (n : Nat) (f : Nat → BitVec w) : BitVec 128 :=
  (List.range n).foldl (fun x i => setLane x i (f i)) x

/-- The register whose lowest lanes are the given values and whose other bits are zero. -/
def ofLanes {w : Nat} (values : List (BitVec w)) : BitVec 128 :=
  setLanes 0 values.length fun i => values.getD i 0

/-- The lowest `n` lanes, first one first. -/
def toLanes (w : Nat) (x : BitVec 128) (n : Nat) : List (BitVec w) := (List.range n).map (lane w x)

/-- A bit of a lane is a bit of the register. -/
theorem getLsbD_lane (w : Nat) (x : BitVec 128) (i j : Nat) :
    (lane w x i).getLsbD j = (decide (j < w) && x.getLsbD (w * i + j)) := by
  simp [lane, BitVec.getLsbD_extractLsb']

/-- Setting a lane changes the bits of that lane and no others. -/
theorem getLsbD_setLane {w : Nat} (x : BitVec 128) (i : Nat) (v : BitVec w) (j : Nat)
    (hj : j < 128) :
    (setLane x i v).getLsbD j =
      if w * i ≤ j ∧ j < w * i + w then v.getLsbD (j - w * i) else x.getLsbD j := by
  simp only [setLane, BitVec.getLsbD_or, BitVec.getLsbD_and, BitVec.getLsbD_not,
    BitVec.getLsbD_shiftLeft, BitVec.getLsbD_setWidth, BitVec.getLsbD_allOnes, hj, decide_true,
    Bool.true_and]
  by_cases low : j < w * i
  · have not_in : ¬ (w * i ≤ j ∧ j < w * i + w) := by omega
    rw [if_neg not_in]
    simp [low]
  · have in_register : j - w * i < 128 := by omega
    by_cases high : j - w * i < w
    · have inside : w * i ≤ j ∧ j < w * i + w := by omega
      rw [if_pos inside]
      simp [low, high, in_register]
    · have not_in : ¬ (w * i ≤ j ∧ j < w * i + w) := by omega
      rw [if_neg not_in, BitVec.getLsbD_of_ge v _ (by omega)]
      simp [low, high]

end LinearGP
