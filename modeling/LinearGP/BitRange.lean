import LinearGP.Failure

/-!
# Spans of bits

A `BitRange` is a half-open span of bit positions within a register.  Bounds that enclose no bit are
turned down by `ofBounds`, but a span can be written down with any bounds.  Spans are compared by
inclusion, joined by `cover`, and written as `[start..stop)`.
-/

set_option autoImplicit false

namespace LinearGP

/-- The bits from `start` up to but not including `stop`. -/
structure BitRange where
  start : Nat
  stop : Nat
deriving DecidableEq

namespace BitRange

/-- The span between two bounds, which have to enclose a bit. -/
def ofBounds (start stop : Nat) : Except Failure BitRange :=
  if start < stop then .ok ⟨start, stop⟩ else breach .emptyRange

def low8 : BitRange := ⟨0, 8⟩

def low16 : BitRange := ⟨0, 16⟩

/-- A single precision number, or half of a general purpose register. -/
def low32 : BitRange := ⟨0, 32⟩

/-- A double precision number, or a whole general purpose register. -/
def low64 : BitRange := ⟨0, 64⟩

def low128 : BitRange := ⟨0, 128⟩

/-- The byte above the lowest one. -/
def secondByte : BitRange := ⟨8, 16⟩

/-- The upper half of a vector register. -/
def upperHalf : BitRange := ⟨64, 128⟩

/-- The amount of bits between bounds in order. -/
def length (r : BitRange) : Except Failure Nat :=
  if r.start ≤ r.stop then .ok (r.stop - r.start) else breach .overflow

/-- The span has a bit. -/
def Nonempty (r : BitRange) : Prop := r.start < r.stop

instance (r : BitRange) : Decidable r.Nonempty := inferInstanceAs (Decidable (_ < _))

/-- A bit position lies in the span. -/
def Holds (r : BitRange) (bit : Nat) : Prop := r.start ≤ bit ∧ bit < r.stop

instance (r : BitRange) (bit : Nat) : Decidable (r.Holds bit) :=
  inferInstanceAs (Decidable (_ ∧ _))

/-- Every bit of `s` is in `r`. -/
def contains (r s : BitRange) : Bool := r.start ≤ s.start && s.stop ≤ r.stop

/-- The two spans share a bit. -/
def overlaps (r s : BitRange) : Bool := r.start < s.stop && s.start < r.stop

/-- The smallest span that holds both. -/
def cover (r s : BitRange) : BitRange where
  start := min r.start s.start
  stop := max r.stop s.stop

instance : ToString BitRange := ⟨fun r => s!"[{r.start}..{r.stop})"⟩

variable {r s : BitRange} {bit : Nat}

/-- A span that contains another has all of its bits. -/
theorem holds_of_contains (h : r.contains s = true) (hbit : s.Holds bit) : r.Holds bit := by
  simp only [contains, Holds, Bool.and_eq_true, decide_eq_true_eq] at *
  omega

/-- Spans that share a bit overlap. -/
theorem overlaps_of_holds (hr : r.Holds bit) (hs : s.Holds bit) : r.overlaps s = true := by
  simp only [overlaps, Holds, Bool.and_eq_true, decide_eq_true_eq] at *
  omega

/-- Spans that have bits overlap where they share one. -/
theorem overlaps_iff (hr : r.Nonempty) (hs : s.Nonempty) :
    r.overlaps s ↔ ∃ bit, r.Holds bit ∧ s.Holds bit := by
  refine ⟨fun h => ⟨max r.start s.start, ?_⟩, fun ⟨bit, hr, hs⟩ => overlaps_of_holds hr hs⟩
  simp only [overlaps, Nonempty, Holds, Bool.and_eq_true, decide_eq_true_eq] at *
  omega

/-- The joined span has the bits of both. -/
theorem holds_cover (h : r.Holds bit ∨ s.Holds bit) : (r.cover s).Holds bit := by
  simp only [cover, Holds] at *
  omega

/-- A span is not lost when it is joined with another one. -/
theorem Nonempty.cover (hr : r.Nonempty) (s : BitRange) : (r.cover s).Nonempty := by
  simp only [BitRange.cover, Nonempty] at *
  omega

end BitRange

end LinearGP
