import LinearGP.Samples

/-!
# Losses

The loss of a program is the sum of the distances between its outputs and the expected ones, summed
as doubles in the order of the samples.  A sum that is not finite counts as infinite.
-/

set_option autoImplicit false

namespace LinearGP

/-- A loss that is not finite becomes infinite. -/
def Binary64.orInfinity (x : Binary64) : Binary64 := if x.isFinite then x else .infinity

/-- The distances between outputs and expected outputs, added up from the left. -/
def totalDistance (k : ElementKind) (outputs expected : List k.Value) : Binary64 :=
  (List.zipWith k.distance outputs expected).foldl Binary64.add .zero

/-- The loss of outputs for a sample set. -/
def SampleSet.loss {k : ElementKind} (s : SampleSet k) (outputs : Array k.Value) : Binary64 :=
  (totalDistance k outputs.toList s.outputs.toList).orInfinity

/-- The first place with the least loss, in the total order of patterns. -/
def leastLoss? (losses : Array Binary64) : Option (Nat × Binary64) :=
  losses.toList.zipIdx.foldl (fun best (loss, i) =>
    match best with
    | none => some (i, loss)
    | some (_, least) => if loss.totalKey < least.totalKey then some (i, loss) else best) none

end LinearGP
