import Mathlib
import LinearGP.Proofs.Samples

/-!
# Grouping loses and mixes nothing

A list of samples becomes a sample set exactly when it can be grouped, and the first sample with a wrong
number of inputs is reported before the samples are counted.  Lane `l` of row `r` is then sample
`r * lanes + l` of the list, wherever it is read: in the sample set, or in the input region of a layout
of the same dimensions.  There a write reaches the input that it names and no other, as places tell
rows, columns and lanes apart.
-/

set_option autoImplicit false

namespace LinearGP

variable {k : ElementKind}

/-- The lanes of a row, in a vectorized set or a scalar one. -/
def ElementKind.lanesOf (k : ElementKind) (vectorized : Bool) : Nat :=
  if vectorized then k.lanes else 1

/-! ## Sample sets -/

namespace SampleSet

variable {arity lanes : Nat} {list : List (Sample k)} {samples : SampleSet k}

/-- The sample set of a list, vectorized or scalar. -/
def make (vectorized : Bool) (arity : Nat) (list : List (Sample k)) :
    Except Failure (SampleSet k) :=
  if vectorized then SampleSet.vectorized arity list else SampleSet.scalar arity list

/-- Both ways to make a sample set are one, with the lanes that belong to it. -/
theorem make_eq (vectorized : Bool) :
    make vectorized arity list = ofSamples arity (k.lanesOf vectorized) list := by
  cases vectorized <;> rfl

/-- A sample of the list does not have `arity` inputs, and all before it do. -/
structure FirstMisfit (arity : Nat) (list : List (Sample k)) (sample : Sample k) (n : Nat) : Prop where
  getElem?_eq : list[n]? = some sample
  size_ne : sample.inputs.size ≠ arity
  size_before : ∀ m < n, ∀ other, list[m]? = some other → other.inputs.size = arity

/-- The sample that is reported is the first one that does not fit. -/
theorem firstMismatch_eq_some_iff {sample : Sample k} {n : Nat} :
    firstMismatch arity list = some (sample, n) ↔ FirstMisfit arity list sample n := by
  unfold firstMismatch
  rw [List.find?_eq_some_iff_getElem]
  constructor
  · rintro ⟨hsize, i, hi, hat, hbefore⟩
    rw [List.length_zipIdx] at hi
    rw [List.getElem_zipIdx, Prod.mk.injEq, Nat.zero_add] at hat
    obtain ⟨rfl, rfl⟩ := hat
    refine ⟨List.getElem?_eq_getElem hi, by simpa using hsize, ?_⟩
    intro m hm other hother
    obtain ⟨_, rfl⟩ := List.getElem?_eq_some_iff.mp hother
    simpa using hbefore m hm
  · rintro ⟨hat, hsize, hbefore⟩
    obtain ⟨hn, rfl⟩ := List.getElem?_eq_some_iff.mp hat
    refine ⟨by simpa using hsize, n, by simpa using hn, by simp, ?_⟩
    intro m hm
    simpa using hbefore m hm _ (List.getElem?_eq_getElem (hm.trans hn))

/-- The first sample with a wrong number of inputs is reported, however many samples there are. -/
theorem ofSamples_eq_mismatch (harity : 0 < arity) (hle : arity ≤ 4) {sample : Sample k} {n : Nat}
    (h : FirstMisfit arity list sample n) :
    ofSamples arity lanes list = refuse (.arityMismatch n sample.inputs.size arity) := by
  have hfile : Gpr.all.length = 4 := rfl
  unfold ofSamples
  rw [if_neg harity.ne', if_neg (by rw [hfile]; exact hle.not_gt), gather_eq,
    firstMismatch_eq_some_iff.mpr h]
  rfl

/-- An input of a set is the input of a sample. -/
theorem exists_input_eq (h : ofSamples arity lanes list = .ok samples) {row column lane : Nat}
    (hrow : row < samples.rows) (hcolumn : column < samples.arity) (hlane : lane < samples.lanes) :
    ∃ sample value, list[row * samples.lanes + lane]? = some sample ∧
      sample.inputs[column]? = some value ∧ samples.input row column lane = .ok value := by
  have hn : row * samples.lanes + lane < list.length :=
    rows_mul_lanes h ▸ mul_add_lt_mul hrow hlane
  have hsize := size_inputs h (List.getElem_mem hn)
  refine ⟨_, _, List.getElem?_eq_getElem hn, Array.getElem?_eq_getElem (hsize ▸ hcolumn), ?_⟩
  rw [input, if_pos ⟨hrow, hcolumn, hlane⟩, inputAt_eq h hrow hcolumn hlane,
    List.getElem?_eq_getElem hn, Option.bind_some, Array.getElem?_eq_getElem (hsize ▸ hcolumn),
    Option.getD_some]

/-- An output of a set is the output of a sample. -/
theorem exists_output_eq (h : ofSamples arity lanes list = .ok samples) {row lane : Nat}
    (hrow : row < samples.rows) (hlane : lane < samples.lanes) :
    ∃ sample, list[row * samples.lanes + lane]? = some sample ∧
      samples.output row lane = .ok sample.output := by
  have hn : row * samples.lanes + lane < list.length :=
    rows_mul_lanes h ▸ mul_add_lt_mul hrow hlane
  refine ⟨_, List.getElem?_eq_getElem hn, ?_⟩
  rw [output, if_pos ⟨hrow, hlane⟩, Array.getD_eq_getD_getElem?, ← Array.getElem?_toList,
    outputs_eq h, List.getElem?_map, List.getElem?_eq_getElem hn, Option.map_some, Option.getD_some]

end SampleSet

/-! ## Input regions -/

namespace InputRegion

variable {l : Layout} {samples : SampleSet k} {r : InputRegion k} {row column lane : Nat}

/-- The region of a sample set holds its inputs by row, column and lane. -/
theorem getElem?_of_ofSamples {arity lanes : Nat} {list : List (Sample k)}
    (hsamples : SampleSet.ofSamples arity lanes list = .ok samples) (h : ofSamples l samples = .ok r)
    (hinside : Inside l row column lane) :
    ∃ value, samples.input row column lane = .ok value ∧
      r.values[(row * l.arity + column) * l.lanes + lane]? = some value := by
  obtain ⟨hrows, harity, hlanes⟩ := dimensions_of_ofSamples h
  have hplace : (row * l.arity + column) * l.lanes + lane < r.values.size :=
    size_of_ofSamples h ▸ hinside.place_lt
  refine ⟨_, ?_, Array.getElem?_eq_getElem hplace⟩
  rw [SampleSet.input, if_pos ⟨hrows ▸ hinside.row_lt, harity ▸ hinside.column_lt,
    hlanes ▸ hinside.lane_lt⟩, SampleSet.inputAt, ← harity, ← hlanes,
    ← values_of_ofSamples hsamples h, Array.getD_eq_getD_getElem?, Array.getElem?_eq_getElem hplace,
    Option.getD_some]

end InputRegion

/-! ## Grouping -/

namespace SampleSet

/-- Where the samples of a list are found, once they are grouped. -/
structure Groups (arity lanes : Nat) (list : List (Sample k)) (samples : SampleSet k) : Prop where
  arity_eq : samples.arity = arity
  lanes_eq : samples.lanes = lanes
  /-- Every sample has a row and a lane. -/
  rows_mul_lanes : samples.rows * lanes = list.length
  input : ∀ row < samples.rows, ∀ column < arity, ∀ lane < lanes, ∃ sample value,
    list[row * lanes + lane]? = some sample ∧ sample.inputs[column]? = some value ∧
      samples.input row column lane = .ok value
  output : ∀ row < samples.rows, ∀ lane < lanes, ∃ sample,
    list[row * lanes + lane]? = some sample ∧ samples.output row lane = .ok sample.output
  /-- The input region of a layout of the same dimensions holds nothing but these inputs, in the order
  of rows, columns and lanes. -/
  region : ∀ l : Layout, l.Matches samples → ∃ r, InputRegion.ofSamples l samples = .ok r ∧
    r.Spans l ∧ r.values.size = samples.rows * arity * lanes ∧
    ∀ row < samples.rows, ∀ column < arity, ∀ lane < lanes, ∃ value,
      samples.input row column lane = .ok value ∧ r.get row column lane = .ok value ∧
        r.values[(row * arity + column) * lanes + lane]? = some value
  /-- Writes to it, whatever was written before, change one input. -/
  write : ∀ l : Layout, l.Matches samples → ∀ r : InputRegion k, r.Spans l →
    ∀ row < samples.rows, ∀ column < arity, ∀ lane < lanes, ∀ value,
      ∃ r', r.set row column lane value = .ok r' ∧ r'.Spans l ∧
        ∀ row' < samples.rows, ∀ column' < arity, ∀ lane' < lanes,
          r'.get row' column' lane' =
            if row' = row ∧ column' = column ∧ lane' = lane then .ok value
            else r.get row' column' lane'

/-- A sample set groups its samples by rows and lanes. -/
theorem groups_of_ofSamples {arity lanes : Nat} {list : List (Sample k)} {samples : SampleSet k}
    (h : ofSamples arity lanes list = .ok samples) : samples.Groups arity lanes list := by
  obtain ⟨harity, hlanes⟩ : samples.arity = arity ∧ samples.lanes = lanes := by
    rw [(ofSamples_eq_ok_iff.mp h).1]
    exact ⟨rfl, rfl⟩
  have hinside : ∀ l : Layout, l.Matches samples → ∀ row column lane : Nat, row < samples.rows →
      column < arity → lane < lanes → InputRegion.Inside l row column lane := by
    intro l hl row column lane hrow hcolumn hlane
    exact ⟨hl.rows_eq ▸ hrow, hl.arity_eq ▸ harity ▸ hcolumn, hl.lanes_eq ▸ hlanes ▸ hlane⟩
  refine { arity_eq := harity, lanes_eq := hlanes, rows_mul_lanes := ?_, input := ?_, output := ?_,
           region := ?_, write := ?_ }
  · rw [← hlanes]
    exact SampleSet.rows_mul_lanes h
  · intro row hrow column hcolumn lane hlane
    rw [← harity] at hcolumn
    rw [← hlanes] at hlane ⊢
    exact exists_input_eq h hrow hcolumn hlane
  · intro row hrow lane hlane
    rw [← hlanes] at hlane ⊢
    exact exists_output_eq h hrow hlane
  · intro l hl
    obtain ⟨r, hr, hfilled⟩ := InputRegion.exists_ofSamples hl
    have hspans := hfilled.spans
    refine ⟨r, hr, hspans, ?_, ?_⟩
    · rw [hspans.size_eq, Layout.inputLength, hl.rows_eq, hl.arity_eq, hl.lanes_eq, harity, hlanes]
    · intro row hrow column hcolumn lane hlane
      have hin := hinside l hl row column lane hrow hcolumn hlane
      obtain ⟨value, hinput, hvalue⟩ := InputRegion.getElem?_of_ofSamples h hr hin
      refine ⟨value, hinput, ?_, ?_⟩
      · rw [hspans.get_eq hin, Array.getD_eq_getD_getElem?, hvalue, Option.getD_some]
      · rwa [hl.arity_eq, hl.lanes_eq, harity, hlanes] at hvalue
  · intro l hl r hspans row hrow column hcolumn lane hlane value
    obtain ⟨r', hr', hspans', hget⟩ :=
      hspans.exists_set (hinside l hl row column lane hrow hcolumn hlane) value
    refine ⟨r', hr', hspans', ?_⟩
    intro row' hrow' column' hcolumn' lane' hlane'
    exact hget row' column' lane' (hinside l hl row' column' lane' hrow' hcolumn' hlane')

/-- A list of samples makes a sample set, scalar or vectorized, exactly when it can be grouped; what is
wrong with the inputs of a sample is said before anything about their number; and the samples are found
where they belong. -/
theorem make_groups (vectorized : Bool) (arity : Nat) (list : List (Sample k)) :
    ((∃ samples, make vectorized arity list = .ok samples) ↔
      Groupable arity (k.lanesOf vectorized) list) ∧
    (0 < arity → arity ≤ 4 → ∀ sample n, FirstMisfit arity list sample n →
      make vectorized arity list = refuse (.arityMismatch n sample.inputs.size arity)) ∧
    ∀ samples, make vectorized arity list = .ok samples →
      samples.Groups arity (k.lanesOf vectorized) list := by
  simp only [make_eq]
  refine ⟨?_, fun harity hle sample n => ofSamples_eq_mismatch harity hle,
    fun samples => groups_of_ofSamples⟩
  constructor
  · rintro ⟨samples, hsamples⟩
    exact (ofSamples_eq_ok_iff.mp hsamples).2
  · intro hgroup
    exact ⟨_, ofSamples_eq_ok_iff.mpr ⟨rfl, hgroup⟩⟩

/-- Four samples of two inputs make two rows of two lanes. -/
theorem make_groups_four :
    make true 2 [⟨#[1, 2], 10⟩, ⟨#[3, 4], 20⟩, ⟨#[5, 6], 30⟩, ⟨#[7, 8], 40⟩] =
      .ok (⟨#[1, 3, 2, 4, 5, 7, 6, 8], #[10, 20, 30, 40], 2, 2, 2⟩ : SampleSet .f64) ∧
    (⟨#[1, 3, 2, 4, 5, 7, 6, 8], #[10, 20, 30, 40], 2, 2, 2⟩ : SampleSet .f64).Groups 2 2
      [⟨#[1, 2], 10⟩, ⟨#[3, 4], 20⟩, ⟨#[5, 6], 30⟩, ⟨#[7, 8], 40⟩] ∧
    make true 2 [⟨#[1, 2], 10⟩, ⟨#[3], 20⟩, (⟨#[], 30⟩ : Sample .f64)] =
      refuse (.arityMismatch 1 1 2) := by
  have hmade : make true 2 [⟨#[1, 2], 10⟩, ⟨#[3, 4], 20⟩, ⟨#[5, 6], 30⟩, ⟨#[7, 8], 40⟩] =
      .ok (⟨#[1, 3, 2, 4, 5, 7, 6, 8], #[10, 20, 30, 40], 2, 2, 2⟩ : SampleSet .f64) := rfl
  refine ⟨hmade, (make_groups true 2 _).2.2 _ hmade, ?_⟩
  refine (make_groups true 2 _).2.1 (by decide) (by decide) ⟨#[3], 20⟩ 1 ⟨rfl, by decide, ?_⟩
  intro m hm other hother
  obtain rfl : m = 0 := by omega
  injection hother with hother
  subst hother
  rfl

end SampleSet

end LinearGP
