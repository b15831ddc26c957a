import Mathlib
import LinearGP.Layout.Regions
import LinearGP.Proofs.Evaluation

/-!
# Where a sample is

Sample `n` of a list becomes lane `n % lanes` of row `n / lanes`, and its inputs go next to those of
the samples that share the row.  `ofSamples_eq_ok_iff` says which lists make a sample set and what set
it is, `carries_rowInputs` that every sample is found where it belongs, and `evaluateRows_samples`
that the outputs of a run over all rows are in the order of the samples.
-/

set_option autoImplicit false

namespace LinearGP

variable {k : ElementKind}

namespace SampleSet

variable {arity lanes : Nat} {list : List (Sample k)} {samples : SampleSet k}

/-! ## Lists that make a sample set -/

/-- What is asked of a list of samples that is grouped into rows of `lanes`. -/
structure Groupable (arity lanes : Nat) (list : List (Sample k)) : Prop where
  arity_pos : 0 < arity
  arity_le : arity ≤ 4
  size_inputs : ∀ sample ∈ list, sample.inputs.size = arity
  nonempty : list ≠ []
  lanes_dvd : lanes ∣ list.length

/-- The inputs of a list in row, column and lane order. -/
def transposed (rows arity lanes : Nat) (list : List (Sample k)) : Array k.Value :=
  ((List.range rows).flatMap fun row =>
    (List.range arity).flatMap fun column =>
      (List.range lanes).map fun lane =>
        (list[row * lanes + lane]?.bind (·.inputs[column]?)).getD 0).toArray

/-- The sample set of a list. -/
def grouped (arity lanes : Nat) (list : List (Sample k)) : SampleSet k where
  inputs := transposed (list.length / lanes) arity lanes list
  outputs := (list.map (·.output)).toArray
  rows := list.length / lanes
  arity := arity
  lanes := lanes

/-- The first sample that does not have `arity` inputs, with its position. -/
def firstMismatch (arity : Nat) (list : List (Sample k)) : Option (Sample k × Nat) :=
  list.zipIdx.find? fun (sample, _) => sample.inputs.size ≠ arity

/-- No sample is reported when all of them have the right number of inputs. -/
theorem firstMismatch_eq_none_iff :
    firstMismatch arity list = none ↔ ∀ sample ∈ list, sample.inputs.size = arity := by
  unfold firstMismatch
  rw [List.find?_eq_none]
  constructor
  · intro h sample hsample
    obtain ⟨n, hn⟩ := List.getElem?_of_mem hsample
    simpa using h (sample, n) (List.mem_zipIdx_iff_getElem?.mpr hn)
  · rintro h ⟨sample, n⟩ hmem
    simpa using h sample (List.mem_of_getElem? (List.mem_zipIdx_iff_getElem?.mp hmem))

/-- Samples are gathered up to the first one that does not fit. -/
theorem gather_eq (arity : Nat) (list : List (Sample k)) : gather arity list =
    match firstMismatch arity list with
    | some (sample, row) => refuse (.arityMismatch row sample.inputs.size arity)
    | none =>
      .ok ((list.map (·.inputs.toList)).flatten.toArray, (list.map (·.output)).toArray) := by
  -- the loop is followed from whatever was gathered before
  have hfold : ∀ (numbered : List (Sample k × Nat)) (inputs outputs : Array k.Value),
      numbered.foldlM (fun gathered (sample, row) => addSample arity gathered sample row)
          (inputs, outputs) =
        match numbered.find? fun (sample, _) => sample.inputs.size ≠ arity with
        | some (sample, row) => refuse (.arityMismatch row sample.inputs.size arity)
        | none => .ok (inputs ++ ((numbered.map Prod.fst).map (·.inputs.toList)).flatten.toArray,
            outputs ++ ((numbered.map Prod.fst).map (·.output)).toArray) := by
    intro numbered
    induction numbered with
    | nil => simp [pure, Except.pure]
    | cons next rest ih =>
        obtain ⟨sample, row⟩ := next
        intro inputs outputs
        rw [List.foldlM_cons, List.find?_cons]
        by_cases hsize : sample.inputs.size = arity
        · have hnext : addSample arity (inputs, outputs) sample row =
              .ok (inputs ++ sample.inputs, outputs.push sample.output) := if_neg (not_not.mpr hsize)
          simp only [hnext, bind, Except.bind, ih, hsize, ne_eq, not_true, decide_false]
          cases rest.find? fun (sample, _) => sample.inputs.size ≠ arity with
          | some misfit => rfl
          | none => exact congrArg Except.ok (Prod.ext (Array.ext' (by simp)) (Array.ext' (by simp)))
        · have hnext : addSample arity (inputs, outputs) sample row =
              refuse (.arityMismatch row sample.inputs.size arity) := if_pos hsize
          simp [hnext, hsize, refuse, bind, Except.bind]
  have hall := hfold list.zipIdx #[] #[]
  rw [List.zipIdx_map_fst, Array.empty_append, Array.empty_append] at hall
  exact hall

/-- Samples with as many inputs as they should have are transposed. -/
theorem transpose_eq (hsize : ∀ sample ∈ list, sample.inputs.size = arity) {rows : Nat}
    (hrows : rows * lanes ≤ list.length) :
    transpose (list.map (·.inputs.toList)).flatten.toArray rows arity lanes =
      .ok (transposed rows arity lanes list) := by
  have hwidth : ∀ inputs ∈ list.map (·.inputs.toList), inputs.length = arity := by
    intro inputs hinputs
    obtain ⟨sample, hsample, rfl⟩ := List.mem_map.mp hinputs
    exact hsize sample hsample
  have hread : ∀ n < list.length, ∀ column < arity,
      (list.map (·.inputs.toList)).flatten.toArray[n * arity + column]? =
        some ((list[n]?.bind (·.inputs[column]?)).getD 0) := by
    intro n hn column hcolumn
    have hin : column < list[n].inputs.size := (hsize _ (List.getElem_mem hn)).symm ▸ hcolumn
    rw [List.getElem?_toArray, getElem?_flatten hwidth hcolumn, List.getElem?_map,
      List.getElem?_eq_getElem hn]
    simp [hin]
  unfold transpose transposed
  rw [foldlM_append_eq_ok, Array.empty_append]
  intro row hrow inputs
  refine foldlM_append_eq_ok (fun column hcolumn inputs => ?_) inputs
  rw [mapM_eq_ok_map fun lane hlane => ?_]
  · rfl
  · have hn : row * lanes + lane < list.length :=
      (mul_add_lt_mul (List.mem_range.mp hrow) (List.mem_range.mp hlane)).trans_le hrows
    rw [hread _ hn _ (List.mem_range.mp hcolumn)]

/-- A list makes a sample set exactly when it can be grouped. -/
theorem ofSamples_eq_ok_iff :
    ofSamples arity lanes list = .ok samples ↔
      samples = grouped arity lanes list ∧ Groupable arity lanes list := by
  have hfile : Gpr.all.length = 4 := rfl
  have hrows : list.length / lanes * lanes ≤ list.length := Nat.div_mul_le_self _ _
  unfold ofSamples
  rw [gather_eq]
  constructor
  · intro h
    split at h
    · simp [refuse] at h
    split at h
    · simp [refuse] at h
    rename_i hzero hlarge
    cases hmismatch : firstMismatch arity list with
    | some misfit =>
        rw [hmismatch] at h
        cases h
    | none =>
        have hsize := firstMismatch_eq_none_iff.mp hmismatch
        simp only [hmismatch, bind, Except.bind, List.size_toArray, List.length_map] at h
        split at h
        · simp [refuse] at h
        split at h
        · simp [refuse] at h
        rename_i hempty hragged
        rw [transpose_eq hsize hrows] at h
        injection h with h
        refine ⟨h.symm, ?_⟩
        exact {
          arity_pos := Nat.pos_of_ne_zero hzero
          arity_le := by rw [hfile] at hlarge; exact Nat.le_of_not_lt hlarge
          size_inputs := hsize
          nonempty := fun hnil => hempty (by rw [hnil, List.length_nil])
          lanes_dvd := Nat.dvd_of_mod_eq_zero (not_not.mp hragged) }
  · rintro ⟨rfl, h⟩
    have hmod : list.length % lanes = 0 := Nat.mod_eq_zero_of_dvd h.lanes_dvd
    rw [if_neg h.arity_pos.ne', if_neg (by rw [hfile]; exact h.arity_le.not_gt),
      firstMismatch_eq_none_iff.mpr h.size_inputs]
    simp only [bind, Except.bind, List.size_toArray, List.length_map]
    rw [if_neg (by simpa using h.nonempty), if_neg (by simp [hmod]), transpose_eq h.size_inputs hrows]
    rfl

/-- All samples of a set have as many inputs as the set says. -/
theorem size_inputs (h : ofSamples arity lanes list = .ok samples) {sample : Sample k}
    (hsample : sample ∈ list) : sample.inputs.size = samples.arity := by
  obtain ⟨rfl, hgroup⟩ := ofSamples_eq_ok_iff.mp h
  exact hgroup.size_inputs sample hsample

/-- The outputs of a set are those of its samples, in order. -/
theorem outputs_eq (h : ofSamples arity lanes list = .ok samples) :
    samples.outputs.toList = list.map (·.output) := by
  rw [(ofSamples_eq_ok_iff.mp h).1]
  rfl

/-- The rows hold all samples. -/
theorem rows_mul_lanes (h : ofSamples arity lanes list = .ok samples) :
    samples.rows * samples.lanes = list.length := by
  obtain ⟨rfl, hgroup⟩ := ofSamples_eq_ok_iff.mp h
  exact Nat.div_mul_cancel hgroup.lanes_dvd

/-- A set has one output for every lane of every row. -/
theorem size_outputs (h : ofSamples arity lanes list = .ok samples) :
    samples.outputs.size = samples.rows * samples.lanes := by
  rw [rows_mul_lanes h, ← Array.length_toList, outputs_eq h, List.length_map]

/-- A set has a lane. -/
theorem lanes_pos (h : ofSamples arity lanes list = .ok samples) : 0 < samples.lanes := by
  have hlength : 0 < list.length := List.length_pos_of_ne_nil (ofSamples_eq_ok_iff.mp h).2.nonempty
  rw [← rows_mul_lanes h] at hlength
  exact Nat.pos_of_mul_pos_left hlength

/-- Every sample has a row. -/
theorem div_lanes_lt (h : ofSamples arity lanes list = .ok samples) {n : Nat}
    (hn : n < list.length) : n / samples.lanes < samples.rows := by
  rw [Nat.div_lt_iff_lt_mul (lanes_pos h), rows_mul_lanes h]
  exact hn

/-! ## The inputs of a row -/

/-- The inputs of one row, by column and lane. -/
def rowInputs (s : SampleSet k) (row : Nat) : Array k.Value :=
  ((List.range s.arity).flatMap fun column =>
    (List.range s.lanes).map fun lane => s.inputAt row column lane).toArray

/-- A row has one input for every column and lane. -/
@[simp] theorem size_rowInputs (s : SampleSet k) (row : Nat) :
    (s.rowInputs row).size = s.arity * s.lanes := by
  have hwidth : ∀ column < s.arity, ((List.range s.lanes).map fun lane =>
      s.inputAt row column lane).length = s.lanes := by simp
  rw [rowInputs, List.size_toArray, length_flatMap_range hwidth]

/-- The inputs of a row are ordered by columns, and within a column by lanes. -/
theorem getElem?_rowInputs (s : SampleSet k) (row : Nat) {column lane : Nat}
    (hcolumn : column < s.arity) (hlane : lane < s.lanes) :
    (s.rowInputs row)[column * s.lanes + lane]? = some (s.inputAt row column lane) := by
  rw [rowInputs, List.getElem?_toArray, getElem?_flatMap_range (by simp) hcolumn hlane,
    List.getElem?_map, List.getElem?_range hlane, Option.map_some]

/-- An input of a set is an input of the sample that became its row and lane. -/
theorem inputAt_eq (h : ofSamples arity lanes list = .ok samples) {row column lane : Nat}
    (hrow : row < samples.rows) (hcolumn : column < samples.arity) (hlane : lane < samples.lanes) :
    samples.inputAt row column lane =
      (list[row * samples.lanes + lane]?.bind (·.inputs[column]?)).getD 0 := by
  have hcolumns : ∀ row, ((List.range arity).flatMap fun column => (List.range lanes).map fun lane =>
      (list[row * lanes + lane]?.bind (·.inputs[column]?)).getD 0).length = arity * lanes :=
    fun row => length_flatMap_range (by simp)
  have hplace : (row * arity + column) * lanes + lane =
      row * (arity * lanes) + (column * lanes + lane) := by ring
  obtain ⟨rfl, -⟩ := ofSamples_eq_ok_iff.mp h
  simp only [grouped] at hrow hcolumn hlane
  simp only [inputAt, grouped, transposed, Array.getD_eq_getD_getElem?, List.getElem?_toArray]
  rw [hplace, getElem?_flatMap_range (fun row _ => hcolumns row) hrow (mul_add_lt_mul hcolumn hlane),
    getElem?_flatMap_range (by simp) hcolumn hlane, List.getElem?_map, List.getElem?_range hlane,
    Option.map_some, Option.getD_some]

end SampleSet

namespace Layout

/-- A layout has room for the rows of a sample set. -/
structure Suits (l : Layout) (samples : SampleSet k) : Prop where
  accepted : l.Accepted
  element_eq : l.element = k
  arity_eq : l.arity = samples.arity
  lanes_eq : l.lanes = samples.lanes

/-- A layout that is made for samples suits them, and has as many rows. -/
theorem suits_of_ofSamples {l : Layout} {samples : SampleSet k} {programs : Nat}
    (h : ofSamples samples programs = .ok l) : l.Suits samples ∧ l.rows = samples.rows := by
  obtain ⟨rfl, hl⟩ := (ofDimensions_eq_ok_iff _ _ _ _ _ _).mp h
  exact ⟨⟨hl, rfl, rfl, rfl⟩, rfl⟩

/-- A lane of the inputs of one row holds the inputs of a sample. -/
def Carries (l : Layout) (inputs : Array k.Value) (lane : Nat) (sample : Sample k) : Prop :=
  inputs.size = l.arity * l.lanes ∧
    ∀ column < l.arity, inputs[column * l.lanes + lane]? = sample.inputs[column]?

/-- The samples of a row are found in its lanes, in order. -/
theorem carries_rowInputs {l : Layout} {arity lanes : Nat} {list : List (Sample k)}
    {samples : SampleSet k} (hsamples : SampleSet.ofSamples arity lanes list = .ok samples)
    (h : l.Suits samples) {n : Nat} {sample : Sample k} (hn : list[n]? = some sample) :
    l.Carries (samples.rowInputs (n / samples.lanes)) (n % samples.lanes) sample := by
  have hrow := SampleSet.div_lanes_lt hsamples (List.getElem?_eq_some_iff.mp hn).1
  have hlane := Nat.mod_lt n (SampleSet.lanes_pos hsamples)
  have hsize := SampleSet.size_inputs hsamples (List.mem_of_getElem? hn)
  refine ⟨by rw [SampleSet.size_rowInputs, h.arity_eq, h.lanes_eq], ?_⟩
  intro column hcolumn
  rw [h.arity_eq] at hcolumn
  rw [h.lanes_eq, SampleSet.getElem?_rowInputs _ _ hcolumn hlane,
    SampleSet.inputAt_eq hsamples hrow hcolumn hlane, Nat.div_add_mod', hn, Option.bind_some,
    Array.getElem?_eq_getElem (by rwa [hsize]), Option.getD_some]

end Layout

/-! ## Rows one after the other -/

/-- The inputs of a set are those of its rows, in order. -/
theorem SampleSet.inputs_eq {arity lanes : Nat} {list : List (Sample k)} {samples : SampleSet k}
    (h : ofSamples arity lanes list = .ok samples) : samples.inputs =
      ((List.range samples.rows).map fun row => (samples.rowInputs row).toList).flatten.toArray := by
  have hinputs : samples.inputs =
      transposed samples.rows samples.arity samples.lanes list := by
    rw [(ofSamples_eq_ok_iff.mp h).1]
    rfl
  rw [hinputs, transposed, List.flatMap_def]
  congr 2
  apply List.map_congr_left
  intro row hrow
  unfold rowInputs
  apply List.flatMap_congr
  intro column hcolumn
  apply List.map_congr_left
  intro lane hlane
  rw [inputAt_eq h (List.mem_range.mp hrow) (List.mem_range.mp hcolumn) (List.mem_range.mp hlane)]

namespace Layout

variable {l : Layout} {samples : SampleSet k}

/-- Rows of a set of the same dimensions have the width of the layout. -/
theorem length_row (harity : l.arity = samples.arity) (hlanes : l.lanes = samples.lanes)
    (rows : Nat) : ∀ inputs ∈ (List.range rows).map fun row => (samples.rowInputs row).toList,
      inputs.length = l.arity * l.lanes :=
  length_of_mem_map_range fun row _ => by
    rw [Array.length_toList, SampleSet.size_rowInputs, harity, hlanes]

/-- A row is cut out of rows that follow each other. -/
theorem rowInputs_flatten (harity : l.arity = samples.arity) (hlanes : l.lanes = samples.lanes)
    {rows row : Nat} (hrow : row < rows) : l.rowInputs ((List.range rows).map fun row =>
      (samples.rowInputs row).toList).flatten.toArray row = samples.rowInputs row := by
  have hread : ((List.range rows).map fun row => (samples.rowInputs row).toList)[row]? =
      some (samples.rowInputs row).toList := by
    rw [List.getElem?_map, List.getElem?_range hrow, Option.map_some]
  rw [Layout.rowInputs, Nat.succ_mul, extract_flatten (length_row harity hlanes rows) hread]

/-- The outputs of a run over all rows are those of each row by itself, in their order. -/
theorem evaluateRows_rows (h : l.Suits samples) {arity lanes : Nat} {list : List (Sample k)}
    (hsamples : SampleSet.ofSamples arity lanes list = .ok samples)
    {instructions : List Instruction} {values : List k.Value}
    (hvalues : l.evaluateRows instructions samples.inputs 0 samples.rows = some values) :
    values.length = samples.rows * samples.lanes ∧ ∀ row < samples.rows, ∃ output,
      l.evaluate instructions (samples.rowInputs row) 0 = some output ∧
        ∀ lane < samples.lanes, values[row * samples.lanes + lane]? = output[lane]? := by
  obtain ⟨hlength, hrows⟩ := evaluateRows_eq_some h.accepted hvalues
  refine ⟨by rw [hlength, h.lanes_eq], ?_⟩
  intro row hrow
  obtain ⟨output, houtput, hvalue⟩ := hrows row hrow
  rw [Nat.zero_add, ← evaluate_rowInputs, SampleSet.inputs_eq hsamples,
    rowInputs_flatten h.arity_eq h.lanes_eq hrow] at houtput
  rw [h.lanes_eq] at hvalue
  exact ⟨output, houtput, hvalue⟩

/-- The outputs of a run over all rows are those of the samples, in their order. -/
theorem evaluateRows_samples (h : l.Suits samples) {arity lanes : Nat} {list : List (Sample k)}
    (hsamples : SampleSet.ofSamples arity lanes list = .ok samples)
    {instructions : List Instruction} {values : List k.Value}
    (hvalues : l.evaluateRows instructions samples.inputs 0 samples.rows = some values) :
    values.length = list.length ∧ ∀ n < list.length, ∃ output,
      l.evaluate instructions (samples.rowInputs (n / samples.lanes)) 0 = some output ∧
        values[n]? = output[n % samples.lanes]? := by
  obtain ⟨hlength, hrows⟩ := evaluateRows_rows h hsamples hvalues
  refine ⟨by rw [hlength, SampleSet.rows_mul_lanes hsamples], ?_⟩
  intro n hn
  obtain ⟨output, houtput, hvalue⟩ := hrows _ (SampleSet.div_lanes_lt hsamples hn)
  have hat := hvalue _ (Nat.mod_lt n (SampleSet.lanes_pos hsamples))
  rw [Nat.div_add_mod'] at hat
  exact ⟨output, houtput, hat⟩

end Layout

/-! ## The input region -/

/-- The dimensions of a layout are those of a sample set. -/
structure Layout.Matches (l : Layout) (samples : SampleSet k) : Prop where
  element_eq : l.element = k
  rows_eq : l.rows = samples.rows
  arity_eq : l.arity = samples.arity
  lanes_eq : l.lanes = samples.lanes

namespace InputRegion

variable {l : Layout} {samples : SampleSet k} {r r' : InputRegion k}
  {row column lane row' column' lane' : Nat}

/-- A region has the dimensions of a layout. -/
structure Spans (r : InputRegion k) (l : Layout) : Prop where
  arity_eq : r.arity = l.arity
  lanes_eq : r.lanes = l.lanes
  size_eq : r.values.size = l.inputLength

/-- An input of a layout has a row, a column and a lane. -/
structure Inside (l : Layout) (row column lane : Nat) : Prop where
  row_lt : row < l.rows
  column_lt : column < l.arity
  lane_lt : lane < l.lanes

/-- Places tell inputs apart. -/
theorem Inside.place_inj (h : Inside l row column lane) (h' : Inside l row' column' lane') :
    (row * l.arity + column) * l.lanes + lane = (row' * l.arity + column') * l.lanes + lane' ↔
      row = row' ∧ column = column' ∧ lane = lane' := by
  rw [mul_add_inj h.lane_lt h'.lane_lt, mul_add_inj h.column_lt h'.column_lt, and_assoc]

/-- A place inside the layout is one of the region. -/
theorem Inside.place_lt (h : Inside l row column lane) :
    (row * l.arity + column) * l.lanes + lane < l.inputLength :=
  mul_add_lt_mul (mul_add_lt_mul h.row_lt h.column_lt) h.lane_lt

/-- Every input of the layout has a place in the region. -/
theorem Spans.index_eq (hr : r.Spans l) (h : Inside l row column lane) :
    r.index row column lane = .ok ((row * l.arity + column) * l.lanes + lane) := by
  have hin : column < r.arity ∧ lane < r.lanes ∧
      (row * r.arity + column) * r.lanes + lane < r.values.size := by
    rw [hr.arity_eq, hr.lanes_eq, hr.size_eq]
    exact ⟨h.column_lt, h.lane_lt, h.place_lt⟩
  unfold index
  simp only
  rw [if_pos hin, hr.arity_eq, hr.lanes_eq]

/-- Inside the layout, reading finds the value at its place. -/
theorem Spans.get_eq (hr : r.Spans l) (h : Inside l row column lane) :
    r.get row column lane = .ok (r.values.getD ((row * l.arity + column) * l.lanes + lane) 0) := by
  unfold get
  rw [hr.index_eq h]
  rfl

/-- A write changes the input that it names, and no other. -/
theorem Spans.exists_set (hr : r.Spans l) (h : Inside l row column lane) (value : k.Value) :
    ∃ r', r.set row column lane value = .ok r' ∧ r'.Spans l ∧
      ∀ row' column' lane', Inside l row' column' lane' → r'.get row' column' lane' =
        if row' = row ∧ column' = column ∧ lane' = lane then .ok value
        else r.get row' column' lane' := by
  let place := (row * l.arity + column) * l.lanes + lane
  have hspans : ({ r with values := r.values.setIfInBounds place value } : InputRegion k).Spans l :=
    ⟨hr.arity_eq, hr.lanes_eq, (Array.size_setIfInBounds).trans hr.size_eq⟩
  refine ⟨_, by unfold set; rw [hr.index_eq h]; rfl, hspans, ?_⟩
  intro row' column' lane' h'
  have hplace : place < r.values.size := hr.size_eq ▸ h.place_lt
  rw [hspans.get_eq h', hr.get_eq h', Array.getD_eq_getD_getElem?, Array.getElem?_setIfInBounds,
    Array.getD_eq_getD_getElem?]
  by_cases hsame : row' = row ∧ column' = column ∧ lane' = lane
  · obtain ⟨rfl, rfl, rfl⟩ := hsame
    rw [if_pos rfl, if_pos hplace, if_pos ⟨rfl, rfl, rfl⟩, Option.getD_some]
  · rw [if_neg fun heq => hsame ((h'.place_inj h).mp heq.symm), if_neg hsame]

/-- Every place in the region is that of an input. -/
theorem exists_inside {place : Nat} (h : place < l.inputLength) :
    ∃ row column lane, Inside l row column lane ∧
      (row * l.arity + column) * l.lanes + lane = place := by
  have hlanes : 0 < l.lanes := Nat.pos_of_mul_pos_left (Nat.zero_lt_of_lt h)
  have hcolumns : place / l.lanes < l.rows * l.arity := (Nat.div_lt_iff_lt_mul hlanes).mpr h
  have harity : 0 < l.arity := Nat.pos_of_mul_pos_left (Nat.zero_lt_of_lt hcolumns)
  refine ⟨place / l.lanes / l.arity, place / l.lanes % l.arity, place % l.lanes, ⟨?_, ?_, ?_⟩, ?_⟩
  · exact (Nat.div_lt_iff_lt_mul harity).mpr hcolumns
  · exact Nat.mod_lt _ harity
  · exact Nat.mod_lt _ hlanes
  · rw [Nat.div_add_mod', Nat.div_add_mod']

/-- The inputs of a sample set stand in the first places of a region. -/
structure FilledTo (samples : SampleSet k) (l : Layout) (places : Nat) (r : InputRegion k) : Prop where
  spans : r.Spans l
  get_eq : ∀ row column lane, Inside l row column lane →
    (row * l.arity + column) * l.lanes + lane < places →
      r.get row column lane = .ok (samples.inputAt row column lane)

/-- A step of the loop over a region fills the next place. -/
theorem FilledTo.exists_set
    (h : FilledTo samples l ((row * l.arity + column) * l.lanes + lane) r)
    (hinside : Inside l row column lane) :
    ∃ r', r.set row column lane (samples.inputAt row column lane) = .ok r' ∧
      FilledTo samples l ((row * l.arity + column) * l.lanes + (lane + 1)) r' := by
  obtain ⟨r', hr', hspans, hget⟩ :=
    h.spans.exists_set hinside (samples.inputAt row column lane)
  refine ⟨r', hr', hspans, fun row' column' lane' hinside' hplace => ?_⟩
  rw [hget row' column' lane' hinside']
  split
  · next hsame =>
    obtain ⟨rfl, rfl, rfl⟩ := hsame
    rfl
  · next hother =>
    refine h.get_eq row' column' lane' hinside' (lt_of_le_of_ne (Nat.lt_succ_iff.mp hplace) ?_)
    exact fun heq => hother ((hinside'.place_inj hinside).mp heq)

/-- A layout of the same dimensions as a sample set has an input region for it. -/
theorem exists_ofSamples (h : l.Matches samples) :
    ∃ r, ofSamples l samples = .ok r ∧ FilledTo samples l l.inputLength r := by
  have hsame : ¬ (l.rows ≠ samples.rows ∨ l.arity ≠ samples.arity ∨ l.lanes ≠ samples.lanes) := by
    rw [h.rows_eq, h.arity_eq, h.lanes_eq]
    simp
  have hzeroed : zeroed k l =
      .ok { values := Array.replicate l.inputLength 0, arity := l.arity, lanes := l.lanes } :=
    if_neg (not_not.mpr h.element_eq)
  -- the three loops fill place after place, each from where the loop around it stands
  have hcolumn : ∀ row < l.rows, ∀ column < l.arity, ∀ r,
      FilledTo samples l ((row * l.arity + column) * l.lanes) r →
      ∃ r', (List.range l.lanes).foldlM (fun region lane => do
          let value ← samples.input row column lane
          region.set row column lane value) r = .ok r' ∧
        FilledTo samples l ((row * l.arity + (column + 1)) * l.lanes) r' := by
    intro row hrow column hcolumn r hr
    have hend : (row * l.arity + (column + 1)) * l.lanes =
        (row * l.arity + column) * l.lanes + l.lanes := by ring
    rw [hend]
    refine exists_foldlM_range
      (fun lane => FilledTo samples l ((row * l.arity + column) * l.lanes + lane)) ?_ hr
    intro lane hlane r hr
    have hinput : samples.input row column lane = .ok (samples.inputAt row column lane) :=
      if_pos ⟨h.rows_eq ▸ hrow, h.arity_eq ▸ hcolumn, h.lanes_eq ▸ hlane⟩
    rw [hinput]
    exact hr.exists_set ⟨hrow, hcolumn, hlane⟩
  have hrow : ∀ row < l.rows, ∀ r, FilledTo samples l (row * l.arity * l.lanes) r →
      ∃ r', (List.range l.arity).foldlM (fun region column =>
          (List.range l.lanes).foldlM (fun region lane => do
            let value ← samples.input row column lane
            region.set row column lane value) region) r = .ok r' ∧
        FilledTo samples l ((row + 1) * l.arity * l.lanes) r' := by
    intro row hrow r hr
    rw [Nat.succ_mul]
    exact exists_foldlM_range
      (fun column => FilledTo samples l ((row * l.arity + column) * l.lanes)) (hcolumn row hrow) hr
  unfold ofSamples
  rw [if_neg hsame, hzeroed]
  refine exists_foldlM_range (fun row => FilledTo samples l (row * l.arity * l.lanes)) hrow ?_
  exact ⟨⟨rfl, rfl, Array.size_replicate⟩, fun _ _ _ _ hplace => absurd hplace (by simp)⟩

/-- What a region holds once it is filled. -/
theorem FilledTo.values_eq (h : FilledTo samples l l.inputLength r) (hl : l.Matches samples) :
    r.values =
      ((List.range l.rows).map fun row => (samples.rowInputs row).toList).flatten.toArray := by
  have hlength : ((List.range l.rows).map fun row =>
      (samples.rowInputs row).toList).flatten.toArray.size = l.inputLength := by
    rw [List.size_toArray, length_flatten_of_width (Layout.length_row hl.arity_eq hl.lanes_eq _),
      List.length_map, List.length_range, Layout.inputLength, Nat.mul_assoc]
  apply Array.ext_getElem?
  intro place
  -- every place belongs to a row, a column and a lane
  by_cases hplace : place < l.inputLength
  · obtain ⟨row, column, lane, hinside, rfl⟩ := exists_inside hplace
    have hget := h.get_eq row column lane hinside hplace
    have hsplit : (row * l.arity + column) * l.lanes + lane =
        row * (l.arity * l.lanes) + (column * l.lanes + lane) := by ring
    have hread : ((List.range l.rows).map fun row =>
        (samples.rowInputs row).toList)[row]? = some (samples.rowInputs row).toList := by
      rw [List.getElem?_map, List.getElem?_range hinside.row_lt, Option.map_some]
    rw [h.spans.get_eq hinside, Except.ok.injEq, Array.getD_eq_getD_getElem?,
      Array.getElem?_eq_getElem (h.spans.size_eq ▸ hplace), Option.getD_some] at hget
    rw [Array.getElem?_eq_getElem (h.spans.size_eq ▸ hplace), hget, hsplit, List.getElem?_toArray,
      getElem?_flatten (Layout.length_row hl.arity_eq hl.lanes_eq _)
        (mul_add_lt_mul hinside.column_lt hinside.lane_lt), hread, Option.bind_some,
      Array.getElem?_toList, hl.lanes_eq, SampleSet.getElem?_rowInputs _ _
        (hl.arity_eq ▸ hinside.column_lt) (hl.lanes_eq ▸ hinside.lane_lt)]
  · rw [Array.getElem?_eq_none (h.spans.size_eq ▸ Nat.le_of_not_lt hplace),
      Array.getElem?_eq_none (hlength ▸ Nat.le_of_not_lt hplace)]

/-- Inputs are only filled from samples that have the dimensions of the layout. -/
theorem dimensions_of_ofSamples (h : ofSamples l samples = .ok r) :
    l.rows = samples.rows ∧ l.arity = samples.arity ∧ l.lanes = samples.lanes := by
  unfold ofSamples at h
  split at h
  · simp [breach] at h
  · next hdimensions => simpa only [not_or, not_not] using hdimensions

/-- A region is made for the samples of a layout only. -/
theorem matches_of_ofSamples (h : ofSamples l samples = .ok r) : l.Matches samples := by
  obtain ⟨hrows, harity, hlanes⟩ := dimensions_of_ofSamples h
  refine ⟨?_, hrows, harity, hlanes⟩
  by_contra hforeign
  have hzeroed : zeroed k l = breach .foreignElement := if_pos hforeign
  unfold ofSamples at h
  rw [hzeroed] at h
  split at h <;> cases h

/-- The region of a sample set is filled with it. -/
theorem filledTo_of_ofSamples (h : ofSamples l samples = .ok r) :
    FilledTo samples l l.inputLength r := by
  obtain ⟨filled, hfilled, hr⟩ := exists_ofSamples (matches_of_ofSamples h)
  exact Except.ok.inj (hfilled.symm.trans h) ▸ hr

/-- Filled inputs are those of the rows, one row after the other. -/
theorem ofSamples_eq_ok (h : ofSamples l samples = .ok r) :
    l.element = k ∧ r.values =
      ((List.range l.rows).map fun row => (samples.rowInputs row).toList).flatten.toArray :=
  ⟨(matches_of_ofSamples h).element_eq,
    (filledTo_of_ofSamples h).values_eq (matches_of_ofSamples h)⟩

/-- Filled inputs have the length that the layout gives them. -/
theorem size_of_ofSamples (h : ofSamples l samples = .ok r) : r.values.size = l.inputLength :=
  (filledTo_of_ofSamples h).spans.size_eq

/-- The inputs of a row in the region are those of the samples. -/
theorem rowInputs_of_ofSamples (h : ofSamples l samples = .ok r) {row : Nat} (hrow : row < l.rows) :
    l.rowInputs r.values row = samples.rowInputs row := by
  obtain ⟨-, harity, hlanes⟩ := dimensions_of_ofSamples h
  rw [(ofSamples_eq_ok h).2, Layout.rowInputs_flatten harity hlanes hrow]

/-- The region holds the inputs of a grouped list as they are. -/
theorem values_of_ofSamples {arity lanes : Nat} {list : List (Sample k)}
    (hsamples : SampleSet.ofSamples arity lanes list = .ok samples)
    (h : ofSamples l samples = .ok r) : r.values = samples.inputs := by
  rw [(ofSamples_eq_ok h).2, (dimensions_of_ofSamples h).1, SampleSet.inputs_eq hsamples]

end InputRegion

end LinearGP
