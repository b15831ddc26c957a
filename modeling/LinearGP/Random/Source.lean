import LinearGP.Failure

/-!
# Sources of random draws

Selection and mutation draw indices, opcodes and coins.  A source says how its state yields each of
them, and promises that bounded draws stay inside their bounds; nothing else is assumed of it.
-/

set_option autoImplicit false

namespace LinearGP

/-- Random draws from a state. -/
class DrawSource (σ : Type) where
  index : Nat → σ → Nat × σ
  /-- An opcode from a low one up to but not including a high one. -/
  opcode : Opcode → Opcode → σ → Opcode × σ
  /-- A coin that falls true with a given chance. -/
  coin : Binary64 → σ → Bool × σ
  index_lt : ∀ (bound : Nat) (s : σ), 0 < bound → (index bound s).1 < bound
  opcode_mem : ∀ (low high : Opcode) (s : σ), low < high →
    low ≤ (opcode low high s).1 ∧ (opcode low high s).1 < high

section Draws

variable {σ : Type} [DrawSource σ]

/-- Draw an opcode from a range, which must not be empty. -/
def drawOpcode (low high : Opcode) : EStateM Failure σ Opcode := fun s =>
  if low < high then
    let (opcode, s) := DrawSource.opcode low high s
    .ok opcode s
  else .error (.breach .emptyDraw) s

/-- Toss a coin, whose chance must lie between zero and one. -/
def tossCoin (chance : Binary64) : EStateM Failure σ Bool := fun s =>
  if chance.isChance then
    let (result, s) := DrawSource.coin chance s
    .ok result s
  else .error (.breach .invalidChance) s

/-- Draw a number of indices, one after the other. -/
def drawIndices (bound : Nat) : Nat → σ → List Nat × σ
  | 0, s => ([], s)
  | count + 1, s =>
    let (i, s) := DrawSource.index bound s
    let (rest, s) := drawIndices bound count s
    (i :: rest, s)

/-- As many indices are drawn as were asked for. -/
theorem length_drawIndices (bound count : Nat) (s : σ) :
    (drawIndices bound count s).1.length = count := by
  induction count generalizing s with
  | zero => rfl
  | succ count ih => simp [drawIndices, ih]

/-- Every one of the drawn indices is below the bound. -/
theorem lt_of_mem_drawIndices {bound count i : Nat} {s : σ} (positive : 0 < bound)
    (h : i ∈ (drawIndices bound count s).1) : i < bound := by
  induction count generalizing s with
  | zero => simp [drawIndices] at h
  | succ count ih =>
    simp only [drawIndices, List.mem_cons] at h
    rcases h with rfl | h
    · exact DrawSource.index_lt bound s positive
    · exact ih h

end Draws

end LinearGP
