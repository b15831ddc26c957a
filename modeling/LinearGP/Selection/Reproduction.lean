import LinearGP.Store.Basic

/-!
# Reproduction

The next generation takes the place of this one in the store: programs without wins are overwritten
by copies of those with more than one, so that in the end a program with `w` wins is there `w`
times, as far as the places go.
-/

set_option autoImplicit false

namespace LinearGP

/-- The places of programs without wins. -/
def vacancies (wins : Array UInt8) : List Nat :=
  (wins.toList.zipIdx.filter fun (w, _) => w = 0).map (·.2)

/-- Reproduction under way: the store, the places that are still vacant, and the number of copies
made so far. -/
structure Breeding where
  store : Store
  vacant : List Nat
  copies : Nat

namespace Breeding

/-- Copy a program to the next vacant places, as often as it is due.  All of reproduction is done when
a copy is due and no place is vacant. -/
def fill (program : Nat) : Nat → Breeding → Except Failure (ForInStep Breeding)
  | 0, b => return .yield b
  | due + 1, b =>
      match b.vacant with
      | [] => return .done b
      | place :: vacant => do
          let store ← b.store.copyProgram program place
          fill program due { store, vacant, copies := b.copies + 1 }

/-- Go through programs with their wins.  A program is due for every win beyond its first. -/
def fillAll : List (UInt8 × Nat) → Breeding → Except Failure Breeding
  | [], b => return b
  | (w, program) :: rest, b => do
      match ← fill program (w.toNat - 1) b with
      | .done b => return b
      | .yield b => fillAll rest b

end Breeding

/-- Overwrite programs without wins by copies of the winners, and return the number of copies. -/
def Store.reproduce (s : Store) (wins : Array UInt8) : Except Failure (Store × Nat) := do
  if s.programCount ≠ wins.size then breach .shapeMismatch
  else
    let b ← Breeding.fillAll wins.toList.zipIdx ⟨s, vacancies wins, 0⟩
    return (b.store, b.copies)

end LinearGP
