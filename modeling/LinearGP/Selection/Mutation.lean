import LinearGP.Random.Source
import LinearGP.Store.Transform

/-!
# Mutation

Instructions are redrawn one after the other, in the order of the store.  To randomize redraws
every one of them; to mutate tosses a coin for each, and redraws it right after a coin that fell
true.
-/

set_option autoImplicit false

namespace LinearGP

variable {σ : Type} [DrawSource σ]

/-- Replace every instruction of a store by one that is drawn from a range of opcodes. -/
def randomize (low high : Opcode) : EStateM Failure (Store × σ) Unit :=
  Store.transform fun _ _ => drawOpcode low high

/-- Toss for an instruction, and count and redraw it if the coin falls true. -/
def mutateInstruction (low high : Opcode) (rate : Binary64) (opcode : Opcode) :
    EStateM Failure (Nat × σ) Opcode := fun (count, s) =>
  match tossCoin rate s with
  | .error failure s => .error failure (count, s)
  | .ok false s => .ok opcode (count, s)
  | .ok true s =>
    match drawOpcode low high s with
    | .error failure s => .error failure (count + 1, s)
    | .ok opcode s => .ok opcode (count + 1, s)

/-- Redraw each instruction of a store with a given chance, and return how many were redrawn. -/
def mutate (low high : Opcode) (rate : Binary64) : EStateM Failure (Store × σ) Nat :=
  fun (store, s) =>
    match Store.transform (fun _ => mutateInstruction low high rate) (store, (0, s)) with
    | .ok _ (store, count, s) => .ok count (store, s)
    | .error failure (store, _, s) => .error failure (store, s)

end LinearGP
