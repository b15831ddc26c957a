import LinearGP.Store.Basic

/-!
# Transforming programs

Instructions are replaced by a function with a state of its own, in one pass from left to right.
The pass stops where the function fails or returns a sentinel; what was written before stays.
-/

set_option autoImplicit false

namespace LinearGP

/-- Where an instruction is, seen from the thread that runs it. -/
structure Place where
  thread : Nat
  program : Nat
  instruction : Nat
deriving DecidableEq

/-- One instruction to replace: the slot to read, the slot to write, and what else the function gets
to see. -/
structure SlotStep (κ : Type) where
  source : Nat
  target : Nat
  key : κ

namespace Store

variable {σ κ : Type}

/-- Replace slots one after the other. -/
def transformSlots (f : κ → Opcode → EStateM Failure σ Opcode) :
    List (SlotStep κ) → EStateM Failure (Array Opcode × σ) Unit
  | [] => pure ()
  | step :: rest => fun (slots, state) =>
    match f step.key (slots.getD step.source Opcode.END) state with
    | .error failure state => .error failure (slots, state)
    | .ok opcode state =>
      if opcode.isSentinel then .error (.error (.sentinelOpcode opcode)) (slots, state)
      else transformSlots f rest (slots.setIfInBounds step.target opcode, state)

/-- Every instruction of the store, thread by thread. -/
def places (s : Store) : List Place :=
  (List.range s.threads).flatMap fun thread =>
    (List.range s.perThread).flatMap fun program =>
      (List.range s.programSize).map fun instruction => { thread, program, instruction }

def slotOf (s : Store) (place : Place) : Nat :=
  place.thread * s.partitionLength + place.program * s.programStride + place.instruction

/-- Run a pass over the slots of a store. -/
def withSlots (pass : EStateM Failure (Array Opcode × σ) Unit) :
    EStateM Failure (Store × σ) Unit := fun (store, state) =>
  match pass (store.slots, state) with
  | .ok _ (slots, state) => .ok () ({ store with slots }, state)
  | .error failure (slots, state) => .error failure ({ store with slots }, state)

/-- Replace every instruction by what `f` makes of it and its place. -/
def transform (f : Place → Opcode → EStateM Failure σ Opcode) :
    EStateM Failure (Store × σ) Unit := fun (store, state) =>
  if !store.initialized then .error (.breach .uninitializedStore) (store, state)
  else
    let steps := store.places.map fun place =>
      { source := store.slotOf place, target := store.slotOf place, key := place }
    withSlots (transformSlots f steps) (store, state)

/-- Overwrite a program with what `f` makes of the instructions of another one.  The sentinel is
copied last. -/
def copyProgramWith (source target : Nat) (f : Nat → Opcode → EStateM Failure σ Opcode) :
    EStateM Failure (Store × σ) Unit := fun (store, state) =>
  match store.offset source 0, store.offset target 0 with
  | .error failure, _ => .error failure (store, state)
  | .ok _, .error failure => .error failure (store, state)
  | .ok i, .ok j =>
    let steps := (List.range store.programSize).map fun instruction =>
      { source := i + instruction, target := j + instruction, key := instruction }
    match withSlots (transformSlots f steps) (store, state) with
    | .error failure state => .error failure state
    | .ok _ (store, state) =>
      let last := store.slots.getD (i + store.programSize) Opcode.END
      .ok () ({ store with slots := store.slots.setIfInBounds (j + store.programSize) last }, state)

end Store

end LinearGP
