import LinearGP.Random.Source

/-!
# Tournament selection

Selection hands out wins, one for each program of the next generation.  A tournament draws some
programs; the best of them gets a win, unless its loss is not finite or it has as many wins as one
program may have.  Tournaments go on until as many wins are out as there are programs, or until no
program can take another one.  When more tournaments than there are programs brought no win at all,
the population has collapsed.

`Tournament.select` works on a list of wins and a source of draws.  Nothing bounds the number of
tournaments that luck may need, so it takes a budget of them.
-/

set_option autoImplicit false

namespace LinearGP

/-- The rules of a selection. -/
structure Tournament where
  losses : Array Binary64
  /-- The most wins of one program. -/
  cap : UInt8
  size : Nat

/-- A selection under way. -/
structure Contest where
  /-- Wins of every program. -/
  wins : Array UInt8
  /-- Wins that the programs can still take. -/
  capacity : Nat
  /-- Wins handed out. -/
  selected : Nat
  held : Nat
deriving DecidableEq

namespace Tournament

def population (t : Tournament) : Nat := t.losses.size

def loss (t : Tournament) (program : Nat) : Binary64 := t.losses.getD program .infinity

/-- Programs that can win. -/
def contenders (t : Tournament) : Nat := t.losses.toList.countP Binary64.isFinite

def opening (t : Tournament) : Contest where
  wins := Array.replicate t.population 0
  capacity := t.contenders * t.cap.toNat
  selected := 0
  held := 0

/-- The better of two programs, the first if they are as good. -/
def better (t : Tournament) (holder challenger : Nat) : Nat :=
  if (t.loss challenger).less (t.loss holder) then challenger else holder

/-- The first program with the lowest loss among those drawn. -/
def winner (t : Tournament) : List Nat → Nat
  | [] => 0
  | first :: challengers => challengers.foldl t.better first

/-- All wins are handed out, or no program can take another one. -/
def isOver (t : Tournament) (c : Contest) : Bool :=
  t.population ≤ c.selected || 0 < c.selected && c.capacity = 0

/-- A program can take another win. -/
def admits (t : Tournament) (c : Contest) (program : Nat) : Bool :=
  (t.loss program).isFinite && c.wins.getD program 0 < t.cap

/-- Count a tournament and hand out the win of its best program. -/
def settle (t : Tournament) (c : Contest) (program : Nat) : Except Failure Contest :=
  let held := c.held + 1
  if t.admits c program then
    .ok { wins := c.wins.modify program (· + 1)
          capacity := c.capacity - 1
          selected := c.selected + 1
          held }
  else if c.selected = 0 ∧ t.population < held then refuse (.populationCollapsed held)
  else .ok { c with held }

variable {σ : Type} [DrawSource σ]

/-- Hold up to `budget` tournaments, until the contest is over. -/
def run (t : Tournament) : (budget : Nat) → Contest → σ → EStateM.Result Failure (Contest × σ) Nat
  | 0, c, s => if t.isOver c then .ok c.selected (c, s) else .error .unfinished (c, s)
  | budget + 1, c, s =>
    if t.isOver c then .ok c.selected (c, s)
    else
      let (drawn, s) := drawIndices t.population t.size s
      match t.settle c (t.winner drawn) with
      | .error failure => .error failure (c, s)
      | .ok c => t.run budget c s

/-- Replace the wins of every program by those of a selection, and return how many were handed
out. -/
def select (t : Tournament) (budget : Nat) : EStateM Failure (Array UInt8 × σ) Nat :=
  fun (wins, s) =>
    if wins.size ≠ t.population ∨ t.size = 0 ∨ t.cap = 0 then
      .error (.breach .shapeMismatch) (wins, s)
    else
      match t.run budget t.opening s with
      | .ok selected (c, s) => .ok selected (c.wins, s)
      | .error failure (c, s) => .error failure (c.wins, s)

end Tournament

end LinearGP
