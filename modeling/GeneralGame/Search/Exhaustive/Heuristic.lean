import GeneralGame.Search.Brief

/-!
Estimates of a state on the scale of goals, for a search that does not look to the end of the game.
-/
namespace GeneralGame

open Search

inductive Heuristic where
  /-- The goal that the role would score here. -/
  | goalProximity
  /-- How many moves the role has, in hundredths of a feasible number. -/
  | mobility (feasible : Nat)
  /-- How few moves the role has. -/
  | focus (feasible : Nat)
  /-- The average goal of some playouts. -/
  | monteCarlo (charges : Nat)
deriving DecidableEq

namespace Heuristic

/-- The heuristic where none is named. -/
def standard : Heuristic := mobility 4

def text : Heuristic → String
  | goalProximity => "GoalProximity"
  | mobility n => s!"Mobility \x7b feasible: {n} \x7d"
  | focus n => s!"Focus \x7b feasible: {n} \x7d"
  | monteCarlo n => s!"MonteCarlo \x7b charges: {n} \x7d"

/-- Hundredths of `feasible` that `n` moves are, at most 100. -/
def hundredths (n feasible : Nat) : Nat := if n < feasible then n * 100 / feasible else 100

/-- The goals of `n` playouts added to a sum, which is kept in 32 bits. -/
def sumOfCharges (b : Brief) (fuel : Nat) (s : State) : Nat → (sum : Nat) → Search Nat
  | 0, sum => return sum
  | n + 1, sum => do
    let goal ← b.depthCharge fuel s
    let sum ← .ofExcept (fit UInt32.size (sum + goal))
    sumOfCharges b fuel s n sum

def value (b : Brief) (fuel : Nat) (s : State) : Heuristic → Search Nat
  | goalProximity => b.goal s
  | mobility feasible => do
    let ms ← query (.legal s b.role)
    return hundredths ms.length feasible
  | focus feasible => do
    let ms ← query (.legal s b.role)
    return 100 - hundredths ms.length feasible
  | monteCarlo charges => do
    let sum ← sumOfCharges b fuel s (max 1 charges) 0
    return sum / max 1 charges

end Heuristic

end GeneralGame
