import GeneralGame.Search.Exhaustive.Heuristic
import GeneralGame.Search.Exhaustive.Root

/-!
Alpha-beta search over all legal joint moves. A state is valued within a window from `low` to
`high`: what lies outside of it cannot change the choice at the root, so a branch that leaves the
window is pruned and answered with the bound that it has passed. With a heuristic the search values
the states at the level limit instead of looking further.
-/
namespace GeneralGame.AlphaBeta

open Search

/-- Lowers `high` to the least score of the joint moves, until it meets `low`. -/
def least (b : Brief) (score : State → (high : Nat) → Search Nat) (s : State) (low : Nat) :
    List JointMove → (high : Nat) → Search Nat
  | [], high => return high
  | j :: js, high => do
    let value ← score (← next s j) high
    let high := min high value
    if high ≤ low then
      note .pruned
      return low
    least b score s low js high

/-- Raises `low` to the greatest score of the moves, until it meets `high`. -/
def greatest (score : Move → (low : Nat) → Search Nat) (high : Nat) :
    List Move → (low : Nat) → Search Nat
  | [], low => return low
  | m :: ms, low => do
    let value ← score m low
    let low := max low value
    if high ≤ low then
      note .pruned
      return high
    greatest score high ms low

/-- The worth of a move within a window, where `score` is the worth of a state one ply further. -/
def moveScore (b : Brief) (score : State → (low high : Nat) → Search Nat) (s : State) (m : Move)
    (low high : Nat) : Search Nat := do
  checkpoint
  let joints ← query (.jointMovesWith s b.role m)
  least b (fun t high => score t low high) s low joints high

/-- The heuristic that values a state of that level, if one does. -/
def cutoffAt (b : Brief) (cutoff : Option Heuristic) (level : Nat) : Option Heuristic :=
  if b.config.levelLimit ≤ level then cutoff else none

theorem eq_of_cutoffAt {b : Brief} {cutoff : Option Heuristic} {level : Nat} {heuristic : Heuristic}
    (h : cutoffAt b cutoff level = some heuristic) : cutoff = some heuristic := by
  unfold cutoffAt at h
  split at h
  · exact h
  · cases h

/-- The worth, within a window, of a state that is `level` plies from the root. -/
def stateScore (b : Brief) (cutoff : Option Heuristic) :
    (fuel level : Nat) → State → (low high : Nat) → Search Nat
  | 0, _, _, _, _ => .outOfFuel
  | fuel + 1, level, s, low, high => do
    checkpoint
    note (.depth level)
    if ← query (.isTerminal s) then b.goal s
    else
      match cutoffAt b cutoff level with
      | some heuristic => heuristic.value b fuel s
      | none =>
        let ms ← query (.moves s b.role)
        greatest (fun m low => moveScore b (stateScore b cutoff fuel (level + 1)) s m low high) high
          ms.val low

def search (b : Brief) (cutoff : Option Heuristic) (fuel : Nat) (s : State) (moves : List Move)
    (h : moves ≠ []) : Search Move :=
  chooseMove (fun m floor => moveScore b (stateScore b cutoff fuel 1) s m floor topGoal) moves h

end GeneralGame.AlphaBeta
