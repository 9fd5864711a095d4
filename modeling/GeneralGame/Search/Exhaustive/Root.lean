import GeneralGame.Search.Brief
import GeneralGame.Search.Incumbent

/-!
The moves at the root of an exhaustive search. They are valued one after the other, and the best one
so far is at hand when the deadline comes.
-/
namespace GeneralGame

open Search

/-- The highest goal, which no move can exceed. -/
def topGoal : Nat := 100

/-- Values the moves in order and chooses the first of the greatest value; `score m floor` is the
value of `m`, where values up to `floor` make no difference. A move of the highest value ends the
search, and so does the deadline. -/
def chooseFrom (score : Move → (floor : Nat) → Search Nat) :
    List Move → Incumbent Nat → Search Move
  | [], best => return best.move
  | m :: ms, best => do
    match ← (score m best.score).attempt with
    | none => return best.move
    | some value =>
      if value = topGoal then return m
      let best := best.offer m value
      if ← expired then return best.move
      chooseFrom score ms best

/-- Chooses among all the moves of a role. -/
def chooseMove (score : Move → (floor : Nat) → Search Nat) (moves : List Move) (h : moves ≠ []) :
    Search Move :=
  chooseFrom score moves ⟨moves.head h, 0⟩

end GeneralGame
