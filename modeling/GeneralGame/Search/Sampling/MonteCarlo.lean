import GeneralGame.Search.Brief
import GeneralGame.Search.Incumbent

/-!
Monte Carlo evaluation of moves. In every round each move gets one playout from a random successor
in which the role plays it; in the end the move of the best average is chosen.
-/
namespace GeneralGame.MonteCarlo

open Search

/-- The playouts of one move. -/
structure Tally where
  move : Move
  total : Nat
  samples : Nat
deriving DecidableEq

def Tally.add (t : Tally) (goal : Nat) : Tally :=
  { t with total := t.total + goal, samples := t.samples + 1 }

/-- One playout in which the role plays `m` first. -/
def sample (b : Brief) (fuel : Nat) (s : State) (m : Move) : Search Nat := do
  checkpoint
  let joint ← ofPlay (Play.randomJointMoveWith b.roleCount s b.role m)
  b.depthCharge fuel (← next s joint)

/-- A playout for each move, and whether the deadline let all of them come to their end. -/
def round (b : Brief) (fuel : Nat) (s : State) : List Tally → Search (List Tally × Bool)
  | [] => return ([], true)
  | t :: ts => do
    match ← (sample b fuel s t.move).attempt with
    | none => return (t :: ts, false)
    | some goal =>
      let (ts, whole) ← round b fuel s ts
      return (t.add goal :: ts, whole)

def rounds (b : Brief) (fuel : Nat) (s : State) : Nat → List Tally → Search (List Tally)
  | 0, ts => return ts
  | n + 1, ts => do
    let (ts, whole) ← round b fuel s ts
    if whole then
      note .iteration
      rounds b fuel s n ts
    else return ts

/-- The first of the moves with the best average; moves without a playout have none. -/
def best (first : Move) (ts : List Tally) : Move :=
  (ts.foldl (fun (i : Incumbent Float) t =>
    if 0 < t.samples then i.offer t.move (t.total.toFloat / t.samples.toFloat) else i)
    ⟨first, minusInfinity⟩).move

def search (b : Brief) (fuel : Nat) (s : State) (moves : List Move) (h : moves ≠ []) :
    Search Move := do
  let ts ← rounds b fuel s b.config.depthCharges (moves.map fun m => ⟨m, 0, 0⟩)
  return best (moves.head h) ts

end GeneralGame.MonteCarlo
