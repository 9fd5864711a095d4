import GeneralGame.Search.Exhaustive.Root

/-!
Minimax with waiting opponents. A move is worth its worst reply, and replies are tried for one
opponent at a time while the others wait. With two roles that take turns this is exact.
-/
namespace GeneralGame.Minimax

open Search

/-- The joint moves that answer `m`: for each opponent in turn one for each of its legal moves, or
the one in which everybody waits if there is no opponent. -/
def replies (b : Brief) (s : State) (m : Move) : Search (List JointMove) := do
  let opponents := (RoleId.all b.roleCount).filter (· ≠ b.role)
  let joints ← opponents.mapM fun r => do
    let ms ← query (.moves s r)
    return ms.val.map ((b.placeholder m).set r)
  return if joints.flatten.isEmpty then [b.placeholder m] else joints.flatten

/-- The least score of the joint moves, from `worst` down; 0 ends the search for a lower one. -/
def least (b : Brief) (score : State → Search Nat) (s : State) : List JointMove → Nat → Search Nat
  | [], worst => return worst
  | j :: js, worst => do
    let value ← score (← next s j)
    let worst := min worst value
    if worst = 0 then return 0
    least b score s js worst

/-- The greatest score of the moves, from `best` up; the highest goal ends the search for a greater
one. -/
def greatest (score : Move → Search Nat) : List Move → Nat → Search Nat
  | [], best => return best
  | m :: ms, best => do
    let value ← score m
    let best := max best value
    if best = topGoal then return topGoal
    greatest score ms best

/-- The worth of a move, where `score` is the worth of a state one ply further. -/
def moveScore (b : Brief) (score : State → Search Nat) (s : State) (m : Move) : Search Nat := do
  checkpoint
  let joints ← replies b s m
  least b score s joints topGoal

/-- The worth of a state that is `depth` plies from the root. -/
def stateScore (b : Brief) : (fuel depth : Nat) → State → Search Nat
  | 0, _, _ => .outOfFuel
  | fuel + 1, depth, s => do
    checkpoint
    note (.depth depth)
    if ← query (.isTerminal s) then b.goal s
    else
      let ms ← query (.moves s b.role)
      greatest (moveScore b (stateScore b fuel (depth + 1)) s) ms.val 0

def search (b : Brief) (fuel : Nat) (s : State) (moves : List Move) (h : moves ≠ []) :
    Search Move :=
  chooseMove (fun m _ => moveScore b (stateScore b fuel 1) s m) moves h

end GeneralGame.Minimax
