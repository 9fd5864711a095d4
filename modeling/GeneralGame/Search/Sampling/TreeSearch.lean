import GeneralGame.Search.Brief
import GeneralGame.Search.Incumbent

/-!
Tree search with upper confidence bounds. Each iteration descends from the root to a state that is
terminal, was not visited yet, or leads back to the path; it registers the successors of that state,
runs playouts from it, and records their goals for every state of the path.
-/
namespace GeneralGame.TreeSearch

open Search

/-- Where a descent ends; `above` is its path back to the root. -/
structure Leaf where
  state : State
  above : List State
  /-- The role's goal, where the game is over. -/
  goal : Option Nat

namespace Leaf

/-- The states from the root to the leaf. -/
def path (l : Leaf) : List State := (l.state :: l.above).reverse

end Leaf

/-- The state that the selection policy goes on to, if the state was visited and has successors. -/
def follow (b : Brief) (s : State) : Search (Option State) := do
  let table ← table
  match (table.get? s).filter Node.isVisited with
  | none => return none
  | some node =>
    let children := node.children.getD []
    let entries := children.map fun c => table.get? c.state
    if h : entries = [] then return none
    else
      let turn ← selectionTurn
      let i := b.selection turn b.config node entries h
      return some (children.get ⟨i, by simpa [entries] using i.isLt⟩).state

/-- Goes down from `s`, which the states of `above` have led to. -/
def descend (b : Brief) : (fuel : Nat) → (s : State) → (above : List State) → Search Leaf
  | 0, _, _ => .outOfFuel
  | fuel + 1, s, above => do
    checkpoint
    if ← query (.isTerminal s) then return ⟨s, above, some (← b.goal s)⟩
    match ← follow b s with
    | none => return ⟨s, above, none⟩
    | some next =>
      if next ∈ s :: above then return ⟨s, above, none⟩
      descend b fuel next (s :: above)

/-- Registers the successors of a state by every legal joint move, if that was not done before. -/
def expand (s : State) : Search Unit := do
  let table ← table
  unless (table.get? s).any Node.isExpanded do
    let joints ← query (.jointMoves s)
    let children ← joints.mapM fun j => do
      let t ← next s j
      register t
      return ⟨j, t⟩
    setChildren s children

/-- The goals of `n` playouts added to a sum. -/
def sumOfCharges (b : Brief) (fuel : Nat) (s : State) : Nat → Float → Search Float
  | 0, sum => return sum
  | n + 1, sum => do
    let goal ← b.depthCharge fuel s
    sumOfCharges b fuel s n (sum + goal.toFloat)

def iterate (b : Brief) (fuel : Nat) (root : State) : Search Unit := do
  let leaf ← descend b fuel root []
  match leaf.goal with
  | some goal => backup leaf.path 1 goal.toFloat
  | none =>
    note (.depth leaf.above.length)
    expand leaf.state
    let charges := max 1 b.config.chargesPerExpansion
    let sum ← sumOfCharges b fuel leaf.state charges 0
    backup leaf.path charges sum

/-- Iterations until the deadline cuts one off. -/
def iterations (b : Brief) (fuel : Nat) (root : State) : Nat → Search Unit
  | 0 => .outOfFuel
  | n + 1 => do
    checkpoint
    iterate b fuel root
    note .iteration
    iterations b fuel root n

/-- The visits and rewards of the successors in which the role plays `m`. -/
def record (table : VisitTable) (children : List Child) (r : RoleId) (m : Move) : Nat × Float :=
  (children.filter fun c => c.playedBy r m).foldl (fun (visits, reward) c =>
    match table.get? c.state with
    | some node => (visits + node.visits, reward + node.total)
    | none => (visits, reward)) (0, 0)

/-- The first of the moves with the best average over its successors; moves without a visited
successor have none. -/
def best (table : VisitTable) (r : RoleId) (root : State) (first : Move) (moves : List Move) :
    Move :=
  let children := ((table.get? root).bind Node.children).getD []
  (moves.foldl (fun (i : Incumbent Float) m =>
    let (visits, reward) := record table children r m
    if 0 < visits then i.offer m (reward / visits.toFloat) else i)
    ⟨first, minusInfinity⟩).move

def search (b : Brief) (fuel : Nat) (s : State) (moves : List Move) (h : moves ≠ []) :
    Search Move := do
  plant s
  discard (iterations b fuel s fuel).attempt
  let table ← table
  return best table b.role s (moves.head h) moves

end GeneralGame.TreeSearch
