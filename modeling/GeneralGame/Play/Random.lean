import GeneralGame.Play.Basic

/-!
Random play: every role draws one of its legal moves, in role order, until the game is over.
-/
namespace GeneralGame.Play

/-- Draws a legal move of a role. -/
def randomMove (s : State) (r : RoleId) : Play Move := do
  let ms ← query (.moves s r)
  let i ← draw .wide ms.val.length (List.length_pos_iff.mpr ms.property)
  return ms.val.get i

def randomJointMove (roleCount : Nat) (s : State) : Play JointMove := do
  return ⟨← (RoleId.all roleCount).mapM (randomMove s)⟩

/-- A joint move in which `role` plays `m` and the other roles draw theirs. -/
def randomJointMoveWith (roleCount : Nat) (s : State) (role : RoleId) (m : Move) :
    Play JointMove := do
  return ⟨← (RoleId.all roleCount).mapM fun r =>
    if r = role then return m else randomMove s r⟩

def randomNext (roleCount : Nat) (s : State) : Play State := do
  query (.next s (← randomJointMove roleCount s))

/-- Plays at random until the game is over; `depth` joint moves were made before. -/
def toEnd (roleCount : Nat) : (fuel depth : Nat) → State → Play (State × Nat)
  | 0, _, _ => .outOfFuel
  | fuel + 1, depth, s => do
    if ← query (.isTerminal s) then return (s, depth)
    toEnd roleCount fuel (depth + 1) (← randomNext roleCount s)

/-- How a playout ended for the role that searches. -/
structure Rollout where
  goal : Nat
  depth : Nat
deriving DecidableEq

/-- Plays at random until the game is over or the deadline has expired in a state where it is
not. -/
def rollout (roleCount : Nat) (r : RoleId) : (fuel depth : Nat) → State → Play Rollout
  | 0, _, _ => .outOfFuel
  | fuel + 1, depth, s => do
    if ← query (.isTerminal s) then return ⟨← query (.goal s r), depth⟩
    else if ← poll then .cut
    else rollout roleCount r fuel (depth + 1) (← randomNext roleCount s)

end GeneralGame.Play
