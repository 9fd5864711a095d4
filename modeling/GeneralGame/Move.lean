import GeneralGame.Role

/-!
Moves. A move is an action name of one role; a joint move holds one move for every role, in role
order, and is what carries a game from one state to the next.
-/
namespace GeneralGame

structure Move where
  name : String
deriving DecidableEq

namespace Move

/-- The move of a role that does nothing. -/
def noop : Move := ⟨"noop"⟩

def isNoop (m : Move) : Bool := m = noop

end Move

structure JointMove where
  moves : List Move
deriving DecidableEq

namespace JointMove

/-- The joint move in which `role` plays `m` and every other role waits. -/
def placeholder (roleCount : Nat) (role : RoleId) (m : Move) : JointMove :=
  ⟨(RoleId.all roleCount).map fun r => if r = role then m else .noop⟩

def size (j : JointMove) : Nat := j.moves.length

def isEmpty (j : JointMove) : Bool := j.moves.isEmpty

def get? (j : JointMove) (r : RoleId) : Option Move := j.moves[r.index]?

/-- The joint move with the entry of `r` replaced; it stays as it is where it has no such entry. -/
def set (j : JointMove) (r : RoleId) (m : Move) : JointMove := ⟨j.moves.set r.index m⟩

/-- Every entry with its role. -/
def entries (j : JointMove) : List (RoleId × Move) :=
  j.moves.mapIdx fun i m => (.ofIndex i, m)

def text (j : JointMove) : String :=
  "[" ++ ", ".intercalate (j.moves.map Move.name) ++ "]"

end JointMove

end GeneralGame
