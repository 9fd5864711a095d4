import GeneralGame.Odometer
import GeneralGame.State

/-!
Games as players see them: what the roles are, where the game starts and ends, what each role may
do and scores, and how a joint move changes the state.
-/
namespace GeneralGame

structure Game where
  roles : List String
  initial : State
  isTerminal : State → Bool
  goal : State → RoleId → Except GameError Nat
  legal : State → RoleId → Except GameError (List Move)
  next : State → JointMove → Except GameError State

namespace Game

def roleCount (g : Game) : Nat := g.roles.length

/-- The first role of that name. -/
def roleIndex? (g : Game) (name : String) : Option RoleId :=
  (g.roles.findIdx? (· = name)).map .ofIndex

def goals (g : Game) (s : State) : Except GameError (List Nat) :=
  (RoleId.all g.roleCount).mapM (g.goal s)

/-- The legal moves of a role that has to move. -/
def moves (g : Game) (s : State) (r : RoleId) : Except GameError { ms : List Move // ms ≠ [] } := do
  let ms ← g.legal s r
  if h : ms = [] then throw (.noLegalMoves r) else return ⟨ms, h⟩

/-- The same as a plain list. -/
def options (g : Game) (s : State) (r : RoleId) : Except GameError (List Move) :=
  return (← g.moves s r).val

/-- The options of a role where `role` plays `m`. -/
def pinned (g : Game) (s : State) (role : RoleId) (m : Move) (r : RoleId) :
    Except GameError (List Move) :=
  if r = role then return [m] else g.options s r

/-- Every joint move that takes the move of each role from its entry. -/
def jointMovesOf (g : Game) (entry : RoleId → Except GameError (List Move)) :
    Except Fault (List JointMove) := do
  let lists ← ((RoleId.all g.roleCount).mapM entry).mapError .error
  cartesian lists

/-- Every joint move of legal moves. -/
def jointMoves (g : Game) (s : State) : Except Fault (List JointMove) :=
  g.jointMovesOf (g.options s)

/-- Every joint move in which `role` plays `m` and the others play legal moves. -/
def jointMovesWith (g : Game) (s : State) (role : RoleId) (m : Move) :
    Except Fault (List JointMove) :=
  g.jointMovesOf (g.pinned s role m)

end Game

end GeneralGame
