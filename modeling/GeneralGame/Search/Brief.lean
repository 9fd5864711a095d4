import GeneralGame.Search.Basic
import GeneralGame.Search.Config
import GeneralGame.Search.Sampling.Ucb

/-!
What a search is told before it starts: for which role it plays, its settings, and how children are
selected and playouts are run.
-/
namespace GeneralGame

open Search

/-- Chooses the child that a tree search descends into. `turn` counts the choices made before. -/
abbrev SelectionPolicy := (turn : Nat) → Config → (parent : Node) →
  (children : List (Option Node)) → children ≠ [] → Fin children.length

def SelectionPolicy.ucb : SelectionPolicy := fun _ config parent children h =>
  ⟨Ucb.select parent children config.exploration,
    Ucb.select_lt parent children config.exploration h⟩

/-- Runs a playout for a role. `turn` counts the playouts before. -/
abbrev PlayoutPolicy := (roleCount : Nat) → (role : RoleId) → (fuel turn : Nat) → State →
  Play Play.Rollout

def PlayoutPolicy.random : PlayoutPolicy := fun roleCount role fuel _ s =>
  Play.rollout roleCount role fuel 0 s

structure Brief where
  roleCount : Nat
  role : RoleId
  config : Config
  selection : SelectionPolicy
  playout : PlayoutPolicy

namespace Brief

/-- The joint move in which the searching role plays `m` and the others wait. -/
def placeholder (b : Brief) (m : Move) : JointMove := .placeholder b.roleCount b.role m

/-- The searching role's goal. -/
def goal (b : Brief) (s : State) : Search Nat := query (.goal s b.role)

/-- The goal at the end of a playout. A playout that was cut off cuts the search off. -/
def depthCharge (b : Brief) (fuel : Nat) (s : State) : Search Nat := do
  let turn ← playoutTurn
  match ← (ofPlay (b.playout b.roleCount b.role fuel turn s)).attempt with
  | none => cutOff
  | some ended =>
    note .charge
    note (.depth ended.depth)
    return ended.goal

end Brief

end GeneralGame
