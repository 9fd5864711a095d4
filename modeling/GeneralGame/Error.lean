import GeneralGame.Move
import GeneralGame.Circuit.Component

/-!
What can go wrong with a game. Configuration faults show while a net is built or read and leave
no machine to play on; the others come from a single question and spoil one decision only. Running
out of time is no error.
-/
namespace GeneralGame

/-- How many inputs a component must have. -/
inductive InputCount where
  | none
  | atMostOne
  | atLeastOne
  | exactlyOne
deriving DecidableEq

namespace InputCount

def admits : InputCount → Nat → Bool
  | none, n => n = 0
  | atMostOne, n => n ≤ 1
  | atLeastOne, n => 1 ≤ n
  | exactlyOne, n => n = 1

def text : InputCount → String
  | none => "none"
  | atMostOne => "at most 1"
  | atLeastOne => "at least 1"
  | exactlyOne => "exactly 1"

end InputCount

inductive GameError where
  | cyclicDependency (unordered : Nat) (first : String)
  | noRoles
  | tooManyRoles (count : Nat)
  | missingTerminal
  | missingGoals (role : String)
  | missingLegals (role : String)
  | unknownComponent (id : ComponentId)
  | invalidInputCount (id : ComponentId) (kind : ComponentKind) (found : Nat)
      (expected : InputCount)
  | invalidBaseInput (id : ComponentId) (found : ComponentKind)
  | unknownRole (index count : Nat)
  | invalidGoalValue (role : String) (value : Nat)
  | goalDefinition (role : RoleId) (trueCount : Nat)
  | moveDefinition (role : RoleId) (move : Move)
  | jointMoveSize (expected found : Nat)
  | noLegalMoves (role : RoleId)
  | malformedBytes
deriving DecidableEq

namespace GameError

def message : GameError → String
  | cyclicDependency n first =>
    s!"dependency cycle: {n} component(s) could not be ordered (first: {first})"
  | noRoles => "game has no roles"
  | tooManyRoles count => s!"game has {count} roles, at most {maxRoles} are supported"
  | missingTerminal => "no terminal proposition designated"
  | missingGoals role => s!"role '{role}' has no goal propositions"
  | missingLegals role => s!"role '{role}' has no legal propositions"
  | unknownComponent id => s!"component {id.text} does not exist"
  | invalidInputCount id kind found expected =>
    s!"{kind.text} component {id.text} has {found} input(s), expected {expected.text}"
  | invalidBaseInput id found =>
    s!"base proposition {id.text} must be fed by a transition, found {found.text}"
  | unknownRole index count => s!"role index {index} is out of range for {count} role(s)"
  | invalidGoalValue role value => s!"goal value {value} for role '{role}' is outside 0..=100"
  | goalDefinition role n => s!"goal for {role.text} is ill-defined: {n} goal propositions are true"
  | moveDefinition role move => s!"move '{move.name}' has no input proposition for {role.text}"
  | jointMoveSize expected found => s!"joint move has {found} entries, expected {expected}"
  | noLegalMoves role => s!"{role.text} has no legal moves in a non-terminal state"
  | malformedBytes => "malformed net bytes"

/-- Whether the error makes a machine impossible to construct. An unknown role counts as one even
where a question about a state names it. -/
def isConfiguration : GameError → Bool
  | goalDefinition .. | moveDefinition .. | jointMoveSize .. | noLegalMoves .. | malformedBytes =>
    false
  | _ => true

end GameError

end GeneralGame
