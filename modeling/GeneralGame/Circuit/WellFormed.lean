import GeneralGame.Circuit.Net

/-!
Which nets are circuits of a game. `Net.check` names the first thing that is wrong, in this order:
the number of roles, the sizes of the tables, components that do not exist, the number of inputs
of each component, and what each role must declare.
-/
namespace GeneralGame.Net

def checkRoleCount (roles : List String) : Except GameError Unit :=
  if roles.isEmpty then throw .noRoles
  else if maxRoles < roles.length then throw (.tooManyRoles roles.length)
  else pure ()

/-- A table with another number of entries than the game has roles speaks of a role that one of
the two does not know: the last one of the longer. -/
def checkTableSize (net : Net) (size : Nat) : Except GameError Unit :=
  if size = net.roleCount then pure ()
  else throw (.unknownRole (max size net.roleCount - 1) net.roleCount)

/-- Every component that the net refers to, in the order of the check. -/
def references (net : Net) : List ComponentId :=
  net.init :: net.terminal :: net.bases.toList
    ++ (RoleId.all net.roleCount).flatMap (fun r =>
      ((net.inputs.get? r).elim [] MoveTable.ids)
        ++ (net.legalsOf r).map Prod.snd ++ (net.goalsOf r).map Prod.snd)
    ++ net.components.toList.flatMap Component.inputs

def checkReference (net : Net) (id : ComponentId) : Except GameError Unit :=
  if id < net.size then pure () else throw (.unknownComponent id)

/-- The number of inputs that a component other than a base proposition must have. -/
def expectedInputs (kind : ComponentKind) (independent : Bool) : InputCount :=
  match kind with
  | .proposition => if independent then .none else .atMostOne
  | .and | .or => .atLeastOne
  | .not | .transition => .exactlyOne
  | .constant _ => .none

def checkInputCount (id : ComponentId) (c : Component) (expected : InputCount) :
    Except GameError Unit :=
  if expected.admits c.inputs.length then pure ()
  else throw (.invalidInputCount id c.kind c.inputs.length expected)

/-- What feeds a base proposition is a transition. -/
def checkFeed (net : Net) (id : ComponentId) (c : Component) : Except GameError Unit :=
  match c.inputs.head?.bind net.component? with
  | none => pure ()
  | some source =>
    if source.kind = .transition then pure () else throw (.invalidBaseInput id source.kind)

/-- A base proposition is fed by one transition or by nothing. -/
def checkBase (net : Net) (id : ComponentId) (c : Component) : Except GameError Unit := do
  net.checkFeed id c
  checkInputCount id c .atMostOne

def checkComponent (net : Net) (isBase isIndependent : Array Bool) (id : ComponentId)
    (c : Component) : Except GameError Unit :=
  if isBase.getD id false then net.checkBase id c
  else checkInputCount id c (expectedInputs c.kind (isIndependent.getD id false))

def checkComponents (net : Net) : Except GameError Unit :=
  let isBase := net.mark net.bases.toList
  let isIndependent := net.independentMask
  net.components.toList.zipIdx.forM fun (c, id) => net.checkComponent isBase isIndependent id c

def checkGoals (role : String) (goals : List (Nat × ComponentId)) : Except GameError Unit :=
  if goals.isEmpty then throw (.missingGoals role)
  else match goals.find? (100 < ·.1) with
    | none => pure ()
    | some (value, _) => throw (.invalidGoalValue role value)

def checkLegals (role : String) (legals : List (Move × ComponentId)) : Except GameError Unit :=
  if legals.isEmpty then throw (.missingLegals role) else pure ()

/-- A role must have goals, all of them from 0 to 100, and moves. -/
def checkRole (net : Net) (role : String) (r : RoleId) : Except GameError Unit := do
  checkGoals role (net.goalsOf r)
  checkLegals role (net.legalsOf r)

def check (net : Net) : Except GameError Unit := do
  checkRoleCount net.roles
  net.checkTableSize net.inputs.size
  net.checkTableSize net.legals.size
  net.checkTableSize net.goals.size
  net.references.forM net.checkReference
  net.checkComponents
  net.roles.zipIdx.forM fun (role, i) => net.checkRole role (.ofIndex i)

/-- The net passes every check. -/
def WellFormed (net : Net) : Prop := net.check = .ok ()

instance (net : Net) : Decidable net.WellFormed :=
  match h : net.check with
  | .ok () => isTrue h
  | .error _ => isFalse (by simp [WellFormed, h])

end GeneralGame.Net
