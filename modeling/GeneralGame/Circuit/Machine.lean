import GeneralGame.Circuit.Order
import GeneralGame.Circuit.WellFormed
import GeneralGame.Game

/-!
The game that a net describes. Every question sets the independent components from a state and a
joint move, computes the others along the order of evaluation, and reads its answer off the values;
nothing is kept from one question to the next.
-/
namespace GeneralGame

structure Machine where
  net : Net
  order : List ComponentId
  initial : State

namespace Net

/-- Computes the listed components, one after the other. -/
def propagate (net : Net) (order : List ComponentId) (values : Assignment) : Assignment :=
  order.foldl (fun values id =>
    match net.component? id with
    | some c => values.set id (c.output values.get)
    | none => values) values

/-- Sets the base propositions of a state's facts; facts that the net does not know are left
out. -/
def markState (net : Net) (s : State) (values : Assignment) : Assignment :=
  s.facts.foldl (fun values f =>
    match net.bases[f]? with
    | some id => values.set id true
    | none => values) values

/-- Sets the input proposition of a role's move. Doing nothing needs none. -/
def markMove (net : Net) (values : Assignment) (entry : RoleId × Move) :
    Except GameError Assignment :=
  match net.input? entry.1 entry.2 with
  | some id => .ok (values.set id true)
  | none => if entry.2.isNoop then .ok values else .error (.moveDefinition entry.1 entry.2)

def markJointMove (net : Net) (j : JointMove) (values : Assignment) :
    Except GameError Assignment :=
  if j.size = net.roleCount then j.entries.foldlM net.markMove values
  else .error (.jointMoveSize net.roleCount j.size)

/-- The facts whose base propositions are fed a true value. -/
def readNext (net : Net) (values : Assignment) : State :=
  .ofFacts ((List.range net.bases.size).filter fun f =>
    ((net.bases[f]?.bind net.component?).bind (·.inputs.head?)).any values.get)

def noValues (net : Net) : Assignment := .allFalse net.size

/-- The facts that follow when the initial marker alone is set. -/
def initialState (net : Net) (order : List ComponentId) : State :=
  net.readNext (net.propagate order (net.noValues.set net.init true))

end Net

namespace Machine

def ofNet (net : Net) : Except GameError Machine := do
  net.check
  let order ← net.order
  return { net, order, initial := net.initialState order }

def evaluateState (m : Machine) (s : State) : Assignment :=
  m.net.propagate m.order (m.net.markState s m.net.noValues)

/-- The values of all components in a state, while a joint move is made or without one. -/
def evaluate (m : Machine) (s : State) : Option JointMove → Except GameError Assignment
  | none => .ok (m.evaluateState s)
  | some j => do
    let values ← m.net.markJointMove j (m.net.markState s m.net.noValues)
    return m.net.propagate m.order values

def checkRole (m : Machine) (r : RoleId) : Except GameError Unit :=
  if r.index < m.net.roleCount then pure () else throw (.unknownRole r.index m.net.roleCount)

def isTerminal (m : Machine) (s : State) : Bool := (m.evaluateState s).get m.net.terminal

/-- The one goal value whose proposition holds. -/
def goal (m : Machine) (s : State) (r : RoleId) : Except GameError Nat := do
  m.checkRole r
  let values := m.evaluateState s
  match (m.net.goalsOf r).filter fun entry => values.get entry.2 with
  | [(value, _)] => return value
  | held => throw (.goalDefinition r held.length)

/-- The moves whose legal propositions hold, in the order of their declaration. -/
def legal (m : Machine) (s : State) (r : RoleId) : Except GameError (List Move) := do
  m.checkRole r
  let values := m.evaluateState s
  return ((m.net.legalsOf r).filter fun entry => values.get entry.2).map Prod.fst

def next (m : Machine) (s : State) (j : JointMove) : Except GameError State := do
  return m.net.readNext (← m.evaluate s (some j))

def toGame (m : Machine) : Game where
  roles := m.net.roles
  initial := m.initial
  isTerminal := m.isTerminal
  goal := m.goal
  legal := m.legal
  next := m.next

end Machine

end GeneralGame
