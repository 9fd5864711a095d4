import GeneralGame.Circuit.WellFormed

/-!
Nets under construction. Components are declared one by one, each gets the next free place, and
connections may be made in any order; `Draft.toNet` checks the result.
-/
namespace GeneralGame

structure Draft where
  roles : List String
  components : Array Component
  bases : Array ComponentId
  inputs : Array (RoleId × Move × ComponentId)
  legals : Array (RoleId × Move × ComponentId)
  goals : Array (RoleId × Nat × ComponentId)
  terminal : Option ComponentId
  /-- Ends of connections to components that did not exist when the connection was made. -/
  dangling : Array ComponentId
deriving DecidableEq

/-- Steps that build on a draft. -/
abbrev Drafting := StateM Draft

namespace Draft

/-- The component that marks the start of the game. -/
def init : ComponentId := 0

/-- A draft starts with the initial marker as its only component. -/
def new (roles : List String) : Draft where
  roles := roles
  components := #[⟨.proposition, [], some "init"⟩]
  bases := #[]
  inputs := #[]
  legals := #[]
  goals := #[]
  terminal := none
  dangling := #[]

def size (d : Draft) : Nat := d.components.size

def isEmpty (d : Draft) : Bool := d.components.isEmpty

def add (kind : ComponentKind) (name : Option String) : Drafting ComponentId := fun d =>
  (d.size, { d with components := d.components.push ⟨kind, [], name⟩ })

def addProposition (name : String) : Drafting ComponentId := add .proposition (some name)

/-- Makes `source` the next input of `target`. -/
def connect (source target : ComponentId) : Drafting Unit := fun d =>
  let d := if source < d.size then d else { d with dangling := d.dangling.push source }
  if target < d.size then
    ((), { d with components := d.components.modify target fun c =>
      { c with inputs := c.inputs ++ [source] } })
  else ((), { d with dangling := d.dangling.push target })

def addGate (kind : ComponentKind) (sources : List ComponentId) : Drafting ComponentId := do
  let id ← add kind none
  sources.forM fun source => connect source id
  return id

def base (name : String) : Drafting ComponentId := do
  let id ← addProposition name
  modify fun d => { d with bases := d.bases.push id }
  return id

def input (role : RoleId) (m : Move) : Drafting ComponentId := do
  let id ← addProposition s!"does {role.index} {m.name}"
  modify fun d => { d with inputs := d.inputs.push (role, m, id) }
  return id

def legal (role : RoleId) (m : Move) : Drafting ComponentId := do
  let id ← addProposition s!"legal {role.index} {m.name}"
  modify fun d => { d with legals := d.legals.push (role, m, id) }
  return id

def goal (role : RoleId) (value : Nat) : Drafting ComponentId := do
  let id ← addProposition s!"goal {role.index} {value}"
  modify fun d => { d with goals := d.goals.push (role, value, id) }
  return id

/-- Of several terminal propositions the last one counts. -/
def terminalMark : Drafting ComponentId := do
  let id ← addProposition "terminal"
  modify fun d => { d with terminal := some id }
  return id

def view (name : String) : Drafting ComponentId := addProposition name

def and (sources : List ComponentId) : Drafting ComponentId := addGate .and sources

def or (sources : List ComponentId) : Drafting ComponentId := addGate .or sources

def not (source : ComponentId) : Drafting ComponentId := addGate .not [source]

def constant (value : Bool) : Drafting ComponentId := add (.constant value) none

/-- Feeds a base proposition by a transition that carries the value of `source` into the next
state. -/
def next (base source : ComponentId) : Drafting ComponentId := do
  let id ← addGate .transition [source]
  connect id base
  return id

def checkRole (roleCount : Nat) (r : RoleId) : Except GameError Unit :=
  if r.index < roleCount then pure () else throw (.unknownRole r.index roleCount)

/-- Both ends of every connection existed when it was made. -/
def checkConnections (d : Draft) : Except GameError Unit :=
  match d.dangling[0]? with
  | none => pure ()
  | some id => throw (.unknownComponent id)

def declaredTerminal (d : Draft) : Except GameError ComponentId :=
  match d.terminal with
  | some id => pure id
  | none => throw .missingTerminal

/-- The declarations of one role. -/
def ofRole {α : Type} (declared : Array (RoleId × α)) (r : RoleId) : List α :=
  declared.toList.filterMap fun (r', a) => if r' = r then some a else none

def assemble (d : Draft) (terminal : ComponentId) : Net :=
  let count := d.roles.length
  { roles := d.roles
    components := d.components
    init := init
    bases := d.bases
    inputs := .ofRoles count fun r => .ofList (ofRole d.inputs r)
    legals := .ofRoles count (ofRole d.legals)
    goals := .ofRoles count (ofRole d.goals)
    terminal }

/-- The net that was drafted, if it is one. Two input propositions of the same role and move leave
the last one in charge of the move. -/
def toNet (d : Draft) : Except GameError Net := do
  Net.checkRoleCount d.roles
  d.checkConnections
  let terminal ← d.declaredTerminal
  d.inputs.toList.forM fun e => checkRole d.roles.length e.1
  d.legals.toList.forM fun e => checkRole d.roles.length e.1
  d.goals.toList.forM fun e => checkRole d.roles.length e.1
  let net := d.assemble terminal
  net.check
  return net

end Draft

/-- One step of a draft that is given as data. -/
inductive Declaration where
  | init
  | base (name : String)
  | input (role : RoleId) (move : Move)
  | legal (role : RoleId) (move : Move)
  | goal (role : RoleId) (value : Nat)
  | terminal
  | view (name : String)
  | and (sources : List ComponentId)
  | or (sources : List ComponentId)
  | not (source : ComponentId)
  | constant (value : Bool)
  | next (base source : ComponentId)
  | connect (source target : ComponentId)

/-- Adds a declaration to a draft and gives the component that it speaks of; a connection speaks of
none. -/
def Declaration.declare : Declaration → Drafting (Option ComponentId)
  | .init => return some Draft.init
  | .base name => return some (← Draft.base name)
  | .input role move => return some (← Draft.input role move)
  | .legal role move => return some (← Draft.legal role move)
  | .goal role value => return some (← Draft.goal role value)
  | .terminal => return some (← Draft.terminalMark)
  | .view name => return some (← Draft.view name)
  | .and sources => return some (← Draft.and sources)
  | .or sources => return some (← Draft.or sources)
  | .not source => return some (← Draft.not source)
  | .constant value => return some (← Draft.constant value)
  | .next target source => return some (← Draft.next target source)
  | .connect source target => do
    Draft.connect source target
    return none

/-- The draft after all the declarations. -/
def Draft.ofDeclarations (roles : List String) (ds : List Declaration) : Draft :=
  ds.foldl (fun d declaration => (declaration.declare.run d).2) (.new roles)

end GeneralGame
