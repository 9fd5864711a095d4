/-!
The parts of a propositional network: components with their inputs, and the truth values that one
evaluation gives them.
-/
namespace GeneralGame

/-- A component is known by its place in the list of all components. -/
abbrev ComponentId := Nat

def ComponentId.text (id : ComponentId) : String := s!"#{id}"

inductive ComponentKind where
  | proposition
  | and
  | or
  | not
  | transition
  | constant (value : Bool)
deriving DecidableEq

def ComponentKind.text : ComponentKind → String
  | proposition => "proposition"
  | and => "and"
  | or => "or"
  | not => "not"
  | transition => "transition"
  | constant value => s!"constant({value})"

structure Component where
  kind : ComponentKind
  inputs : List ComponentId
  name : Option String
deriving DecidableEq

/-- What a component computes from the values of its inputs. A proposition or a transition copies
its first input, and is false without one. -/
def Component.output (c : Component) (value : ComponentId → Bool) : Bool :=
  match c.kind with
  | .and => c.inputs.all value
  | .or => c.inputs.any value
  | .not => !c.inputs.head?.any value
  | .proposition | .transition => c.inputs.head?.any value
  | .constant v => v

/-- Truth values of the components `0 … size - 1`. -/
structure Assignment where
  values : Array Bool
deriving DecidableEq

namespace Assignment

def allFalse (size : Nat) : Assignment := ⟨Array.replicate size false⟩

/-- Components that do not exist are false. -/
def get (a : Assignment) (id : ComponentId) : Bool := a.values.getD id false

/-- Setting a component that does not exist changes nothing. -/
def set (a : Assignment) (id : ComponentId) (v : Bool) : Assignment :=
  ⟨a.values.setIfInBounds id v⟩

def countTrue (a : Assignment) : Nat := a.values.count true

/-- The components that hold, in ascending order. -/
def trueIds (a : Assignment) : List ComponentId :=
  (List.range a.values.size).filter a.get

end Assignment

end GeneralGame
