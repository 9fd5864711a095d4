import GeneralGame.Circuit.Net

/-!
The order of evaluation. The components that are not set from outside are ordered after all their
inputs, by repeated passes over those that still wait; a pass that orders none leaves a cycle.
-/
namespace GeneralGame.Net

/-- How far the ordering has come. -/
structure Schedule where
  /-- The components whose values are known when those still waiting are computed. -/
  ready : Array Bool
  ordered : Array ComponentId
  waiting : Array ComponentId

namespace Schedule

def inputsReady (net : Net) (ready : Array Bool) (id : ComponentId) : Bool :=
  (net.component? id).any fun c => c.inputs.all fun i => ready.getD i false

/-- Orders a component if all its inputs are ready, and lets it wait otherwise. -/
def visit (net : Net) (o : Schedule) (id : ComponentId) : Schedule :=
  if inputsReady net o.ready id then
    { o with ready := o.ready.setIfInBounds id true, ordered := o.ordered.push id }
  else { o with waiting := o.waiting.push id }

/-- One pass over the waiting components. A component ordered in it is ready for those after it. -/
def pass (net : Net) (o : Schedule) : Schedule :=
  o.waiting.foldl (visit net) { o with waiting := #[] }

/-- Passes until one orders nothing, `fuel` of them at most. -/
def settle (net : Net) : (fuel : Nat) → Schedule → Schedule
  | 0, o => o
  | fuel + 1, o =>
    let o' := o.pass net
    if o'.waiting.size < o.waiting.size then settle net fuel o' else o

def start (net : Net) : Schedule :=
  let independent := net.independentMask
  { ready := independent
    ordered := #[]
    waiting := (Array.range net.size).filter fun id => !independent.getD id false }

end Schedule

/-- Every dependent component once, each after all its inputs. A pass that goes on orders one at
least, so there are no more of them than components. -/
def order (net : Net) : Except GameError (List ComponentId) :=
  let o := (Schedule.start net).settle net net.size
  match o.waiting[0]? with
  | none => .ok o.ordered.toList
  | some first => .error (.cyclicDependency o.waiting.size (net.label first))

/-- Whether the listed components are new and each comes after all its inputs, where those in
`placed` have come before. -/
def follows (net : Net) (placed : Array Bool) : List ComponentId → Bool
  | [] => true
  | id :: rest =>
    !placed.getD id true && Schedule.inputsReady net placed id
      && follows net (placed.setIfInBounds id true) rest

/-- Whether the list has every dependent component once, each after all its inputs. -/
def isOrder (net : Net) (ids : List ComponentId) : Bool :=
  let independent := net.independentMask
  independent.count false = ids.length && net.follows independent ids

end GeneralGame.Net
